/-
The urls of a node, from the text to the handler.

A program reads the text of a url, sends the path it has found to the host, and the server there
reads that as the target of the request.  `Carried` are the names that come through as they are.

* `received_url` — the server reads the path that was sent;
* `routed_of_carried` — the names that are `Carried` arrive.
-/
import XetDcCache.FrontDoor

namespace XetDcCache

open ServeMux NetUrl PathEscape

def requestURI (u : NetUrl.Url) : Bytes :=
  (if u.rootless = [] then (if u.escapedPath = [] then lit "/" else u.escapedPath)
    else if lit "//" <+: u.rootless then u.scheme ++ lit ":" ++ u.rootless else u.rootless) ++
  u.query.elim [] fun q => lit "?" ++ q

/-- A name that the path of a URL can carry. -/
def Carried (name : Bytes) : Prop :=
  FileName name ∧ ∀ c ∈ name, c ≠ 37 ∧ c ≠ 63 ∧ c ≠ 35 ∧ isCTL c = false

/-! ### Request targets -/

/-- A path net/http has written, with whatever query, is read as what it denotes. -/
theorem parse_target {authorityOk : Bytes → Bool} {p q d : Bytes}
    (hp : validEncoded (47 :: p) = true) (hd : unescape (47 :: p) = some d)
    (hctl : ∀ c ∈ q, isCTL c = false) (hq : q = [] ∨ ∃ q', q = 63 :: q') :
    ∃ u, parse authorityOk true (47 :: p ++ q) = some u ∧ u.path = d ∧
      u.escapedPath = 47 :: p := by
  have hplain := plain_of_validEncoded hp
  have hnone : ¬ ((47 :: p ++ q).any isCTL = true ∨ 47 :: p ++ q = [] ∧ true = true) := by
    rintro (h | h)
    · obtain ⟨c, hc, hbad⟩ := List.any_eq_true.mp h
      rcases List.mem_append.mp hc with hc | hc
      · rw [(hplain c hc).2.2] at hbad
        cases hbad
      · rw [hctl c hc] at hbad
        cases hbad
    · exact List.cons_ne_nil _ _ h.1
  have hstar : 47 :: p ++ q ≠ [42] := by
    intro h
    exact absurd (List.cons.inj h).1 (by decide)
  have hscheme : getScheme (47 :: p ++ q) = some ([], 47 :: p ++ q) := rfl
  have hcut : (splitQuery (47 :: p ++ q)).1 = 47 :: p := by
    rw [splitQuery_fst, cutAt_append fun h => (hplain 63 h).1 rfl]
    rcases hq with rfl | ⟨q', rfl⟩ <;> simp [cutAt]
  have hd' : d ≠ [42] := by
    rintro rfl
    rw [unescape_cons (by decide), Option.map_eq_some_iff] at hd
    obtain ⟨e, -, he⟩ := hd
    exact absurd (List.cons.inj he).1 (by decide)
  rw [parse, if_neg hnone, if_neg hstar, hscheme]
  simp only [hcut]
  rw [if_neg (by simp), if_neg (by simp)]
  have hset : ∃ u, (⟨lower [], [], [], [], [], (splitQuery (47 :: p ++ q)).2.1,
      (splitQuery (47 :: p ++ q)).2.2, []⟩ : NetUrl.Url).setPath (47 :: p) = some u := by
    rw [Url.setPath, hd]
    exact ⟨_, rfl⟩
  obtain ⟨u, hu⟩ := hset
  have hpath : u.path = d := Option.some.inj ((setPath_path hu).symm.trans hd)
  refine ⟨u, hu, hpath, ?_⟩
  rw [escapedPath_setPath hu (hpath ▸ hd'), pathText, if_pos hp]

/-! ### The urls of an origin -/

section Url

variable {authorityOk : Bytes → Bool} (o : NetUrl.Origin authorityOk)

/-- What the url of an origin and a path is read as, but for the path. -/
theorem parseURL_text_fields {path : Bytes} {u : NetUrl.Url}
    (h : parseURL authorityOk (o.text ++ 47 :: path) = some u) :
    u.scheme = lower o.scheme ∧ u.host = o.authority ∧ u.rootless = [] ∧
      u.forceQuery = (splitQuery (cutAt 35 (47 :: path)).1).2.1 ∧
      u.rawQuery = (splitQuery (cutAt 35 (47 :: path)).1).2.2 := by
  have hfragment : (35 : UInt8) ∉ o.text := fun h => (o.text_plain h).2.1 rfl
  rw [parseURL, cutAt_append hfragment, cutAt_cons (by decide), o.parse_text] at h
  rw [cutAt_cons (by decide)]
  obtain ⟨v, hv, hu⟩ := Option.bind_eq_some_iff.mp h
  have hsame : u.scheme = v.scheme ∧ u.host = v.host ∧ u.rootless = v.rootless ∧
      u.forceQuery = v.forceQuery ∧ u.rawQuery = v.rawQuery := by
    split_ifs at hu
    · obtain rfl := Option.some.inj hu
      exact ⟨rfl, rfl, rfl, rfl, rfl⟩
    · obtain ⟨f, -, rfl⟩ := Option.map_eq_some_iff.mp hu
      exact ⟨rfl, rfl, rfl, rfl, rfl⟩
  by_cases hctl : (47 :: (cutAt 35 path).1).any isCTL = true
  · rw [if_pos hctl] at hv
    cases hv
  · rw [if_neg hctl] at hv
    obtain ⟨d, -, rfl⟩ := Option.map_eq_some_iff.mp hv
    exact hsame

theorem splitQuery_subset {rest : Bytes} {c : UInt8} (h : c ∈ (splitQuery rest).2.2) :
    c ∈ rest := by
  rw [splitQuery] at h
  split_ifs at h
  · cases h
  · exact List.dropWhile_subset _ (List.mem_of_mem_drop h)

/-- The target of the request for such a url. -/
theorem requestURI_eq {path : Bytes} {u : NetUrl.Url}
    (h : parseURL authorityOk (o.text ++ 47 :: path) = some u) :
    ∃ p q, u.escapedPath = 47 :: p ∧ validEncoded (47 :: p) = true ∧
      requestURI u = 47 :: p ++ q ∧ (∀ c ∈ q, isCTL c = false) ∧
      (q = [] ∨ ∃ q', q = 63 :: q') := by
  obtain ⟨hctl, hpath, hescaped⟩ := o.parseURL_text_path h
  obtain ⟨-, -, hrootless, -, hquery⟩ := parseURL_text_fields o h
  have hslash : ∃ p, u.escapedPath = 47 :: p := by
    rw [cutAt_cons (by decide), cutAt_cons (by decide)] at hpath hescaped
    rw [unescape_cons (by decide), Option.map_eq_some_iff] at hpath
    obtain ⟨d, -, hd⟩ := hpath
    rw [← hd] at hescaped
    have hplain : ∀ c ∈ ([47] : Bytes), shouldEscape c = false := by
      intro c hc
      rw [List.mem_singleton.mp hc]
      decide
    exact ⟨_, hescaped.trans (pathText_append hplain _ d)⟩
  obtain ⟨p, hp⟩ := hslash
  refine ⟨p, u.query.elim [] fun q => lit "?" ++ q, hp, ?_, ?_, ?_, ?_⟩
  · rw [← hp, hescaped]
    exact validEncoded_pathText _ _
  · rw [requestURI, if_pos hrootless, if_neg (by rw [hp]; exact List.cons_ne_nil _ _), hp]
  · rw [Url.query]
    split_ifs
    · intro c hc
      rcases List.mem_cons.mp hc with rfl | hc
      · decide
      · have hc := splitQuery_subset (hquery ▸ hc)
        exact Bool.eq_false_iff.mpr (List.any_eq_false.mp hctl c hc)
    · exact fun c hc => absurd hc List.not_mem_nil
  · rw [Url.query]
    split_ifs
    · exact .inr ⟨_, rfl⟩
    · exact .inl rfl

/-- The server reads the url that the request was made for. -/
theorem received_url {path : Bytes} {u : NetUrl.Url}
    (hu : parseURL authorityOk (o.text ++ 47 :: path) = some u) :
    ∃ url, parse authorityOk true (requestURI u) = some url ∧ url.path = u.path ∧
      url.escapedPath = u.escapedPath := by
  obtain ⟨p, q, hescaped, hvalid, huri, hctl, hq⟩ := requestURI_eq o hu
  have hread := unescape_escapedPath u
  rw [hescaped] at hread ⊢
  rw [huri]
  exact parse_target hvalid hread hctl hq

end Url

/-! ### Names that arrive -/

section Names

variable {authorityOk : Bytes → Bool} (o : NetUrl.Origin authorityOk) {names : List Bytes}

theorem render_eq (es : List Bytes) : render true es = 47 :: [47].intercalate es := by
  rw [render, if_pos rfl, lit_slash]
  rfl

theorem mem_intercalate {es : List Bytes} {c : UInt8} (h : c ∈ [47].intercalate es) :
    c = 47 ∨ ∃ e ∈ es, c ∈ e := by
  induction es with
  | nil => exact absurd h List.not_mem_nil
  | cons e es ih =>
    cases es with
    | nil =>
      rw [List.intercalate_singleton] at h
      exact .inr ⟨e, List.mem_cons_self, h⟩
    | cons e' es =>
      rw [List.intercalate_cons_cons, List.mem_append, List.mem_append, List.mem_singleton] at h
      rcases h with (h | h) | h
      · exact .inr ⟨e, List.mem_cons_self, h⟩
      · exact .inl h
      · rcases ih h with h | ⟨x, hx, hc⟩
        · exact .inl h
        · exact .inr ⟨x, List.mem_cons_of_mem _ hx, hc⟩

/-- A text of a name that is one of the names a directory can have. -/
theorem fileName_of_unescape {q name : Bytes} (hq : unescape q = some name)
    (hname : FileName name) : FileName q := by
  have hother {s : Bytes} (hs : 37 ∉ s) (hne : name ≠ s) : q ≠ s := by
    rintro rfl
    exact hne (Option.some.inj (hq.symm.trans (unescape_of_no_percent hs)))
  exact ⟨hother (by decide) hname.ne_nil, hother (by decide) hname.ne_dot,
    hother (by decide) hname.ne_dotDot, fun hmem => hname.slash (slash_mem_of_unescape hq hmem)⟩

theorem escape_render (es : List Bytes) :
    PathEscape.escape (render true es) = render true (es.map PathEscape.escape) := by
  have hslash : PathEscape.escape [47] = [47] := by decide
  rw [render_eq, render_eq]
  have hcons (s : Bytes) : PathEscape.escape (47 :: s) = 47 :: PathEscape.escape s :=
    (escape_append [47] s).trans (by rw [hslash]; rfl)
  rw [hcons]
  congr 1
  induction es with
  | nil => rfl
  | cons e es ih =>
    cases es with
    | nil => simp [List.intercalate_singleton]
    | cons e' es =>
      rw [List.map_cons, List.map_cons, List.intercalate_cons_cons, List.intercalate_cons_cons,
        escape_append, escape_append, hslash, ih, List.map_cons]

/-- Names that the path can carry are the segments the server reads. -/
theorem routed_of_carried (hnames : ∀ name ∈ names, Carried name) (hne : names ≠ []) :
    ∃ u, parseURL authorityOk (o.text ++ render true names) = some u ∧
      u.path = render true names ∧ segments u.escapedPath = names ∧
      cleanPath u.escapedPath = u.escapedPath := by
  have hplain : ∀ c ∈ render true names, c ≠ 37 ∧ c ≠ 63 ∧ c ≠ 35 ∧ isCTL c = false := by
    intro c hc
    rw [render_eq] at hc
    rcases List.mem_cons.mp hc with rfl | hc
    · decide
    · rcases mem_intercalate hc with rfl | ⟨name, hname, hc⟩
      · decide
      · exact (hnames name hname).2 c hc
  have hread := unescape_of_no_percent fun hmem => (hplain 37 hmem).1 rfl
  obtain ⟨u, hu, -⟩ := o.parseURL_text_of_plain
    (render_eq names ▸ fun c hc => (hplain c hc).2) (render_eq names ▸ hread)
  obtain ⟨-, hpath, hescaped⟩ := o.parseURL_text_path hu
  rw [← render_eq] at hu hpath hescaped
  rw [cutAt_of_not_mem fun hmem => (hplain 35 hmem).2.2.1 rfl,
    cutAt_of_not_mem fun hmem => (hplain 63 hmem).2.1 rfl] at hpath hescaped
  have hpath : u.path = render true names := Option.some.inj (hpath.symm.trans hread)
  rw [hpath] at hescaped
  -- each name is written as it is or escaped, and read back either way
  obtain ⟨text, htext, hescaped⟩ : ∃ text : Bytes → Bytes,
      (∀ name ∈ names, unescape (text name) = some name) ∧
        u.escapedPath = render true (names.map text) := by
    rw [hescaped, pathText]
    split_ifs
    · refine ⟨id, fun name hname => unescape_of_no_percent fun h => ?_, by rw [List.map_id]⟩
      exact ((hnames name hname).2 37 h).1 rfl
    · exact ⟨PathEscape.escape, fun name _ => unescape_escape name, escape_render names⟩
  have hfile : ∀ q ∈ names.map text, FileName q := by
    intro q hq
    obtain ⟨name, hname, rfl⟩ := List.mem_map.mp hq
    exact fileName_of_unescape (htext name hname) (hnames name hname).1
  have hne' : names.map text ≠ [] := by simpa using hne
  refine ⟨u, hu, hpath, ?_, hescaped ▸ cleanPath_render hfile hne'⟩
  rw [hescaped, render_eq,
    segments_intercalate hne' fun q hq => ⟨(hfile q hq).ne_nil, (hfile q hq).slash⟩, List.map_map]
  refine (List.map_congr_left fun name hname => ?_).trans (List.map_id names)
  rw [Function.comp_apply, pathUnescape, htext name hname]
  rfl

end Names

theorem xorbPath_eq_render (hash : Bytes) :
    xorbPath hash = render true [lit "xorb", lit "xorbs", lit "default", hash] := by
  rw [render_eq, xorbPath_segments]

/-- The segments of the path of a xorb can be carried if its hash can. -/
theorem xorb_names {hash : Bytes} (h : Carried hash) :
    ∀ name ∈ [lit "xorb", lit "xorbs", lit "default", hash], Carried name := by
  simp only [List.mem_cons, List.not_mem_nil, or_false, forall_eq_or_imp, forall_eq]
  exact ⟨⟨⟨by decide, by decide, by decide, by decide⟩, by decide +kernel⟩,
    ⟨⟨by decide, by decide, by decide, by decide⟩, by decide +kernel⟩,
    ⟨⟨by decide, by decide, by decide, by decide⟩, by decide +kernel⟩, h⟩

theorem reconstructionPath_eq_render (version fileID : Bytes) :
    reconstructionPath version fileID =
      render true [lit "cas", version, lit "reconstructions", fileID] := by
  rw [render_eq, reconstructionPath_segments]

theorem reconstruction_names {version fileID : Bytes} (hv : Carried version)
    (hf : Carried fileID) :
    ∀ name ∈ [lit "cas", version, lit "reconstructions", fileID], Carried name := by
  simp only [List.mem_cons, List.not_mem_nil, or_false, forall_eq_or_imp, forall_eq]
  exact ⟨⟨⟨by decide, by decide, by decide, by decide⟩, by decide +kernel⟩, hv,
    ⟨⟨by decide, by decide, by decide, by decide⟩, by decide +kernel⟩, hf⟩

/-- The address `http://authority`, where every authority is taken. -/
def httpOrigin (authority : Bytes)
    (hplain : ∀ c ∈ authority, c ≠ 47 ∧ c ≠ 63 ∧ c ≠ 35 ∧ isCTL c = false) :
    NetUrl.Origin fun _ => true where
  scheme := lit "http"
  authority := authority
  scheme_ne := by decide
  scheme_letter := by decide +kernel
  authority_plain := hplain
  authority_ok := rfl

end XetDcCache
