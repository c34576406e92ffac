/-
Where the files of the manifest cache lie (manifests.go `path`).

`path` joins the directory and a name made of the version, the file id and the sanitized range.
The first two may hold slashes, so the name is really a walk from the directory; its last
element is always a plain file name.

* `pathIn_directChild_iff` — the file is in the directory just when the walk comes back to it.
-/
import XetDcCache.Manifests

namespace XetDcCache

/-! ### Cleaned paths -/

/-- A name a directory can have an entry for. -/
structure FileName (name : Bytes) : Prop where
  ne_nil : name ≠ []
  ne_dot : name ≠ lit "."
  ne_dotDot : name ≠ lit ".."
  slash : 47 ∉ name

/-- The path of an entry of a directory whose path is cleaned. -/
def childPath (dir : Path) (name : Bytes) : Path :=
  if dir = lit "." then name
  else if dir = lit "/" then lit "/" ++ name
  else dir ++ lit "/" ++ name

def DirectChild (dir : Bytes) (p : Path) : Prop :=
  ∃ name, FileName name ∧ p = childPath (clean dir) name

def rooted (path : Bytes) : Bool := lit "/" <+: path

/-- The elements of a cleaned path, the last first. -/
def elems (path : Bytes) : List Bytes := (path.splitOn 47).foldl (cleanElem (rooted path)) []

/-- A cleaned path from its elements. -/
def render (rooted : Bool) (elems : List Bytes) : Path :=
  if rooted then lit "/" ++ (lit "/").intercalate elems
  else if elems = [] then lit "." else (lit "/").intercalate elems

theorem clean_eq (path : Bytes) : clean path = render (rooted path) (elems path).reverse := by
  rw [clean, render, elems, rooted]
  by_cases h : lit "/" <+: path <;> simp [h]

/-- An element of a cleaned path. -/
def IsElem (e : Bytes) : Prop := e ≠ [] ∧ e ≠ lit "." ∧ 47 ∉ e

theorem lit_slash : lit "/" = [47] := by decide

theorem slash_notMem_splitOn {s l : Bytes} (h : l ∈ s.splitOn 47) : 47 ∉ l := by
  induction s generalizing l with
  | nil =>
    rw [List.splitOn_nil, List.mem_singleton] at h
    exact h ▸ List.not_mem_nil
  | cons c s ih =>
    rw [List.splitOn_cons_eq_if_modifyHead] at h
    split at h
    · rcases List.mem_cons.mp h with rfl | h
      · exact List.not_mem_nil
      · exact ih h
    · next hc =>
      cases hs : s.splitOn 47 with
      | nil => exact absurd hs (List.splitOn_ne_nil 47 s)
      | cons l' ls =>
        rw [hs] at h
        rcases List.mem_cons.mp h with rfl | h
        · have hl' := ih (hs ▸ List.mem_cons_self)
          rw [List.mem_cons]
          rintro (rfl | hmem)
          · exact hc (by decide)
          · exact hl' hmem
        · exact ih (hs ▸ List.mem_cons_of_mem _ h)

theorem cleanElem_isElem {r : Bool} {es : List Bytes} {e : Bytes} (hes : ∀ x ∈ es, IsElem x)
    (he : 47 ∉ e) : ∀ x ∈ cleanElem r es e, IsElem x := by
  unfold cleanElem
  split
  · exact hes
  · next hne =>
    have hcons : ∀ x ∈ e :: es, IsElem x := by
      rw [List.forall_mem_cons]
      exact ⟨⟨fun h => hne (Or.inl h), fun h => hne (Or.inr h), he⟩, hes⟩
    split
    · cases es with
      | nil =>
        cases r
        · exact hcons
        · exact fun x hx => absurd hx List.not_mem_nil
      | cons last rest =>
        by_cases hlast : last = lit ".."
        · simpa only [if_pos hlast] using hcons
        · simp only [if_neg hlast]
          exact fun x hx => hes x (List.mem_cons_of_mem _ hx)
    · exact hcons

theorem foldl_isElem {r : Bool} {parts es : List Bytes} (hparts : ∀ l ∈ parts, 47 ∉ l)
    (hes : ∀ x ∈ es, IsElem x) : ∀ x ∈ parts.foldl (cleanElem r) es, IsElem x := by
  induction parts generalizing es with
  | nil => exact hes
  | cons l parts ih =>
    rw [List.forall_mem_cons] at hparts
    exact ih hparts.2 (cleanElem_isElem hes hparts.1)

theorem elems_isElem (path : Bytes) : ∀ x ∈ elems path, IsElem x :=
  foldl_isElem (fun _ => slash_notMem_splitOn) fun _ h => absurd h List.not_mem_nil

/-- A list of elements is what its path is split into. -/
theorem splitOn_elems {es : List Bytes} (hes : ∀ x ∈ es, IsElem x) (hne : es ≠ []) :
    ((lit "/").intercalate es).splitOn 47 = es := by
  rw [lit_slash]
  exact List.splitOn_intercalate 47 (fun l hl => (hes l hl).2.2) hne

/-- A rendered path splits at the slashes into its elements, after nothing before the root. -/
theorem splitOn_render {r : Bool} {es : List Bytes} (hes : ∀ x ∈ es, IsElem x) (hne : es ≠ []) :
    (render r es).splitOn 47 = (if r then [[]] else []) ++ es := by
  cases r with
  | true =>
    have hroot := List.splitOn_append_cons_self (a := 47) [] ((lit "/").intercalate es)
    rw [splitOn_elems hes hne] at hroot
    rw [render, if_pos rfl, lit_slash]
    exact hroot
  | false =>
    rw [render, if_neg Bool.false_ne_true, if_neg hne]
    exact splitOn_elems hes hne

/-- A path is not rendered if what follows its last slash is no element. -/
theorem render_ne {r : Bool} {es : List Bytes} {path e : Bytes} (hes : ∀ x ∈ es, IsElem x)
    (hne : es ≠ []) (hlast : e ∈ (path.splitOn 47).getLast?) (he : ¬ IsElem e) :
    render r es ≠ path := by
  rintro rfl
  rw [splitOn_render hes hne, List.getLast?_append_of_ne_nil _ hne] at hlast
  exact he (hes e (List.mem_of_getLast? hlast))

theorem render_inj {r : Bool} {es fs : List Bytes} (hes : ∀ x ∈ es, IsElem x)
    (hfs : ∀ x ∈ fs, IsElem x) (hne : es ≠ []) (hnf : fs ≠ []) (h : render r es = render r fs) :
    es = fs := by
  have hsplit := congrArg (·.splitOn 47) h
  simp only [splitOn_render hes hne, splitOn_render hfs hnf] at hsplit
  exact List.append_cancel_left hsplit

theorem intercalate_concat {es : List Bytes} (hne : es ≠ []) (e : Bytes) :
    (lit "/").intercalate (es ++ [e]) = (lit "/").intercalate es ++ lit "/" ++ e := by
  induction es with
  | nil => exact absurd rfl hne
  | cons a es ih =>
    cases es with
    | nil => simp [List.intercalate, List.intersperse]
    | cons b es =>
      have := ih (by simp)
      simp only [List.cons_append] at this ⊢
      rw [List.intercalate_cons_cons, this, List.intercalate_cons_cons]
      simp

/-- The path of an entry has the elements of the directory and then its name. -/
theorem childPath_render {r : Bool} {es : List Bytes} (hes : ∀ x ∈ es, IsElem x) (name : Bytes) :
    childPath (render r es) name = render r (es ++ [name]) := by
  by_cases hne : es = []
  · subst hne
    cases r
    · simp [childPath, render, List.intercalate]
    · have hroot : render true [] = lit "/" := by decide
      rw [hroot, childPath, if_neg (by decide), if_pos rfl]
      simp [render, List.intercalate]
  · -- with an element the path is neither of the two that `childPath` asks for
    have hdot : render r es ≠ lit "." :=
      render_ne (e := lit ".") hes hne (by decide) fun h => h.2.1 rfl
    have hslash : render r es ≠ lit "/" :=
      render_ne (e := []) hes hne (by decide) fun h => h.1 rfl
    rw [childPath, if_neg hdot, if_neg hslash]
    cases r with
    | true =>
      show lit "/" ++ (lit "/").intercalate es ++ lit "/" ++ name = _
      rw [render, if_pos rfl, intercalate_concat hne]
      simp
    | false =>
      simp [render, hne, intercalate_concat hne]

/-! ### The path of a manifest -/

/-- The directories the name of a manifest leads through: what is before the last slash of the
version and the file id. -/
def ManifestKey.dirs (k : ManifestKey) : List Bytes :=
  ((k.version ++ lit "_" ++ k.fileID).splitOn 47).dropLast

/-- The walk from the directory of the cache comes back to it. -/
def ManifestKey.Returns (dir : Bytes) (k : ManifestKey) : Prop :=
  k.dirs.foldl (cleanElem (rooted dir)) (elems dir) = elems dir

instance (dir : Bytes) (k : ManifestKey) : Decidable (k.Returns dir) :=
  inferInstanceAs (Decidable (_ = _))

/-- Without slashes there is no walk. -/
theorem ManifestKey.returns_of_notMem {dir : Bytes} {k : ManifestKey} (hv : 47 ∉ k.version)
    (hf : 47 ∉ k.fileID) : k.Returns dir := by
  have hhead : 47 ∉ k.version ++ lit "_" ++ k.fileID := by
    simp only [List.mem_append, not_or]
    exact ⟨⟨hv, by decide⟩, hf⟩
  rw [Returns, dirs, List.splitOn_eq_singleton hhead]
  rfl

theorem splitOn_append_of_notMem {t : Bytes} (ht : 47 ∉ t) (s : Bytes) :
    ∃ last, s.splitOn 47 = (s.splitOn 47).dropLast ++ [last] ∧
      (s ++ t).splitOn 47 = (s.splitOn 47).dropLast ++ [last ++ t] := by
  by_cases hs : 47 ∈ s
  · obtain ⟨u, v, huv, hu⟩ := List.eq_append_cons_of_mem (List.mem_reverse.mpr hs)
    have hsplit : s = v.reverse ++ 47 :: u.reverse := by
      rw [← List.reverse_reverse s, huv]
      simp
    rw [← List.mem_reverse] at hu
    have htail : 47 ∉ u.reverse ++ t := fun h => (List.mem_append.mp h).elim hu ht
    have hs' : s.splitOn 47 = v.reverse.splitOn 47 ++ [u.reverse] := by
      rw [hsplit, List.splitOn_append_cons_self, List.splitOn_eq_singleton hu]
    refine ⟨u.reverse, by rw [hs', List.dropLast_concat], ?_⟩
    rw [hs', List.dropLast_concat, hsplit, List.append_assoc, List.cons_append,
      List.splitOn_append_cons_self, List.splitOn_eq_singleton htail]
  · have ht' : 47 ∉ s ++ t := fun h => (List.mem_append.mp h).elim hs ht
    refine ⟨s, ?_, ?_⟩
    · rw [List.splitOn_eq_singleton hs]
      rfl
    · rw [List.splitOn_eq_singleton hs, List.splitOn_eq_singleton ht']
      rfl

theorem replaceUnsafe_safe (s : Bytes) : ∀ skip, ∀ c ∈ replaceUnsafe skip s, isFileSafe c := by
  induction s with
  | nil =>
    intro skip c hc
    cases skip <;> exact absurd hc List.not_mem_nil
  | cons b s ih =>
    intro skip
    cases skip with
    | succ skip =>
      rw [replaceUnsafe]
      exact ih skip
    | zero =>
      rw [replaceUnsafe]
      split
      · next hb => exact List.forall_mem_cons.mpr ⟨hb, ih 0⟩
      · exact List.forall_mem_cons.mpr ⟨by decide, ih _⟩

/-- What `path` puts after the version and the file id. -/
def ManifestKey.suffix (k : ManifestKey) : Bytes :=
  let rk := replaceUnsafe 0 k.rangeKey
  lit "_" ++ (if rk = [] then lit "full" else rk) ++ lit ".json"

theorem ManifestKey.slash_notMem_suffix (k : ManifestKey) : 47 ∉ k.suffix := by
  have hsafe : ∀ c ∈ replaceUnsafe 0 k.rangeKey, isFileSafe c := replaceUnsafe_safe _ 0
  have hrk : 47 ∉ replaceUnsafe 0 k.rangeKey := fun h => absurd (hsafe 47 h) (by decide)
  simp only [suffix, List.mem_append, not_or]
  refine ⟨⟨by decide, ?_⟩, by decide⟩
  split
  · decide
  · exact hrk

/-- The last element of the path is a file name. -/
theorem ManifestKey.fileName_suffix (k : ManifestKey) {last : Bytes} (h : 47 ∉ last) :
    FileName (last ++ k.suffix) := by
  have hlen : 6 ≤ (last ++ k.suffix).length := by
    simp only [suffix, List.length_append]
    have h1 : (lit "_").length = 1 := by decide
    have h5 : (lit ".json").length = 5 := by decide
    omega
  refine ⟨?_, ?_, ?_, fun hmem => (List.mem_append.mp hmem).elim h k.slash_notMem_suffix⟩
  all_goals
    intro heq
    rw [heq] at hlen
    revert hlen
    decide

theorem FileName.isElem {name : Bytes} (h : FileName name) : IsElem name :=
  ⟨h.ne_nil, h.ne_dot, h.slash⟩

/-- A file name is one more element. -/
theorem cleanElem_fileName {name : Bytes} (h : FileName name) (r : Bool) (es : List Bytes) :
    cleanElem r es name = name :: es := by
  unfold cleanElem
  rw [if_neg (not_or.mpr ⟨h.ne_nil, h.ne_dot⟩), if_neg h.ne_dotDot]

theorem rooted_join {dir : Bytes} (hdir : dir ≠ []) (name : Bytes) :
    rooted (dir ++ lit "/" ++ name) = rooted dir := by
  cases dir with
  | nil => exact absurd rfl hdir
  | cons c dir => simp [rooted, lit]

/-- The path of a manifest is a walk from the directory and a file name, which ends in what is
after the last slash of the version and the file id. -/
theorem pathIn_eq {dir : Bytes} (hdir : dir ≠ []) (k : ManifestKey) :
    ∃ last, (k.version ++ lit "_" ++ k.fileID).splitOn 47 = k.dirs ++ [last] ∧
      FileName (last ++ k.suffix) ∧ ManifestCache.pathIn dir k = render (rooted dir)
        ((k.dirs.foldl (cleanElem (rooted dir)) (elems dir)).reverse ++ [last ++ k.suffix]) := by
  obtain ⟨last, hhead, hlast⟩ :=
    splitOn_append_of_notMem k.slash_notMem_suffix (k.version ++ lit "_" ++ k.fileID)
  have hname : FileName (last ++ k.suffix) := by
    refine k.fileName_suffix (slash_notMem_splitOn (s := k.version ++ lit "_" ++ k.fileID) ?_)
    rw [hhead]
    exact List.mem_append_right _ List.mem_cons_self
  have hjoin : ManifestCache.pathIn dir k =
      clean (dir ++ lit "/" ++ (k.version ++ lit "_" ++ k.fileID ++ k.suffix)) := by
    rw [ManifestCache.pathIn, joinPath, if_pos hdir]
    simp only [ManifestKey.suffix, List.append_assoc]
  refine ⟨last, hhead, hname, ?_⟩
  rw [hjoin, clean_eq, rooted_join hdir, elems, rooted_join hdir, List.append_assoc, lit_slash,
    List.singleton_append, List.splitOn_append_cons_self, hlast, List.foldl_append,
    List.foldl_append, List.foldl_cons, List.foldl_nil, cleanElem_fileName hname,
    List.reverse_cons]
  rfl

theorem pathIn_directChild {dir : Bytes} (hdir : dir ≠ []) (k : ManifestKey) :
    DirectChild dir (ManifestCache.pathIn dir k) ↔ k.Returns dir := by
  obtain ⟨last, -, hname, hpath⟩ := pathIn_eq hdir k
  have hwalk : ∀ x ∈ k.dirs.foldl (cleanElem (rooted dir)) (elems dir), IsElem x :=
    foldl_isElem (fun l hl => slash_notMem_splitOn (List.dropLast_subset _ hl))
      (elems_isElem dir)
  have hconcat : ∀ {es : List Bytes} {e : Bytes}, (∀ x ∈ es, IsElem x) → FileName e →
      ∀ x ∈ es.reverse ++ [e], IsElem x := by
    intro es e hes he x hx
    rcases List.mem_append.mp hx with hx | hx
    · exact hes x (List.mem_reverse.mp hx)
    · exact List.mem_singleton.mp hx ▸ he.isElem
  have hchild : ∀ name', childPath (clean dir) name' =
      render (rooted dir) ((elems dir).reverse ++ [name']) := by
    intro name'
    rw [clean_eq]
    exact childPath_render (fun x hx => elems_isElem dir x (List.mem_reverse.mp hx)) name'
  constructor
  · rintro ⟨name', hname', heq⟩
    rw [hpath, hchild] at heq
    have hlist := render_inj (hconcat hwalk hname) (hconcat (elems_isElem dir) hname')
      (by simp) (by simp) heq
    exact List.reverse_injective (List.append_inj_left' hlist rfl)
  · intro h
    refine ⟨last ++ k.suffix, hname, ?_⟩
    rw [hpath, hchild, h]

/-! ### Plain requests -/

/-- A version and a file id without slashes and underscores, and a `Range` that is absent or
closed. -/
structure ManifestKey.Plain (k : ManifestKey) : Prop where
  version : 47 ∉ k.version ∧ 95 ∉ k.version
  fileID : 47 ∉ k.fileID ∧ 95 ∉ k.fileID
  range : k.rangeKey = [] ∨ ∃ lo hi, ClosedRange k.rangeKey lo hi

theorem replaceUnsafe_of_safe {s : Bytes} (h : ∀ c ∈ s, isFileSafe c) : replaceUnsafe 0 s = s := by
  induction s with
  | nil => rfl
  | cons c s ih =>
    rw [List.forall_mem_cons] at h
    rw [replaceUnsafe, if_pos h.1, ih h.2]

theorem runeWidth_ascii {b : UInt8} (h : b < 0x80) (s : Bytes) : runeWidth (b :: s) = 1 := by
  have h2 : (0xC2 : UInt8) ≤ b ↔ False := iff_of_false (by grind) id
  have h3 : (0xE0 : UInt8) ≤ b ↔ False := iff_of_false (by grind) id
  have h4 : (0xF0 : UInt8) ≤ b ↔ False := iff_of_false (by grind) id
  rcases s with _ | ⟨b₁, _ | ⟨b₂, _ | ⟨b₃, s⟩⟩⟩ <;> simp [runeWidth, h2, h3, h4]

theorem isDigit_safe {c : UInt8} (h : isDigit c) : isFileSafe c := by
  rw [isFileSafe, h]
  rfl

/-- Of a closed range only the `=` is replaced. -/
theorem replaceUnsafe_closed {a b : Bytes} (ha : a.all isDigit) (hb : b.all isDigit) :
    replaceUnsafe 0 (lit "bytes=" ++ (a ++ 45 :: b)) = lit "bytes_" ++ (a ++ 45 :: b) := by
  have hsafe : ∀ c ∈ a ++ 45 :: b, isFileSafe c := by
    intro c hc
    rcases List.mem_append.mp hc with hc | hc
    · exact isDigit_safe (List.all_eq_true.mp ha c hc)
    · rcases List.mem_cons.mp hc with rfl | hc
      · decide
      · exact isDigit_safe (List.all_eq_true.mp hb c hc)
  have heq : ∀ s : Bytes, replaceUnsafe 0 (lit "=" ++ s) = lit "_" ++ replaceUnsafe 0 s := by
    intro s
    show replaceUnsafe 0 (61 :: s) = _
    rw [replaceUnsafe, if_neg (by decide), runeWidth_ascii (by decide)]
  have hword : ∀ s : Bytes,
      replaceUnsafe 0 (lit "bytes" ++ s) = lit "bytes" ++ replaceUnsafe 0 s := by
    intro s
    show replaceUnsafe 0 (98 :: 121 :: 116 :: 101 :: 115 :: s) = _
    simp only [replaceUnsafe, if_pos (show isFileSafe 98 from by decide),
      if_pos (show isFileSafe 121 from by decide), if_pos (show isFileSafe 116 from by decide),
      if_pos (show isFileSafe 101 from by decide), if_pos (show isFileSafe 115 from by decide)]
    rfl
  have hsplit : lit "bytes=" = lit "bytes" ++ lit "=" := by decide
  rw [hsplit, List.append_assoc, hword, heq, replaceUnsafe_of_safe hsafe, ← List.append_assoc]
  rfl

/-- Plain requests with the same suffix have the same `Range`. -/
theorem ManifestKey.Plain.range_inj {k k' : ManifestKey} (hk : k.Plain) (hk' : k'.Plain)
    (h : k.suffix = k'.suffix) : k.rangeKey = k'.rangeKey := by
  have hfull : lit "full" ≠ [] := by decide
  have hmark : ∀ {t : Bytes}, lit "full" ≠ lit "bytes_" ++ t := by
    intro t heq
    have hhead := congrArg List.head? heq
    revert hhead
    simp [lit]
  have hsuffix : ∀ {q : ManifestKey}, q.Plain → (q.rangeKey = [] ∧
      q.suffix = lit "_" ++ lit "full" ++ lit ".json") ∨ ∃ t, q.rangeKey = lit "bytes=" ++ t ∧
        q.suffix = lit "_" ++ (lit "bytes_" ++ t) ++ lit ".json" := by
    intro q hq
    rcases hq.range with hnil | ⟨lo, hi, a, b, hr, ha, hb⟩
    · refine Or.inl ⟨hnil, ?_⟩
      simp only [suffix, hnil, replaceUnsafe, if_pos]
    · refine Or.inr ⟨_, hr, ?_⟩
      simp only [suffix, hr, replaceUnsafe_closed ha.2.1 hb.2.1]
      rw [if_neg]
      intro hnil
      exact absurd (List.append_eq_nil_iff.mp hnil).1 (by decide)
  rcases hsuffix hk with ⟨hr, hs⟩ | ⟨t, hr, hs⟩ <;>
    rcases hsuffix hk' with ⟨hr', hs'⟩ | ⟨t', hr', hs'⟩
  · rw [hr, hr']
  · rw [hs, hs', List.append_left_inj, List.append_right_inj] at h
    exact absurd h hmark
  · rw [hs, hs', List.append_left_inj, List.append_right_inj] at h
    exact absurd h.symm hmark
  · rw [hs, hs', List.append_left_inj, List.append_right_inj, List.append_right_inj] at h
    rw [hr, hr', h]

/-- `path` tells plain requests apart. -/
theorem pathIn_injOn_plain {dir : Bytes} (hdir : dir ≠ []) :
    Set.InjOn (ManifestCache.pathIn dir) {k | k.Plain} := by
  have hhead : ∀ {q : ManifestKey}, q.Plain → 47 ∉ q.version ++ lit "_" ++ q.fileID := by
    intro q hq
    simp only [List.mem_append, not_or]
    exact ⟨⟨hq.version.1, by decide⟩, hq.fileID.1⟩
  have hpath : ∀ {q : ManifestKey}, q.Plain →
      FileName (q.version ++ lit "_" ++ q.fileID ++ q.suffix) ∧
      ManifestCache.pathIn dir q = render (rooted dir)
        ((elems dir).reverse ++ [q.version ++ lit "_" ++ q.fileID ++ q.suffix]) := by
    intro q hq
    obtain ⟨last, hsplit, hname, heq⟩ := pathIn_eq hdir q
    have hdirs : q.dirs = [] := by
      rw [ManifestKey.dirs, List.splitOn_eq_singleton (hhead hq)]
      rfl
    rw [List.splitOn_eq_singleton (hhead hq), hdirs, List.nil_append] at hsplit
    obtain rfl := (List.cons.inj hsplit).1
    rw [hdirs, List.foldl_nil] at heq
    exact ⟨hname, heq⟩
  intro k hk k' hk' heq
  obtain ⟨hn, hp⟩ := hpath hk
  obtain ⟨hn', hp'⟩ := hpath hk'
  have hconcat : ∀ {e : Bytes}, FileName e → ∀ x ∈ (elems dir).reverse ++ [e], IsElem x := by
    intro e he x hx
    rcases List.mem_append.mp hx with hx | hx
    · exact elems_isElem dir x (List.mem_reverse.mp hx)
    · exact List.mem_singleton.mp hx ▸ he.isElem
  rw [hp, hp'] at heq
  have hlist := List.append_cancel_left
    (render_inj (hconcat hn) (hconcat hn') (by simp) (by simp) heq)
  -- the first two underscores end the version and the file id
  have hname : k.version ++ 95 :: (k.fileID ++ 95 :: k.suffix.tail) =
      k'.version ++ 95 :: (k'.fileID ++ 95 :: k'.suffix.tail) := by
    have h := (List.cons.inj hlist).1
    simp only [List.append_assoc] at h
    exact h
  have hcut : ∀ {a a' b b' : Bytes}, 95 ∉ a → 95 ∉ a' → a ++ 95 :: b = a' ++ 95 :: b' →
      a = a' ∧ b = b' := by
    intro a a' b b' ha ha' h
    have h' := congrArg (fun s => cut s 95) h
    simp only [cut_append fun c hc => ne_of_mem_of_not_mem hc ha,
      cut_append fun c hc => ne_of_mem_of_not_mem hc ha', Option.some_inj, Prod.mk.injEq] at h'
    exact h'
  obtain ⟨hversion, hrest⟩ := hcut hk.version.2 hk'.version.2 hname
  obtain ⟨hfile, htail⟩ := hcut hk.fileID.2 hk'.fileID.2 hrest
  have hsuffix : k.suffix = k'.suffix := congrArg (List.cons 95) htail
  obtain ⟨v, f, r⟩ := k
  obtain ⟨v', f', r'⟩ := k'
  rw [ManifestKey.mk.injEq]
  exact ⟨hversion, hfile, hk.range_inj hk' hsuffix⟩

end XetDcCache
