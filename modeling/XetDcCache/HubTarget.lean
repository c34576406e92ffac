/-
The request the hub proxy sends (proxy.go).

`proxyHub` puts the decoded path of the client's URL behind the upstream's and has
`http.NewRequest` read the whole as a URL, so the path is read twice.

* `sent_path` — what the second reading makes of the path;
* `target_forwarded_iff` — which targets reach the upstream as they are.
-/
import XetDcCache.Hub
import XetDcCache.NetUrl

namespace XetDcCache

open NetUrl PathEscape

/-! ### Requests -/

structure HubRequest where
  method : Bytes
  url : NetUrl.Url
  host : Bytes
  headers : List (Bytes × Bytes)
  body : Bytes
deriving DecidableEq

/-- `none` is the error of `http.NewRequest`. -/
def proxyHub (authorityOk : Bytes → Bool) (hfUpstream : Bytes) (r : HubRequest)
    (fullPath : Bytes) : Option HubRequest :=
  (parseURL authorityOk (hfUpstream ++ lit "/" ++ fullPath)).map fun u =>
    { method := r.method
      url := { u with rawQuery := r.url.rawQuery }
      host := trimPrefix (trimPrefix hfUpstream (lit "https://")) (lit "http://")
      headers :=
        Multimap.set toLower (cleanHeaders r.headers) (lit "Accept-Encoding") (lit "identity")
      body := r.body }

/-- An upstream: an origin and a path in front of all others, in which nothing is escaped. -/
structure HubUpstream (authorityOk : Bytes → Bool) extends NetUrl.Origin authorityOk where
  basePath : Bytes
  base_slash : basePath = [] ∨ ∃ b, basePath = 47 :: b
  base_plain : ∀ c ∈ basePath, shouldEscape c = false

def HubUpstream.hfUpstream {authorityOk : Bytes → Bool} (up : HubUpstream authorityOk) : Bytes :=
  up.toOrigin.text ++ up.basePath

/-- The request `hub` sends for a request. -/
def sent {authorityOk : Bytes → Bool} (up : HubUpstream authorityOk) (r : HubRequest) :
    Option HubRequest :=
  proxyHub authorityOk up.hfUpstream r (trimPrefix r.url.path (lit "/"))

/-- A request is sent, with the client's path and query. -/
def ForwardsTarget {authorityOk : Bytes → Bool} (up : HubUpstream authorityOk) (r : HubRequest) :
    Prop :=
  ∃ req, sent up r = some req ∧ req.url.escapedPath = up.basePath ++ r.url.escapedPath ∧
    req.url.query = r.url.query

/-- The target does not end in a bare `?`; its path has no `%`, or is what net/url writes for a
path with a byte that must be escaped, but no `%`, `?`, `#` or control character. -/
def Forwardable (u : NetUrl.Url) : Prop :=
  u.query ≠ some [] ∧
    (37 ∉ u.escapedPath ∨
      u.escapedPath = PathEscape.escape u.path ∧ validEncoded u.path = false ∧
        ∀ c ∈ u.path, c ≠ 37 ∧ c ≠ 63 ∧ c ≠ 35 ∧ isCTL c = false)

/-! ### Client targets -/

/-- The text of a client's path is kept, and reads as that path. -/
theorem target_path {authorityOk : Bytes → Bool} {target : Bytes} {u : NetUrl.Url}
    (h : parse authorityOk true target = some u) (hslash : u.path.head? = some 47) :
    validEncoded u.escapedPath = true ∧ unescape u.escapedPath = some u.path := by
  have hstar : u.path ≠ [42] := by
    intro hstar
    rw [hstar] at hslash
    cases Option.some.inj hslash
  rcases parse_path h with hpath | hpath | ⟨v, p, hset⟩
  · exact absurd hpath hstar
  · rw [hpath] at hslash
    cases hslash
  · rw [escapedPath_setPath hset hstar]
    exact ⟨validEncoded_pathText _ _, unescape_pathText (setPath_path hset)⟩

/-! ### The second reading -/

section Sent

variable {authorityOk : Bytes → Bool} (up : HubUpstream authorityOk)

/-- The text `proxyHub` has read as a URL. -/
theorem hfUpstream_append {d : Bytes} :
    ∃ path, up.hfUpstream ++ 47 :: d = up.toOrigin.text ++ 47 :: path ∧
      47 :: path = up.basePath ++ 47 :: d := by
  rcases up.base_slash with hbase | ⟨b, hbase⟩
  · exact ⟨d, by rw [HubUpstream.hfUpstream, hbase, List.append_nil], by rw [hbase]; rfl⟩
  · exact ⟨b ++ 47 :: d, by rw [HubUpstream.hfUpstream, hbase, List.append_assoc]; rfl,
      by rw [hbase]; rfl⟩

theorem sent_eq {r : HubRequest} {d : Bytes} (hd : r.url.path = 47 :: d) :
    sent up r =
      (parseURL authorityOk (up.hfUpstream ++ 47 :: d)).map fun u =>
        { method := r.method
          url := { u with rawQuery := r.url.rawQuery }
          host := trimPrefix (trimPrefix up.hfUpstream (lit "https://")) (lit "http://")
          headers :=
            Multimap.set toLower (cleanHeaders r.headers) (lit "Accept-Encoding") (lit "identity")
          body := r.body } := by
  have htrim : trimPrefix (47 :: d) (lit "/") = d := trimPrefix_append [47] d
  rw [sent, proxyHub, hd, htrim, List.append_assoc]
  rfl

/-- Nothing is cut from the upstream's own path. -/
theorem cut_basePath (d : Bytes) :
    (cutAt 63 (cutAt 35 (up.basePath ++ d)).1).1 =
      up.basePath ++ (cutAt 63 (cutAt 35 d).1).1 := by
  have hfragment : (35 : UInt8) ∉ up.basePath := fun h =>
    (plain_byte (up.base_plain 35 h)).2.2.2.1 rfl
  have hquery : (63 : UInt8) ∉ up.basePath := fun h =>
    (plain_byte (up.base_plain 63 h)).2.2.1 rfl
  rw [cutAt_append hfragment, cutAt_append hquery]

/-- A request that is sent has the decoded path read once more, as far as no byte ends it. -/
theorem sent_path {r req : HubRequest} {d : Bytes} (hd : r.url.path = 47 :: d)
    (h : sent up r = some req) :
    ∃ e, unescape (cutAt 63 (cutAt 35 (47 :: d)).1).1 = some e ∧
      req.url.escapedPath =
        up.basePath ++ pathText (cutAt 63 (cutAt 35 (47 :: d)).1).1 e ∧
      (cutAt 35 (47 :: d)).1.any isCTL = false := by
  obtain ⟨path, htext, hbase⟩ := hfUpstream_append up (d := d)
  rw [sent_eq up hd] at h
  obtain ⟨u, hu, rfl⟩ := Option.map_eq_some_iff.mp h
  rw [htext] at hu
  obtain ⟨hctl, hpath, hescaped⟩ := up.toOrigin.parseURL_text_path hu
  rw [hbase] at hctl hpath hescaped
  have hpercent : 37 ∉ up.basePath := fun h => (plain_byte (up.base_plain 37 h)).2.1 rfl
  have hfragment : (35 : UInt8) ∉ up.basePath := fun h =>
    (plain_byte (up.base_plain 35 h)).2.2.2.1 rfl
  rw [cut_basePath] at hpath hescaped
  rw [unescape_append hpercent, Option.map_eq_some_iff] at hpath
  obtain ⟨e, he, hue⟩ := hpath
  rw [← hue, pathText_append up.base_plain] at hescaped
  rw [cutAt_append hfragment, List.any_append, Bool.or_eq_false_iff] at hctl
  exact ⟨e, he, hescaped, hctl.2⟩

end Sent

/-! ### Forwarded targets -/

section Forwarded

variable {authorityOk : Bytes → Bool} (up : HubUpstream authorityOk) {r : HubRequest} {d : Bytes}

/-- A path without bytes that end it is sent, and starts no query. -/
theorem sent_of_plain (hd : r.url.path = 47 :: d)
    (hplain : ∀ c ∈ 47 :: d, c ≠ 63 ∧ c ≠ 35 ∧ isCTL c = false) {e : Bytes}
    (he : unescape (47 :: d) = some e) :
    ∃ req, sent up r = some req ∧ req.url.forceQuery = false ∧
      req.url.rawQuery = r.url.rawQuery := by
  obtain ⟨path, htext, hbase⟩ := hfUpstream_append up (d := d)
  have hplain' : ∀ c ∈ 47 :: path, c ≠ 63 ∧ c ≠ 35 ∧ isCTL c = false := by
    rw [hbase]
    intro c hc
    rcases List.mem_append.mp hc with hc | hc
    · exact (plain_byte (up.base_plain c hc)).2.2
    · exact hplain c hc
  have hpercent : 37 ∉ up.basePath := fun h => (plain_byte (up.base_plain 37 h)).2.1 rfl
  have hread : unescape (47 :: path) = some (up.basePath ++ e) := by
    rw [hbase, unescape_append hpercent, he, Option.map_some]
  obtain ⟨u, hu, hforce⟩ := up.toOrigin.parseURL_text_of_plain hplain' hread
  rw [sent_eq up hd, htext, hu]
  exact ⟨_, rfl, hforce, rfl⟩

/-- A path with a byte that ends it is sent as another. -/
theorem cut_eq_of_same {s e : Bytes} (hs : unescape s = some (47 :: d))
    (he : unescape (cutAt 63 (cutAt 35 (47 :: d)).1).1 = some e)
    (hsame : pathText (cutAt 63 (cutAt 35 (47 :: d)).1).1 e = s) :
    35 ∉ 47 :: d ∧ 63 ∉ 47 :: d := by
  have hlength : ¬ (cutAt 63 (cutAt 35 (47 :: d)).1).1.length < (47 :: d).length := fun hlt =>
    pathText_ne_of_shorter hs he hlt hsame
  have hle := cutAt_length_le 63 (cutAt 35 (47 :: d)).1
  have hfragment : 35 ∉ 47 :: d := fun hmem =>
    hlength (hle.trans_lt (cutAt_length_lt hmem))
  refine ⟨hfragment, fun hmem => hlength ?_⟩
  rw [cutAt_of_not_mem hfragment]
  exact cutAt_length_lt hmem

/-- A request that is sent with the client's path has a path that is read back as it was, and no
byte in it that ends it. -/
theorem path_forwarded_iff (hd : r.url.path = 47 :: d) {s : Bytes}
    (hs : unescape s = some (47 :: d)) :
    (∃ req, sent up r = some req ∧ req.url.escapedPath = up.basePath ++ s) ↔
      (∃ e, unescape (47 :: d) = some e ∧ pathText (47 :: d) e = s) ∧
        ∀ c ∈ 47 :: d, c ≠ 63 ∧ c ≠ 35 ∧ isCTL c = false := by
  constructor
  · rintro ⟨req, hsent, hescaped⟩
    obtain ⟨e, he, hnormal, hctl⟩ := sent_path up hd hsent
    have hsame := List.append_cancel_left (hnormal.symm.trans hescaped)
    obtain ⟨hfragment, hquery⟩ := cut_eq_of_same hs he hsame
    rw [cutAt_of_not_mem hfragment] at he hsame hctl
    rw [cutAt_of_not_mem hquery] at he hsame
    refine ⟨⟨e, he, hsame⟩, fun c hc => ⟨?_, ?_, ?_⟩⟩
    · exact fun heq => hquery (heq ▸ hc)
    · exact fun heq => hfragment (heq ▸ hc)
    · exact Bool.eq_false_iff.mpr (List.any_eq_false.mp hctl c hc)
  · rintro ⟨⟨e, he, hnormal⟩, hplain⟩
    obtain ⟨req, hsent, -, -⟩ := sent_of_plain up hd hplain he
    obtain ⟨e', he', hescaped, -⟩ := sent_path up hd hsent
    have hfragment : (35 : UInt8) ∉ 47 :: d := fun h => (hplain 35 h).2.1 rfl
    have hquery : (63 : UInt8) ∉ 47 :: d := fun h => (hplain 63 h).1 rfl
    rw [cutAt_of_not_mem hfragment, cutAt_of_not_mem hquery] at he' hescaped
    obtain rfl := Option.some.inj (he.symm.trans he')
    exact ⟨req, hsent, hnormal ▸ hescaped⟩

end Forwarded

/-- Without a forced query the query is there if it is not empty. -/
theorem query_eq_iff {u v : NetUrl.Url} (hforce : v.forceQuery = false)
    (hraw : v.rawQuery = u.rawQuery) : v.query = u.query ↔ u.query ≠ some [] := by
  rw [NetUrl.Url.query, NetUrl.Url.query, hforce, hraw]
  by_cases hquery : u.rawQuery = []
  · rw [hquery]
    cases u.forceQuery <;> simp
  · simp [hquery]

/-- In a text that is kept no byte ends the path. -/
theorem plain_of_validEncoded {s : Bytes} (h : validEncoded s = true) :
    ∀ c ∈ s, c ≠ 63 ∧ c ≠ 35 ∧ isCTL c = false := by
  intro c hc
  have hbyte : validByte c = true := List.all_eq_true.mp h c hc
  have hnot : ¬ (c = 63 ∨ c = 35 ∨ isCTL c = true) := fun hend => by
    rw [not_validByte hend] at hbyte
    cases hbyte
  simpa [not_or] using hnot

/-- The paths that are read back, and have no byte that ends them. -/
theorem forwardable_path_iff {s d : Bytes} (hvalid : validEncoded s = true)
    (hs : unescape s = some d) :
    ((∃ e, unescape d = some e ∧ pathText d e = s) ∧
        ∀ c ∈ d, c ≠ 63 ∧ c ≠ 35 ∧ isCTL c = false) ↔
      37 ∉ s ∨ s = PathEscape.escape d ∧ validEncoded d = false ∧
        ∀ c ∈ d, c ≠ 37 ∧ c ≠ 63 ∧ c ≠ 35 ∧ isCTL c = false := by
  rw [pathText_again_iff hvalid hs]
  constructor
  · rintro ⟨hpercent | ⟨hescape, hpercent, hd⟩, hplain⟩
    · exact .inl hpercent
    · exact .inr ⟨hescape, hd, fun c hc => ⟨fun h => hpercent (h ▸ hc), hplain c hc⟩⟩
  · rintro (hpercent | ⟨hescape, hd, hplain⟩)
    · -- a text without `%` is the path itself
      obtain rfl := Option.some.inj ((unescape_of_no_percent hpercent).symm.trans hs)
      exact ⟨.inl hpercent, plain_of_validEncoded hvalid⟩
    · exact ⟨.inr ⟨hescape, fun h => (hplain 37 h).1 rfl, hd⟩, fun c hc => (hplain c hc).2⟩

/-- The target of a client reaches the upstream as it is exactly if it is `Forwardable`; the paths
that `hub` serves start with a slash. -/
theorem target_forwarded_iff {authorityOk : Bytes → Bool} (up : HubUpstream authorityOk)
    (r : HubRequest) (target : Bytes) (hurl : parse authorityOk true target = some r.url)
    (hslash : r.url.path.head? = some 47) : ForwardsTarget up r ↔ Forwardable r.url := by
  obtain ⟨hvalid, hread⟩ := target_path hurl hslash
  obtain ⟨d, hd⟩ := List.head?_eq_some_iff.mp hslash
  rw [hd] at hread
  have hpath := (path_forwarded_iff up hd hread).trans (forwardable_path_iff hvalid hread)
  rw [Forwardable, hd, ← hpath]
  constructor
  · rintro ⟨req, hsent, hescaped, hquery⟩
    obtain ⟨⟨e, he, -⟩, hplain⟩ := (path_forwarded_iff up hd hread).mp ⟨req, hsent, hescaped⟩
    obtain ⟨req', hsent', hforce, hraw⟩ := sent_of_plain up hd hplain he
    obtain rfl := Option.some.inj (hsent.symm.trans hsent')
    exact ⟨(query_eq_iff hforce hraw).mp hquery, req, hsent, hescaped⟩
  · rintro ⟨hquery, req, hsent, hescaped⟩
    obtain ⟨⟨e, he, -⟩, hplain⟩ := (path_forwarded_iff up hd hread).mp ⟨req, hsent, hescaped⟩
    obtain ⟨req', hsent', hforce, hraw⟩ := sent_of_plain up hd hplain he
    obtain rfl := Option.some.inj (hsent.symm.trans hsent')
    exact ⟨req, hsent, hescaped, (query_eq_iff hforce hraw).mpr hquery⟩

/-! ### Fixed targets -/

def huggingFace : HubUpstream fun _ => true where
  scheme := lit "https"
  authority := lit "huggingface.co"
  scheme_ne := by decide
  scheme_letter := by decide +kernel
  authority_plain := by decide +kernel
  authority_ok := rfl
  basePath := []
  base_slash := .inl rfl
  base_plain := fun _ hc => absurd hc List.not_mem_nil

/-- A client's `GET` of a file with a space in its name. -/
def spacedRequest : HubRequest :=
  ⟨lit "GET", ⟨[], [], [], lit "/models/foo/resolve/main/my file.json", [], false,
    lit "download=true", []⟩, lit "shim:8000", [], []⟩

theorem target_forwarded_iff_spaced : ForwardsTarget huggingFace spacedRequest :=
  (target_forwarded_iff huggingFace spacedRequest
    (lit "/models/foo/resolve/main/my%20file.json?download=true")
    (by decide +kernel) (by decide +kernel)).mpr
    ⟨by decide +kernel, .inr (by decide +kernel)⟩

/-- The slashes of a revision are escaped, and reach the upstream as slashes. -/
theorem revision_merged :
    ¬ ∀ (up : HubUpstream fun _ => true) (r : HubRequest) (target : Bytes),
      parse (fun _ => true) true target = some r.url → r.url.path.head? = some 47 →
      ForwardsTarget up r := by
  intro h
  let u : NetUrl.Url :=
    ⟨[], [], [], lit "/models/foo/resolve/refs/pr/1/config.json",
      lit "/models/foo/resolve/refs%2Fpr%2F1/config.json", false, [], []⟩
  let r : HubRequest := ⟨lit "GET", u, lit "shim:8000", [], []⟩
  obtain ⟨req, hsent, hescaped, -⟩ := h huggingFace r
    (lit "/models/foo/resolve/refs%2Fpr%2F1/config.json") (by decide +kernel) (by decide +kernel)
  have hpath : (sent huggingFace r).map (fun req => req.url.escapedPath) =
      some (lit "/models/foo/resolve/refs/pr/1/config.json") := by
    decide +kernel
  rw [hsent, Option.map_some, hescaped] at hpath
  have hne : huggingFace.basePath ++ r.url.escapedPath ≠
      lit "/models/foo/resolve/refs/pr/1/config.json" := by
    decide +kernel
  exact hne (Option.some.inj hpath)

end XetDcCache
