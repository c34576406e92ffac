/-
The requests between siblings on the wire (peer_fetch.go).

`peerGet` and `headProbe` append the hash to the sibling's base url as it is and have net/http read
the whole as a URL; what the sibling's server reads is `peerMessage`.

* `peer_message_arrives_iff` — which messages get to the sibling's `getXorb` as they were meant.
-/
import XetDcCache.Targets

namespace XetDcCache

open ServeMux NetUrl PathEscape

/-! ### Messages -/

def isBlank (c : UInt8) : Bool := c = 32 || c = 9

def trimRight (v : Bytes) : Bytes := (v.reverse.dropWhile isBlank).reverse

/-- A header value as the other end reads it; `none` if the transport does not send it. -/
def wireValue (v : Bytes) : Option Bytes :=
  if v.any fun c => isCTL c && c ≠ 9 then none else some (trimRight (v.dropWhile isBlank))

/-- `setPeerHeaders`. -/
def setPeerHeaders (authToken byteRange : Bytes) : List (Bytes × Bytes) :=
  let h := Multimap.set toLower [] (lit "Range") byteRange
  let h := Multimap.set toLower h (lit "X-Xet-Peer") (lit "1")
  let h := Multimap.set toLower h (lit "Accept-Encoding") (lit "identity")
  if authToken ≠ [] then Multimap.set toLower h (lit "Authorization") (lit "Bearer " ++ authToken)
  else h

/-- The transport of `peerHTTP` takes a URL of the web with a host. -/
def sendable (u : NetUrl.Url) : Bool :=
  (u.scheme = lit "http" || u.scheme = lit "https") && u.host ≠ []

/-- The headers as the other end reads them. -/
def wireHeaders : List (Bytes × Bytes) → Option (List (Bytes × Bytes))
  | [] => some []
  | (k, v) :: h => (wireValue v).bind fun v => (wireHeaders h).map fun h => (k, v) :: h

/-- The request of `peerGet` or `headProbe` as the sibling's server reads it; `none` if it cannot be
built, sent or read. -/
def peerMessage (authorityOk : Bytes → Bool) (authToken base hash byteRange method : Bytes) :
    Option HttpRequest :=
  (parseURL authorityOk (base ++ lit "/xorb/xorbs/default/" ++ hash)).bind fun u =>
    if sendable u then
      (wireHeaders (setPeerHeaders authToken byteRange)).bind fun headers =>
        (parse authorityOk true (requestURI u)).map fun url => ⟨method, url, headers⟩
    else none

/-- The request for a xorb that a node makes of what its server has read. -/
def receive (authToken : Bytes) (r : HttpRequest) : Option Request :=
  toXorb r (handle authToken r)

def Method.name : Method → Bytes
  | .get => lit "GET"
  | .head => lit "HEAD"

/-- The bearer of one node is the secret of the other, up to blanks at its end. -/
def TokenOpens (authToken authToken' : Bytes) : Prop :=
  (∀ c ∈ authToken, isCTL c = true → c = 9) ∧
    (authToken' = [] ∨ trimRight authToken = authToken')

/-! ### The headers -/

theorem setPeerHeaders_eq (authToken byteRange : Bytes) :
    setPeerHeaders authToken byteRange =
      [(lit "Range", byteRange), (lit "X-Xet-Peer", lit "1"),
        (lit "Accept-Encoding", lit "identity")] ++
      if authToken = [] then [] else [(lit "Authorization", lit "Bearer " ++ authToken)] := by
  rw [setPeerHeaders]
  by_cases h : authToken = []
  · rw [if_pos h, if_neg (not_not_intro h)]
    rfl
  · rw [if_neg h, if_pos h]
    rfl

theorem trimRight_append (a v : Bytes) :
    trimRight (a ++ v) = if trimRight v = [] then trimRight a else a ++ trimRight v := by
  rw [trimRight, trimRight, trimRight, List.reverse_append, List.dropWhile_append]
  by_cases h : v.reverse.dropWhile isBlank = []
  · rw [if_pos (by rw [h]; rfl), if_pos (by rw [h]; rfl)]
  · rw [if_neg (by simpa using h), if_neg (by simpa using h), List.reverse_append,
      List.reverse_reverse]

/-- The bearer as the sibling reads it. -/
theorem wireValue_bearer (t : Bytes) : wireValue (lit "Bearer " ++ t) =
    if ∀ c ∈ t, isCTL c = true → c = 9 then
      some (if trimRight t = [] then lit "Bearer" else lit "Bearer " ++ trimRight t)
    else none := by
  have hany : ((lit "Bearer " ++ t).any fun c => isCTL c && c ≠ 9) =
      t.any fun c => isCTL c && c ≠ 9 := by
    rw [List.any_append]
    have hbearer : ((lit "Bearer ").any fun c => isCTL c && c ≠ 9) = false := by decide
    rw [hbearer, Bool.false_or]
  have hfirst : (lit "Bearer " ++ t).dropWhile isBlank = lit "Bearer " ++ t := rfl
  have htrim : trimRight (lit "Bearer ") = lit "Bearer" := by decide
  rw [wireValue, hany, hfirst, trimRight_append, htrim]
  by_cases h : ∀ c ∈ t, isCTL c = true → c = 9
  · rw [if_pos h, if_neg]
    intro hbad
    obtain ⟨c, hc, hbad⟩ := List.any_eq_true.mp hbad
    simp only [ne_eq, decide_not, Bool.and_eq_true, Bool.not_eq_eq_eq_not, Bool.not_true,
      decide_eq_false_iff_not] at hbad
    exact hbad.2 (h c hc hbad.1)
  · rw [if_neg h, if_pos]
    push Not at h
    obtain ⟨c, hc, hctl, hne⟩ := h
    exact List.any_eq_true.mpr ⟨c, hc, by simp [hctl, hne]⟩

/-- The header with the secret on the wire, if a node has one. -/
def wireAuth (authToken : Bytes) : Option (List (Bytes × Bytes)) :=
  if authToken = [] then some []
  else (wireValue (lit "Bearer " ++ authToken)).map fun b => [(lit "Authorization", b)]

/-- The headers a sibling reads, for a range and what it reads of the secret. -/
def peerHeaders (byteRange : Bytes) (auth : List (Bytes × Bytes)) : List (Bytes × Bytes) :=
  [(lit "Range", byteRange), (lit "X-Xet-Peer", lit "1"),
    (lit "Accept-Encoding", lit "identity")] ++ auth

theorem wireHeaders_eq (authToken byteRange : Bytes) :
    wireHeaders (setPeerHeaders authToken byteRange) =
      (wireValue byteRange).bind fun v => (wireAuth authToken).map (peerHeaders v) := by
  have hone : wireValue (lit "1") = some (lit "1") := by decide
  have hidentity : wireValue (lit "identity") = some (lit "identity") := by decide
  rw [setPeerHeaders_eq, wireAuth]
  by_cases htoken : authToken = []
  · rw [if_pos htoken, if_pos htoken]
    cases hrange : wireValue byteRange <;>
      simp only [List.append_nil, wireHeaders, hrange, hone, hidentity] <;> rfl
  · rw [if_neg htoken, if_neg htoken]
    cases hrange : wireValue byteRange <;>
      cases hbearer : wireValue (lit "Bearer " ++ authToken) <;>
      simp only [List.cons_append, List.nil_append, wireHeaders, hrange, hone, hidentity,
        hbearer] <;> rfl

section Received

variable {method byteRange authToken : Bytes} {url : NetUrl.Url} {auth : List (Bytes × Bytes)}

/-- Whether the secret of the sibling is met. -/
theorem wireAuth_opens_iff {authToken' : Bytes} :
    (∃ auth, wireAuth authToken = some auth ∧ (authToken' = [] ∨
      (⟨method, url, peerHeaders byteRange auth⟩ : HttpRequest).header "Authorization" =
        lit "Bearer " ++ authToken')) ↔ TokenOpens authToken authToken' := by
  rw [wireAuth, TokenOpens]
  by_cases htoken : authToken = []
  · subst htoken
    constructor
    · rintro ⟨auth, hauth, h⟩
      obtain rfl : [] = auth := Option.some.inj hauth
      refine ⟨fun c hc => absurd hc List.not_mem_nil, .inl (h.resolve_right fun hbearer => ?_)⟩
      exact List.cons_ne_nil _ _ hbearer.symm
    · rintro ⟨-, h | h⟩
      · exact ⟨[], rfl, .inl h⟩
      · exact ⟨[], rfl, .inl h.symm⟩
  · rw [if_neg htoken, wireValue_bearer]
    by_cases hctl : ∀ c ∈ authToken, isCTL c = true → c = 9
    · have hsome (b : Bytes) :
          (⟨method, url, peerHeaders byteRange [(lit "Authorization", b)]⟩ : HttpRequest).header
            "Authorization" = b := rfl
      rw [if_pos hctl]
      simp only [Option.map_some, Option.some.injEq, exists_eq_left', hsome]
      rw [and_iff_right hctl]
      by_cases htoken' : authToken' = []
      · exact iff_of_true (.inl htoken') (.inl htoken')
      · rw [or_iff_right htoken', or_iff_right htoken']
        by_cases htrim : trimRight authToken = []
        · rw [if_pos htrim, htrim]
          refine iff_of_false (fun h => ?_) (Ne.symm htoken')
          have hlength := congrArg List.length h
          have hshort : (lit "Bearer").length = 6 ∧ (lit "Bearer ").length = 7 := by decide
          rw [List.length_append] at hlength
          omega
        · rw [if_neg htrim, List.append_cancel_left_eq]
    · rw [if_neg hctl]
      simp [hctl]

end Received

/-! ### The path of a message -/

section Path

variable {authorityOk : Bytes → Bool} (o : NetUrl.Origin authorityOk) {hash : Bytes}
  {u : NetUrl.Url}

theorem xorbPath_eq (hash : Bytes) :
    xorbPath hash = 47 :: (lit "xorb/xorbs/default/" ++ hash) := by
  simp [xorbPath, lit]

/-- The text of a path of a xorb. -/
theorem pathText_xorbPath (s d : Bytes) :
    pathText (xorbPath s) (xorbPath d) = xorbPath (pathText s d) := by
  refine pathText_append (fun c hc => ?_) s d
  have hall : (lit "/xorb/xorbs/default/").all fun c => shouldEscape c = false := by decide
  simpa using List.all_eq_true.mp hall c hc

/-- A hash that arrives is carried by the path. -/
theorem carried_of_routed (hu : parseURL authorityOk (o.text ++ xorbPath hash) = some u)
    (hpath : u.path = xorbPath hash) (hne : hash ≠ [47])
    (hsegs : segments u.escapedPath = [lit "xorb", lit "xorbs", lit "default", hash])
    (hclean : cleanPath u.escapedPath = u.escapedPath) : Carried hash := by
  rw [xorbPath_eq] at hu
  obtain ⟨hctl, hread, hescaped⟩ := o.parseURL_text_path hu
  rw [← xorbPath_eq] at hctl hread hescaped
  rw [hpath] at hread hescaped
  -- nothing is cut from the path and nothing in it is unescaped, for it would be shorter then
  obtain ⟨hle, hlt⟩ := unescape_length hread
  have hcut := cutAt_length_le 63 (cutAt 35 (xorbPath hash)).1
  have hfragment : 35 ∉ xorbPath hash := by
    intro hmem
    have := cutAt_length_lt hmem
    omega
  rw [cutAt_of_not_mem hfragment] at hctl hle hlt hescaped hread
  have hquery : 63 ∉ xorbPath hash := by
    intro hmem
    exact absurd (cutAt_length_lt hmem) (Nat.not_lt.mpr hle)
  rw [cutAt_of_not_mem hquery] at hlt hescaped hread
  have hpercent : 37 ∉ xorbPath hash := fun hmem => Nat.lt_irrefl _ (hlt hmem)
  have hmem {c : UInt8} (hc : c ∈ hash) : c ∈ xorbPath hash := List.mem_append_right _ hc
  rw [pathText_xorbPath] at hescaped
  rw [hescaped, segments_xorbPath] at hsegs
  have hlast : segments (47 :: pathText hash hash) = [hash] := by simpa using hsegs
  have hread' : unescape (pathText hash hash) = some hash :=
    unescape_pathText (unescape_of_no_percent fun h => hpercent (hmem h))
  have hslash := no_slash_of_segments hlast
  refine ⟨⟨?_, ?_, ?_, ?_⟩, fun c hc => ⟨?_, ?_, ?_, ?_⟩⟩
  · rintro rfl
    exact absurd hlast (by decide)
  · rintro rfl
    rw [hescaped] at hclean
    exact absurd hclean (by decide +kernel)
  · rintro rfl
    rw [hescaped] at hclean
    exact absurd hclean (by decide +kernel)
  · intro h47
    refine hslash ?_
    rw [pathText]
    split_ifs
    · exact h47
    · exact List.mem_flatMap.mpr ⟨47, h47, by decide⟩
  · exact fun heq => hpercent (hmem (heq ▸ hc))
  · exact fun heq => hquery (hmem (heq ▸ hc))
  · exact fun heq => hfragment (hmem (heq ▸ hc))
  · exact Bool.eq_false_iff.mpr (List.any_eq_false.mp hctl c (hmem hc))

end Path

/-! ### Messages that arrive -/

theorem servesGet_name (m : Method) : servesGet m.name = true := by cases m <;> decide

theorem peerMessage_eq_some_iff {authorityOk : Bytes → Bool} (o : NetUrl.Origin authorityOk)
    (hscheme : lower o.scheme = lit "http" ∨ lower o.scheme = lit "https")
    (hhost : o.authority ≠ []) {authToken hash byteRange method : Bytes} {r : HttpRequest} :
    peerMessage authorityOk authToken o.text hash byteRange method = some r ↔
      ∃ u v auth url, parseURL authorityOk (o.text ++ xorbPath hash) = some u ∧
        wireValue byteRange = some v ∧ wireAuth authToken = some auth ∧
        parse authorityOk true (requestURI u) = some url ∧
        r = ⟨method, url, peerHeaders v auth⟩ := by
  have hsend {u : NetUrl.Url} (hu : parseURL authorityOk (o.text ++ xorbPath hash) = some u) :
      sendable u = true := by
    rw [xorbPath_eq] at hu
    obtain ⟨hs, hh, -⟩ := parseURL_text_fields o hu
    rw [sendable, hs, hh]
    simp [hscheme, hhost]
  rw [peerMessage, List.append_assoc, ← xorbPath, Option.bind_eq_some_iff]
  constructor
  · rintro ⟨u, hu, h⟩
    rw [if_pos (hsend hu), wireHeaders_eq, Option.bind_eq_some_iff] at h
    obtain ⟨headers, hheaders, h⟩ := h
    obtain ⟨v, hv, hmap⟩ := Option.bind_eq_some_iff.mp hheaders
    obtain ⟨auth, hauth, rfl⟩ := Option.map_eq_some_iff.mp hmap
    obtain ⟨url, hurl, rfl⟩ := Option.map_eq_some_iff.mp h
    exact ⟨u, v, auth, url, hu, hv, hauth, hurl, rfl⟩
  · rintro ⟨u, v, auth, url, hu, hv, hauth, hurl, rfl⟩
    refine ⟨u, hu, ?_⟩
    rw [if_pos (hsend hu), wireHeaders_eq, hv, hauth, hurl]
    rfl

theorem receive_eq_some_iff {authToken' byteRange byteRange' hash : Bytes} {m : Method}
    {url : NetUrl.Url} {auth : List (Bytes × Bytes)} :
    receive authToken' ⟨m.name, url, peerHeaders byteRange' auth⟩ =
        some ⟨m, hash, byteRange, true⟩ ↔
      byteRange' = byteRange ∧
        mux ⟨m.name, url, peerHeaders byteRange' auth⟩ = .to .xorb [hash] ∧
        (authToken' = [] ∨
          (⟨m.name, url, peerHeaders byteRange' auth⟩ : HttpRequest).header "Authorization" =
            lit "Bearer " ++ authToken') := by
  have hmethod : (if m.name = lit "HEAD" then Method.head else Method.get) = m := by
    cases m <;> decide
  have hpeer : isPeerRequest ⟨m.name, url, peerHeaders byteRange' auth⟩ = true := rfl
  have hrange : (⟨m.name, url, peerHeaders byteRange' auth⟩ : HttpRequest).header "Range" =
      byteRange' := rfl
  rw [receive, toXorb_eq_some_iff, handle_eq]
  constructor
  · rintro ⟨hash', hrouted, heq⟩
    simp only [hmethod, hpeer, hrange, Request.mk.injEq, and_true, true_and] at heq
    obtain ⟨rfl, rfl⟩ := heq
    split_ifs at hrouted with hrefused
    have hop := (mux_reaches hrouted).operational (.inl rfl)
    refine ⟨rfl, hrouted, ?_⟩
    by_contra hopen
    rw [not_or] at hopen
    exact hrefused ⟨hopen.1, hpeer, hop, hopen.2⟩
  · rintro ⟨rfl, hrouted, hopen⟩
    refine ⟨hash, ?_, ?_⟩
    · rw [if_neg]
      · exact hrouted
      · rintro ⟨htoken, -, -, hauth⟩
        exact hopen.elim htoken hauth
    · simp only [hmethod, hpeer, hrange]

/-- A message to a sibling is taken for what the node meant, the range and the peer flag included,
exactly if the path of a URL can carry the hash, a header the range, and the secret is met. -/
theorem peer_message_arrives_iff {authorityOk : Bytes → Bool} (o : NetUrl.Origin authorityOk)
    (hscheme : lower o.scheme = lit "http" ∨ lower o.scheme = lit "https")
    (hhost : o.authority ≠ []) (authToken authToken' hash byteRange : Bytes) (m : Method) :
    (peerMessage authorityOk authToken o.text hash byteRange m.name).bind (receive authToken') =
        some ⟨m, hash, byteRange, true⟩ ↔
      Carried hash ∧ wireValue byteRange = some byteRange ∧ TokenOpens authToken authToken' := by
  rw [Option.bind_eq_some_iff]
  constructor
  · rintro ⟨r, hr, hreceive⟩
    obtain ⟨u, v, auth, url, hu, hv, hauth, hurl, rfl⟩ :=
      (peerMessage_eq_some_iff o hscheme hhost).mp hr
    obtain ⟨rfl, hmux, hopen⟩ := receive_eq_some_iff.mp hreceive
    obtain ⟨url', hurl', hpath, hescaped⟩ := received_url o (xorbPath_eq hash ▸ hu)
    obtain rfl := Option.some.inj (hurl.symm.trans hurl')
    obtain ⟨-, hclean, hsegs, hne⟩ := mux_xorb_iff.mp hmux
    have hxorb : u.path = xorbPath hash := hpath.symm.trans (mux_reaches hmux).xorb_path
    rw [hescaped] at hclean hsegs
    exact ⟨carried_of_routed o hu hxorb hne hsegs hclean, hv,
      wireAuth_opens_iff.mp ⟨auth, hauth, hopen⟩⟩
  · rintro ⟨hcarried, hv, hopens⟩
    obtain ⟨u, hu, -, hsegs, hclean⟩ := routed_of_carried o (xorb_names hcarried)
      (List.cons_ne_nil _ _)
    rw [← xorbPath_eq_render] at hu
    obtain ⟨url, hurl, -, hescaped⟩ := received_url o (xorbPath_eq hash ▸ hu)
    obtain ⟨auth, hauth, hopen⟩ :=
      (@wireAuth_opens_iff m.name byteRange authToken url authToken').mpr hopens
    refine ⟨_, (peerMessage_eq_some_iff o hscheme hhost).mpr
      ⟨u, byteRange, auth, url, hu, hv, hauth, hurl, rfl⟩, ?_⟩
    refine receive_eq_some_iff.mpr ⟨rfl, mux_xorb_iff.mpr ⟨?_, ?_, ?_, ?_⟩, hopen⟩
    · exact servesGet_name m
    · exact hescaped ▸ hclean
    · exact hescaped ▸ hsegs
    · rintro rfl
      exact hcarried.1.slash List.mem_cons_self

/-- A sibling on the private network. -/
def sibling : NetUrl.Origin fun _ => true := httpOrigin (lit "10.0.0.2:8000") (by decide +kernel)

theorem peer_message_arrives_iff_sibling :
    (peerMessage (fun _ => true) (lit "s3cret") (lit "http://10.0.0.2:8000") (lit "a1b2")
      (lit "bytes=0-9") (lit "GET")).bind (receive (lit "s3cret")) =
        some ⟨.get, lit "a1b2", lit "bytes=0-9", true⟩ :=
  (peer_message_arrives_iff sibling (.inl (by decide)) (by decide) _ _ _ _ .get).mpr
    ⟨⟨⟨by decide, by decide, by decide, by decide⟩, by decide +kernel⟩, by decide,
      by decide +kernel, .inr (by decide)⟩

end XetDcCache
