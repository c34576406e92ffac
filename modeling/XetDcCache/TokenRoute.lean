/-
The token route of the hub proxy (proxy.go).

`hub` rewrites the address of the CAS in a token's body and in its `X-Xet-Cas-Url`, both only once
`json.Unmarshal` has taken the body; any other reply it relays, the address with it.

* `values_tokenHeader` — the header of a rewritten token;
* `token_safe_iff` — which replies keep the address of the CAS from the client.
-/
import XetDcCache.Hub

namespace XetDcCache

open ResponseWriter
open Multimap (values values_congr values_set)

/-! ### Objects -/

/-- What JSON texts mean, with the members of an object as values `D`; `load` is the `any` a member
is stored as, if encoding/json can store it, and `dump` the value it is written as. -/
structure JsonMeaning (D V : Type) where
  object : Bytes → Option (Bytes → Option D)
  load : D → Option V
  dump : V → D

/-- The laws of encoding/json the handler rests on, for the string it stores. -/
structure JsonCodec.Lawful {D V : Type} (c : JsonCodec V) (m : JsonMeaning D V) (casUrl : Bytes) :
    Prop where
  object : ∀ body o, m.object body = some o → (∀ k d, o k = some d → (m.load d).isSome) →
    c.unmarshal body = some (some fun k => (o k).bind m.load)
  range : ∀ body o k d, m.object body = some o → o k = some d → m.load d = none →
    c.unmarshal body = none
  other : ∀ body tok, c.unmarshal body = some (some tok) → ∃ o, m.object body = some o
  marshal : ∀ body tok, c.unmarshal body = some (some tok) →
    ∃ text, c.marshal (Function.update tok (lit "casUrl") (some (c.str casUrl))) = some text ∧
      m.object text =
        some fun k => (Function.update tok (lit "casUrl") (some (c.str casUrl)) k).map m.dump

/-- A member that encoding/json writes as it has read it. -/
def JsonMeaning.Survives {D V : Type} (m : JsonMeaning D V) (d : D) : Prop :=
  (m.load d).map m.dump = some d

section Objects

variable {D V : Type} {c : JsonCodec V} {m : JsonMeaning D V} {casUrl body : Bytes}
  {o : Bytes → Option D} {tok : Bytes → Option V}

theorem unmarshal_members (hc : c.Lawful m casUrl) (ho : m.object body = some o)
    (htok : c.unmarshal body = some (some tok)) : tok = fun k => (o k).bind m.load := by
  have hload : ∀ k d, o k = some d → (m.load d).isSome := by
    intro k d hd
    rw [Option.isSome_iff_ne_none]
    intro hnone
    rw [hc.range body o k d ho hd hnone] at htok
    cases htok
  have hobject := hc.object body o ho hload
  rw [htok] at hobject
  exact Option.some.inj (Option.some.inj hobject)

/-- The object with its `casUrl` set, as it is written, is that object with only `casUrl` set
exactly if the other members survive. -/
theorem rewritten_members_iff (o : Bytes → Option D) (s : V) :
    ((fun k =>
        (Function.update (fun k => (o k).bind m.load) (lit "casUrl") (some s) k).map m.dump) =
        Function.update o (lit "casUrl") (some (m.dump s))) ↔
      ∀ k d, k ≠ lit "casUrl" → o k = some d → m.Survives d := by
  constructor
  · intro h k d hk hd
    have hmember := congrFun h k
    rw [Function.update_of_ne hk, Function.update_of_ne hk, hd, Option.bind_some] at hmember
    exact hmember
  · intro h
    funext k
    by_cases hk : k = lit "casUrl"
    · rw [hk, Function.update_self, Function.update_self, Option.map_some]
    · rw [Function.update_of_ne hk, Function.update_of_ne hk]
      cases hd : o k with
      | none => rfl
      | some d => exact h k d hk hd

end Objects

/-! ### The header of a token -/

def xCasUrl : Bytes := lit "x-xet-cas-url"

/-- The fields that describe the body. -/
def bodyFields : List Bytes :=
  [lit "content-type", lit "content-length", lit "content-encoding"]

def tokenHeader (casUrl : Bytes) (headers : List (Bytes × Bytes)) : List (Bytes × Bytes) :=
  let header := cleanHeaders headers
  Multimap.set toLower
    (if (Multimap.get toLower header (lit "X-Xet-Cas-Url")).getD [] ≠ [] then
      Multimap.set toLower header (lit "X-Xet-Cas-Url") casUrl else header)
    (lit "Content-Type") (lit "application/json")

theorem isEdit_of_mem_tokenEdits (casUrl : Bytes) (headers : List (Bytes × Bytes)) :
    ∀ c ∈ tokenEdits casUrl headers, NetHttp.isEdit c := by
  intro c hc
  rcases List.mem_append.mp hc with hc | hc
  · rcases List.mem_append.mp hc with hc | hc
    · obtain ⟨e, -, rfl⟩ := List.mem_map.mp hc
      rfl
    · split_ifs at hc
      · rw [List.mem_singleton.mp hc]
        rfl
      · cases hc
  · rw [List.mem_singleton.mp hc]
    rfl

theorem foldl_tokenEdits (net : NetHttp Bytes Bytes UInt8) (hnet : net.canon = toLower)
    (casUrl : Bytes) (headers : List (Bytes × Bytes)) :
    (tokenEdits casUrl headers).foldl net.edit [] = tokenHeader casUrl headers := by
  rw [tokenEdits, List.foldl_append, List.foldl_append, NetHttp.foldl_edit_addHeader,
    List.nil_append, tokenHeader, List.foldl_cons, List.foldl_nil, NetHttp.edit, hnet]
  congr 1
  split_ifs
  · rw [List.foldl_cons, List.foldl_nil, NetHttp.edit, hnet]
  · rfl

theorem get_cleanHeaders_xCasUrl (headers : List (Bytes × Bytes)) :
    Multimap.get toLower (cleanHeaders headers) (lit "X-Xet-Cas-Url") =
      (values toLower headers xCasUrl).head? := by
  rw [Multimap.get, values_cleanHeaders, if_neg (by decide +kernel),
    values_congr headers (by decide : toLower (lit "X-Xet-Cas-Url") = toLower xCasUrl)]

/-- The values of a field of a rewritten token. -/
theorem values_tokenHeader (casUrl : Bytes) (headers : List (Bytes × Bytes)) (name : Bytes) :
    values toLower (tokenHeader casUrl headers) name =
      if toLower name = lit "content-type" then [lit "application/json"]
      else if toLower name = xCasUrl ∧ (values toLower headers xCasUrl).head?.getD [] ≠ [] then
        [casUrl]
      else if toLower name ∈ hopByHop then [] else values toLower headers name := by
  have htype : toLower (lit "Content-Type") = lit "content-type" := by decide
  have hcas : toLower (lit "X-Xet-Cas-Url") = xCasUrl := by decide
  rw [tokenHeader, values_set, htype, get_cleanHeaders_xCasUrl]
  by_cases hname : toLower name = lit "content-type"
  · rw [if_pos hname.symm, if_pos hname]
  · rw [if_neg (Ne.symm hname), if_neg hname]
    by_cases hfirst : (values toLower headers xCasUrl).head?.getD [] = []
    · rw [if_neg (not_not_intro hfirst), if_neg (fun h => h.2 hfirst), values_cleanHeaders]
    · rw [if_pos hfirst, values_set, hcas, values_cleanHeaders]
      by_cases hx : toLower name = xCasUrl
      · rw [if_pos hx.symm, if_pos ⟨hx, hfirst⟩]
      · have hother : ¬ (toLower name = xCasUrl ∧
            (values toLower headers xCasUrl).head?.getD [] ≠ []) := fun h => hx h.1
        rw [if_neg (Ne.symm hx), if_neg hother]

/-- The other fields that are meant for the client are as they were. -/
def Unchanged (headers header : List (Bytes × Bytes)) : Prop :=
  ∀ name, EndToEnd headers name → toLower name ∉ bodyFields → toLower name ≠ xCasUrl →
    values toLower header name = values toLower headers name

/-- The header has no `Trailers`, unless `Connection` names it. -/
def NoTrailers (headers : List (Bytes × Bytes)) : Prop :=
  EndToEnd headers (lit "trailers") → values toLower headers (lit "trailers") = []

/-- Of the other fields `cleanHeaders` takes off `Trailers` only. -/
theorem unchanged_iff {headers header : List (Bytes × Bytes)}
    (h : ∀ name, toLower name ∉ bodyFields → toLower name ≠ xCasUrl →
      values toLower header name =
        if toLower name ∈ hopByHop then [] else values toLower headers name) :
    Unchanged headers header ↔ NoTrailers headers := by
  have hlower : toLower (lit "trailers") = lit "trailers" := by decide
  constructor
  · intro hunchanged hend
    have hother : toLower (lit "trailers") ∉ bodyFields ∧ toLower (lit "trailers") ≠ xCasUrl ∧
        toLower (lit "trailers") ∈ hopByHop := by
      decide +kernel
    have hvalues := hunchanged _ hend hother.1 hother.2.1
    rw [h _ hother.1 hother.2.1, if_pos hother.2.2] at hvalues
    exact hvalues.symm
  · intro htrailers name hend hbody hx
    rw [h name hbody hx]
    by_cases hhop : toLower name ∈ hopByHop
    · have hname : toLower name = lit "trailers" := by
        rcases mem_hopByHop_of_endToEnd hhop hend with hlength | hother
        · exact absurd (hlength ▸ by decide) hbody
        · rcases List.mem_cons.mp hother with htr | hother
          · exact htr
          · rw [List.mem_singleton] at hother
            exact absurd (hother ▸ by decide) hbody
      have hsame := hname.trans hlower.symm
      rw [if_pos hhop, values_congr headers hsame]
      exact (htrailers ((endToEnd_congr hsame).mp hend)).symm
    · rw [if_neg hhop]

/-! ### Safe tokens -/

/-- The client of the token route gets a 200 that names no address of a CAS but ours; for an object
it is that object with our `casUrl`, and with the other fields of the header. -/
def TokenSafe {D V : Type} (c : JsonCodec V) (m : JsonMeaning D V) (publicBase path : Bytes)
    (upstream : Response) : Prop :=
  let casUrl := publicBase ++ lit "/cas"
  ∃ reply, hub c publicBase path (.ok upstream) = some reply ∧
    (respond reply.calls).panicked = false ∧
    ∃ header, (respond reply.calls).state.sent = some (200, header) ∧
      (∀ v ∈ values toLower header xCasUrl, v = casUrl) ∧
      ∀ o, m.object upstream.body = some o →
        m.object (respond reply.calls).state.body =
            some (Function.update o (lit "casUrl") (some (m.dump (c.str casUrl)))) ∧
          Unchanged upstream.headers header

/-- What a rewritten reply has to meet. -/
def RewritesSafely {D V : Type} (m : JsonMeaning D V) (upstream : Response) : Prop :=
  (values toLower upstream.headers xCasUrl).head? ≠ some [] ∧
    ∀ o, m.object upstream.body = some o →
      (∀ k d, k ≠ lit "casUrl" → o k = some d → m.Survives d) ∧ NoTrailers upstream.headers

/-- What a relayed reply has to meet. -/
def RelaysSafely {D V : Type} (c : JsonCodec V) (m : JsonMeaning D V) (casUrl : Bytes)
    (upstream : Response) : Prop :=
  (∀ v ∈ values toLower upstream.headers xCasUrl, v = casUrl) ∧
    ∀ o, m.object upstream.body = some o →
      o (lit "casUrl") = some (m.dump (c.str casUrl)) ∧ NoTrailers upstream.headers

section Exits

variable {D V : Type} {c : JsonCodec V} {m : JsonMeaning D V} {publicBase path : Bytes}
  {upstream : Response}

theorem not_tokenSafe_of_null (h : parsedToken c path upstream = some none) :
    ¬ TokenSafe c m publicBase path upstream := by
  rintro ⟨reply, hreply, -⟩
  rw [hub_of_null h] at hreply
  cases hreply

/-- What is asked of a reply, once it is known what is sent for it. -/
theorem tokenSafe_iff_of_sent {reply : HubReply} {s : Wire Bytes Bytes UInt8}
    {header : List (Bytes × Bytes)} (hreply : hub c publicBase path (.ok upstream) = some reply)
    (hrespond : respond reply.calls = ⟨s, false⟩) (hsent : s.sent = some (200, header)) :
    TokenSafe c m publicBase path upstream ↔
      (∀ v ∈ values toLower header xCasUrl, v = publicBase ++ lit "/cas") ∧
        ∀ o, m.object upstream.body = some o →
          m.object s.body = some (Function.update o (lit "casUrl")
              (some (m.dump (c.str (publicBase ++ lit "/cas"))))) ∧
            Unchanged upstream.headers header := by
  constructor
  · rintro ⟨reply', hreply', -, header', hheader, hsafe⟩
    obtain rfl := Option.some.inj (hreply.symm.trans hreply')
    rw [hrespond] at hheader hsafe
    obtain rfl := congrArg Prod.snd (Option.some.inj (hsent.symm.trans hheader))
    exact hsafe
  · intro hsafe
    refine ⟨reply, hreply, ?_⟩
    rw [hrespond]
    exact ⟨rfl, header, hsent, hsafe⟩

theorem tokenSafe_iff_of_unparsed (hstatus : upstream.status = 200)
    (h : parsedToken c path upstream = none) :
    TokenSafe c m publicBase path upstream ↔
      RelaysSafely c m (publicBase ++ lit "/cas") upstream := by
  have hcode : NetHttp.finalCode upstream.status := by
    rw [hstatus]
    decide
  obtain ⟨s, hrespond, hsent, hbody⟩ := respond_passThrough upstream hcode
  have hcas : values toLower (passedHeader upstream.headers) xCasUrl =
      values toLower upstream.headers xCasUrl := by
    rw [values_passedHeader, if_neg (by decide), if_neg (by decide +kernel)]
  have hunchanged : Unchanged upstream.headers (passedHeader upstream.headers) ↔
      NoTrailers upstream.headers := by
    refine unchanged_iff fun name hname _ => ?_
    have hlength : toLower name ≠ lit "content-length" := by
      intro heq
      exact hname (heq ▸ by decide)
    rw [values_passedHeader, if_neg hlength]
  -- the body goes out as it came, so it must have our address already
  have hobject (o : Bytes → Option D) (s : D) :
      some o = some (Function.update o (lit "casUrl") (some s)) ↔ o (lit "casUrl") = some s := by
    rw [Option.some_inj, eq_comm, Function.update_eq_self_iff, eq_comm]
  rw [hstatus] at hsent
  rw [tokenSafe_iff_of_sent (hub_of_unparsed h) hrespond hsent, hcas, hunchanged, hbody]
  refine and_congr_right fun _ => forall₂_congr fun o ho => ?_
  rw [ho, hobject]

/-- The address in the header of a rewritten token is ours, unless its first value is empty. -/
theorem address_of_rewritten_iff (headers : List (Bytes × Bytes)) :
    (∀ v ∈ values toLower (tokenHeader (publicBase ++ lit "/cas") headers) xCasUrl,
        v = publicBase ++ lit "/cas") ↔
      (values toLower headers xCasUrl).head? ≠ some [] := by
  have hlower : toLower xCasUrl = xCasUrl := by decide
  rw [values_tokenHeader, hlower, if_neg (by decide)]
  cases hv : values toLower headers xCasUrl with
  | nil => simp
  | cons v rest =>
    rw [List.head?_cons, Option.getD_some]
    by_cases hempty : v = []
    · subst hempty
      have hnot : ¬ (xCasUrl = xCasUrl ∧ ([] : Bytes) ≠ []) := fun h => h.2 rfl
      rw [if_neg hnot, if_neg (by decide +kernel)]
      refine ⟨fun h => ?_, fun h => absurd rfl h⟩
      have hbase := h [] List.mem_cons_self
      exact absurd hbase.symm (List.append_ne_nil_of_right_ne_nil _ (by decide))
    · rw [if_pos ⟨rfl, hempty⟩]
      refine ⟨fun _ h => hempty (Option.some.inj h), fun _ v hv => List.mem_singleton.mp hv⟩

theorem unmarshal_of_parsed {tok : Option (Bytes → Option V)}
    (h : parsedToken c path upstream = some tok) : c.unmarshal upstream.body = some tok := by
  rw [parsedToken] at h
  split_ifs at h
  exact h

theorem tokenSafe_iff_of_object (hc : c.Lawful m (publicBase ++ lit "/cas"))
    {tok : Bytes → Option V} (h : parsedToken c path upstream = some (some tok)) :
    TokenSafe c m publicBase path upstream ↔ RewritesSafely m upstream := by
  have htok := unmarshal_of_parsed h
  obtain ⟨text, htext, hobject⟩ := hc.marshal _ _ htok
  obtain ⟨s, hserve, hsent, hbody⟩ := NetHttp.serve_edits_reply (.healthy toLower) _
    (isEdit_of_mem_tokenEdits (publicBase ++ lit "/cas") upstream.headers)
    (by decide : NetHttp.finalCode 200) text (fun _ => rfl)
  rw [foldl_tokenEdits _ rfl] at hsent
  have hrespond : respond (rewriteToken c publicBase upstream tok) = ⟨s, false⟩ := by
    rw [rewriteToken, htext]
    exact hserve
  have hunchanged :
      Unchanged upstream.headers (tokenHeader (publicBase ++ lit "/cas") upstream.headers) ↔
        NoTrailers upstream.headers := by
    refine unchanged_iff fun name hname hx => ?_
    have htype : toLower name ≠ lit "content-type" := by
      intro heq
      exact hname (heq ▸ by decide)
    rw [values_tokenHeader, if_neg htype, if_neg fun h => hx h.1]
  have hmembers (o : Bytes → Option D) (ho : m.object upstream.body = some o) :
      m.object text =
          some (Function.update o (lit "casUrl")
            (some (m.dump (c.str (publicBase ++ lit "/cas"))))) ↔
        ∀ k d, k ≠ lit "casUrl" → o k = some d → m.Survives d := by
    rw [hobject, Option.some_inj, unmarshal_members hc ho htok]
    exact rewritten_members_iff o _
  rw [tokenSafe_iff_of_sent (hub_of_object h) hrespond hsent, address_of_rewritten_iff, hunchanged,
    hbody]
  refine and_congr_right fun _ => forall₂_congr fun o ho => ?_
  rw [hmembers o ho]

end Exits

/-- The condition by the exit a reply takes. -/
def SafeWhen {D V : Type} (c : JsonCodec V) (m : JsonMeaning D V) (publicBase path : Bytes)
    (upstream : Response) : Prop :=
  match parsedToken c path upstream with
  | none => RelaysSafely c m (publicBase ++ lit "/cas") upstream
  | some none => False
  | some (some _) => RewritesSafely m upstream

/-- The token route keeps the address of the CAS exactly for these replies. -/
theorem token_safe_iff {D V : Type} (c : JsonCodec V) (m : JsonMeaning D V)
    (publicBase path : Bytes) (upstream : Response)
    (hc : c.Lawful m (publicBase ++ lit "/cas")) (hstatus : upstream.status = 200) :
    TokenSafe c m publicBase path upstream ↔ SafeWhen c m publicBase path upstream := by
  cases h : parsedToken c path upstream with
  | none =>
    rw [SafeWhen, h]
    exact tokenSafe_iff_of_unparsed hstatus h
  | some parsed =>
    cases parsed with
    | none =>
      rw [SafeWhen, h]
      exact iff_of_false (not_tokenSafe_of_null h) id
    | some tok =>
      rw [SafeWhen, h]
      exact tokenSafe_iff_of_object hc h

/-! ### Fixed replies -/

/-- The meaning of the texts of `tokenCodec`. -/
def tokenMeaning : JsonMeaning Bytes Bytes :=
  ⟨fun body => (tokenCodec.unmarshal body).join, some, id⟩

theorem tokenCodec_unmarshal_real :
    tokenCodec.unmarshal (lit "\x7b\"casUrl\":\"https://cas\"\x7d") =
      some (some fun k => if k = lit "casUrl" then some (lit "https://cas") else none) := by
  simp only [tokenCodec, if_true]

theorem tokenCodec_unmarshal_ours :
    tokenCodec.unmarshal (lit "\x7b\"casUrl\":\"http://shim/cas\"\x7d") =
      some (some fun k => if k = lit "casUrl" then some (lit "http://shim/cas") else none) := by
  have hne : lit "\x7b\"casUrl\":\"http://shim/cas\"\x7d" ≠
      lit "\x7b\"casUrl\":\"https://cas\"\x7d" := by
    decide +kernel
  simp only [tokenCodec, if_neg hne, if_true]

/-- The objects of `tokenCodec` have a `casUrl` and nothing else. -/
theorem tokenCodec_members {body : Bytes} {tok : Bytes → Option Bytes}
    (h : tokenCodec.unmarshal body = some (some tok)) {k : Bytes} (hk : k ≠ lit "casUrl") :
    tok k = none := by
  change (if _ then _ else _) = _ at h
  split_ifs at h with h₁ h₂ h₃
  · obtain rfl := Option.some.inj (Option.some.inj h)
    exact if_neg hk
  · obtain rfl := Option.some.inj (Option.some.inj h)
    exact if_neg hk
  · cases h

theorem tokenCodec_lawful : tokenCodec.Lawful tokenMeaning (lit "http://shim/cas") where
  object body o ho _ := by
    have hunmarshal := Option.join_eq_some_iff.mp ho
    rw [hunmarshal]
    exact congrArg (some ∘ some) (funext fun k => (Option.bind_fun_some (o k)).symm)
  range body o k d _ _ h := by cases h
  other body tok h := ⟨tok, Option.join_eq_some_iff.mpr h⟩
  marshal body tok h := by
    refine ⟨lit "\x7b\"casUrl\":\"http://shim/cas\"\x7d", ?_, ?_⟩
    · simp only [tokenCodec, Function.update_self, Option.map_some]
      exact congrArg some (by decide +kernel)
    · refine Option.join_eq_some_iff.mpr (tokenCodec_unmarshal_ours.trans ?_)
      refine congrArg (some ∘ some) (funext fun k => ?_)
      by_cases hk : k = lit "casUrl"
      · rw [if_pos hk, hk, Function.update_self]
        rfl
      · rw [if_neg hk, Function.update_of_ne hk, tokenCodec_members h hk]
        rfl

def tokenPath : Bytes := lit "/api/models/foo/xet-read-token/abc"

def tokenReply (body : Bytes) : Response :=
  ⟨200, [(lit "X-Xet-Cas-Url", lit "https://cas"), (lit "X-Xet-Access-Token", lit "tok")], body⟩

theorem token_safe_iff_get :
    TokenSafe tokenCodec tokenMeaning (lit "http://shim") tokenPath
      (tokenReply (lit "\x7b\"casUrl\":\"https://cas\"\x7d")) := by
  refine (token_safe_iff _ _ _ _ _ tokenCodec_lawful rfl).mpr ?_
  have hparsed : parsedToken tokenCodec tokenPath
      (tokenReply (lit "\x7b\"casUrl\":\"https://cas\"\x7d")) =
      some (some fun k => if k = lit "casUrl" then some (lit "https://cas") else none) := by
    rw [parsedToken, if_pos (by decide +kernel)]
    exact tokenCodec_unmarshal_real
  rw [SafeWhen, hparsed]
  exact ⟨by decide +kernel, fun o _ => ⟨fun k d _ _ => rfl, fun _ => by decide +kernel⟩⟩

/-- A `HEAD` has no body to parse: the client is given the real address. -/
theorem head_gets_address :
    ¬ ∀ (c : JsonCodec Bytes) (m : JsonMeaning Bytes Bytes) (publicBase path : Bytes)
      (upstream : Response), c.Lawful m (publicBase ++ lit "/cas") → upstream.status = 200 →
      lit "/xet-read-token/" <:+: path → TokenSafe c m publicBase path upstream := by
  intro h
  have hsafe := h tokenCodec tokenMeaning (lit "http://shim") tokenPath (tokenReply [])
    tokenCodec_lawful rfl (by decide +kernel)
  have hparsed : parsedToken tokenCodec tokenPath (tokenReply []) = none :=
    Option.isNone_iff_eq_none.mp (by decide +kernel)
  have haddress := ((tokenSafe_iff_of_unparsed rfl hparsed).mp hsafe).1 (lit "https://cas")
  revert haddress
  decide +kernel

end XetDcCache
