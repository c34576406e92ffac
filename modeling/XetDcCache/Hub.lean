/-
The hub proxy (proxy.go): what `hub` makes of an upstream reply.

`hub` answers with calls on its writer, and the client gets what the server sends for them.  The
header of a reply is relayed through `cleanHeaders`, whose list is not that of RFC 7230.

* `values_cleanHeaders` — the values of a field after it;
* `passed_headers_iff` — which headers pass as they should;
* `pass_through_verbatim_iff` — which replies do.
-/
import XetDcCache.Reconstruction
import XetDcCache.ResponseWriter

namespace XetDcCache

open ResponseWriter
open Multimap (values values_filter values_congr values_set values_eq_nil)

/-! ### Header fields -/

/-- The tokens between commas. -/
def tokens (value : Bytes) : List Bytes :=
  (value.splitOn 44).map fun t =>
    toLower ((t.dropWhile isBlank).reverse.dropWhile isBlank).reverse
where
  /-- The optional whitespace around a token. -/
  isBlank (c : UInt8) : Bool := c = 32 || c = 9

/-- The fields a header names in `Connection`. -/
def nominated (headers : List (Bytes × Bytes)) : List Bytes :=
  (values toLower headers (lit "Connection")).flatMap tokens

/-- The hop-by-hop fields of RFC 7230, section 6.1. -/
def rfcHopByHop : List Bytes :=
  [lit "connection", lit "keep-alive", lit "proxy-authenticate", lit "proxy-authorization",
    lit "te", lit "trailer", lit "transfer-encoding", lit "upgrade"]

/-- A field meant for the client. -/
def EndToEnd (headers : List (Bytes × Bytes)) (name : Bytes) : Prop :=
  toLower name ∉ rfcHopByHop ∧ toLower name ∉ nominated headers

instance (headers : List (Bytes × Bytes)) (name : Bytes) : Decidable (EndToEnd headers name) :=
  inferInstanceAs (Decidable (_ ∧ _))

theorem endToEnd_congr {headers : List (Bytes × Bytes)} {name name' : Bytes}
    (h : toLower name = toLower name') : EndToEnd headers name ↔ EndToEnd headers name' := by
  rw [EndToEnd, EndToEnd, h]

/-- `cleanHeaders` keeps all values of a field or none. -/
theorem values_cleanHeaders (headers : List (Bytes × Bytes)) (name : Bytes) :
    values toLower (cleanHeaders headers) name =
      if toLower name ∈ hopByHop then [] else values toLower headers name := by
  rw [cleanHeaders, values_filter toLower (fun n => n ∉ hopByHop)]
  by_cases h : toLower name ∈ hopByHop <;> simp [h]

/-- A header without the fields that are not meant for the client. -/
def endToEnd (headers : List (Bytes × Bytes)) : List (Bytes × Bytes) :=
  headers.filter fun e => EndToEnd headers e.1

theorem values_endToEnd (headers : List (Bytes × Bytes)) (name : Bytes) :
    values toLower (endToEnd headers) name =
      if EndToEnd headers name then values toLower headers name else [] := by
  have hfilter := values_filter toLower
    (fun n => decide (n ∉ rfcHopByHop ∧ n ∉ nominated headers)) headers name
  rw [endToEnd]
  refine hfilter.trans ?_
  by_cases h : EndToEnd headers name
  · rw [if_pos h]
    exact if_pos (decide_eq_true h)
  · rw [if_neg h]
    exact if_neg fun hd => h (of_decide_eq_true hd)

/-! ### The handler -/

/-- What the handler uses of encoding/json, over the values `V` of an `any`.  `unmarshal` is
`json.Unmarshal` into a `map[string]any`: `none` is an error, `some none` the nil map. -/
structure JsonCodec (V : Type) where
  unmarshal : Bytes → Option (Option (Bytes → Option V))
  marshal : (Bytes → Option V) → Option Bytes
  str : Bytes → V

/-- What a handler does with its writer, and how often it counts `token_rewrites`. -/
structure HubReply where
  calls : List (WriterCall Bytes Bytes UInt8)
  tokenRewrites : ℕ
deriving DecidableEq

/-- The calls that send a response. -/
def Response.calls (resp : Response) : List (WriterCall Bytes Bytes UInt8) :=
  resp.headers.map (fun e => .addHeader e.1 e.2) ++
    [.writeHeader resp.status, .write resp.body]

/-- The header of the exit of `hub` that relays a reply. -/
def passEdits (headers : List (Bytes × Bytes)) : List (WriterCall Bytes Bytes UInt8) :=
  let cl := (Multimap.get toLower headers (lit "Content-Length")).getD []
  (cleanHeaders headers).map (fun e => .addHeader e.1 e.2) ++
    if cl ≠ [] then [.setHeader (lit "Content-Length") cl] else []

def passThrough (upstream : Response) : List (WriterCall Bytes Bytes UInt8) :=
  passEdits upstream.headers ++ [.writeHeader upstream.status, .write upstream.body]

/-- The header of the exit of `hub` that rewrites a token. -/
def tokenEdits (casUrl : Bytes) (headers : List (Bytes × Bytes)) :
    List (WriterCall Bytes Bytes UInt8) :=
  let header := cleanHeaders headers
  header.map (fun e => .addHeader e.1 e.2) ++
    (if (Multimap.get toLower header (lit "X-Xet-Cas-Url")).getD [] ≠ [] then
      [.setHeader (lit "X-Xet-Cas-Url") casUrl] else []) ++
    [.setHeader (lit "Content-Type") (lit "application/json")]

def rewriteToken {V : Type} (c : JsonCodec V) (publicBase : Bytes) (upstream : Response)
    (tok : Bytes → Option V) : List (WriterCall Bytes Bytes UInt8) :=
  let casUrl := publicBase ++ lit "/cas"
  let body :=
    (c.marshal (Function.update tok (lit "casUrl") (some (c.str casUrl)))).getD upstream.body
  tokenEdits casUrl upstream.headers ++ [.writeHeader 200, .write body]

/-- `none` is a panic: the assignment to `tok["casUrl"]` of a nil map. -/
def hub {V : Type} (c : JsonCodec V) (publicBase path : Bytes) :
    Except Bytes Response → Option HubReply
  | .error err => some ⟨(httpErrWrite ⟨502, lit "hub upstream error: " ++ err⟩).calls, 0⟩
  | .ok upstream =>
    let fullPath := trimPrefix path (lit "/")
    if lit "/xet-read-token/" <:+: fullPath ∧ upstream.status = 200 then
      match c.unmarshal upstream.body with
      | none => some ⟨passThrough upstream, 0⟩
      | some none => none
      | some (some tok) => some ⟨rewriteToken c publicBase upstream tok, 1⟩
    else some ⟨passThrough upstream, 0⟩

/-- The server's side of a reply. -/
def respond (calls : List (WriterCall Bytes Bytes UInt8)) : Run (Wire Bytes Bytes UInt8) :=
  (NetHttp.healthy toLower).writer.serve calls .fresh

/-! ### The pass-through -/

/-- The header of a reply that is relayed. -/
def passedHeader (headers : List (Bytes × Bytes)) : List (Bytes × Bytes) :=
  let cl := (Multimap.get toLower headers (lit "Content-Length")).getD []
  if cl ≠ [] then Multimap.set toLower (cleanHeaders headers) (lit "Content-Length") cl
  else cleanHeaders headers

theorem isEdit_of_mem_passEdits (headers : List (Bytes × Bytes)) :
    ∀ c ∈ passEdits headers, NetHttp.isEdit c := by
  intro c hc
  rcases List.mem_append.mp hc with hc | hc
  · obtain ⟨e, -, rfl⟩ := List.mem_map.mp hc
    rfl
  · split_ifs at hc
    · rw [List.mem_singleton.mp hc]
      rfl
    · cases hc

theorem foldl_passEdits (net : NetHttp Bytes Bytes UInt8) (hnet : net.canon = toLower)
    (headers : List (Bytes × Bytes)) :
    (passEdits headers).foldl net.edit [] = passedHeader headers := by
  rw [passEdits, List.foldl_append, NetHttp.foldl_edit_addHeader, List.nil_append, passedHeader]
  by_cases hcl : (Multimap.get toLower headers (lit "Content-Length")).getD [] = []
  · rw [if_neg (not_not_intro hcl), if_neg (not_not_intro hcl)]
    rfl
  · rw [if_pos hcl, if_pos hcl, List.foldl_cons, NetHttp.edit, hnet]
    rfl

theorem respond_passThrough (upstream : Response) (hcode : NetHttp.finalCode upstream.status) :
    ∃ s, respond (passThrough upstream) = ⟨s, false⟩ ∧
      s.sent = some ((upstream.status : ℤ), passedHeader upstream.headers) ∧
      s.body = upstream.body := by
  obtain ⟨s, hserve, hsent, hbody⟩ := NetHttp.serve_edits_reply (.healthy toLower)
    _ (isEdit_of_mem_passEdits upstream.headers) hcode upstream.body (fun _ => rfl)
  rw [foldl_passEdits _ rfl] at hsent
  exact ⟨s, hserve, hsent, hbody⟩

/-- The reply a client gets for an upstream reply is that reply, its header without the fields
that are not meant for the client. -/
def Verbatim (upstream : Response) (calls : List (WriterCall Bytes Bytes UInt8)) : Prop :=
  (respond calls).panicked = false ∧ ∃ header,
    (respond calls).state.sent = some ((upstream.status : ℤ), header) ∧
    (respond calls).state.body = upstream.body ∧
    ∀ name, values toLower header name = values toLower (endToEnd upstream.headers) name

/-- The header has no `Trailer` and nominates no field that `cleanHeaders` keeps, has `Trailers`
and `Content-Encoding` only if nominated, and its `Content-Length` is one value that is not
empty, or none; nominated, it has no value or a first one that is empty. -/
structure Relayable (headers : List (Bytes × Bytes)) : Prop where
  dropped : ∀ e ∈ headers, ¬ EndToEnd headers e.1 → toLower e.1 ∈ hopByHop
  kept : ∀ name ∈ [lit "trailers", lit "content-encoding"], EndToEnd headers name →
    values toLower headers name = []
  length : if EndToEnd headers (lit "content-length") then
      values toLower headers (lit "content-length") = [] ∨
        ∃ v, v ≠ [] ∧ values toLower headers (lit "content-length") = [v]
    else (Multimap.get toLower headers (lit "content-length")).getD [] = []

theorem toLower_contentLength : toLower (lit "Content-Length") = lit "content-length" := by
  decide

/-- The values of a field of a relayed reply. -/
theorem values_passedHeader (headers : List (Bytes × Bytes)) (name : Bytes) :
    values toLower (passedHeader headers) name =
      if toLower name = lit "content-length" then
        [(Multimap.get toLower headers (lit "content-length")).getD []].filter (· ≠ [])
      else if toLower name ∈ hopByHop then [] else values toLower headers name := by
  have hget : Multimap.get toLower headers (lit "Content-Length") =
      Multimap.get toLower headers (lit "content-length") := by
    have hkey : toLower (lit "Content-Length") = toLower (lit "content-length") := by decide
    rw [Multimap.get, Multimap.get, values_congr headers hkey]
  rw [passedHeader, hget]
  by_cases hcl : (Multimap.get toLower headers (lit "content-length")).getD [] = []
  · rw [if_neg (not_not_intro hcl), values_cleanHeaders, hcl]
    by_cases hname : toLower name = lit "content-length"
    · have hmem : toLower name ∈ hopByHop := by
        rw [hname]
        decide
      rw [if_pos hmem, if_pos hname]
      rfl
    · rw [if_neg hname]
  · rw [if_pos hcl, values_set, values_cleanHeaders, toLower_contentLength]
    by_cases hname : toLower name = lit "content-length"
    · rw [if_pos hname.symm, if_pos hname]
      simp [hcl]
    · rw [if_neg (Ne.symm hname), if_neg hname]

/-- The fields of the code's list that RFC 7230 has not. -/
theorem mem_hopByHop_of_endToEnd {headers : List (Bytes × Bytes)} {name : Bytes}
    (hname : toLower name ∈ hopByHop) (hend : EndToEnd headers name) :
    toLower name = lit "content-length" ∨
      toLower name ∈ [lit "trailers", lit "content-encoding"] := by
  have hlist : ∀ n ∈ hopByHop, n ∈ rfcHopByHop ∨ n = lit "content-length" ∨
      n ∈ [lit "trailers", lit "content-encoding"] := by
    decide +kernel
  exact (hlist _ hname).resolve_left hend.1

/-- The value `cleanHeaders` takes off and `hub` sets again is the one value there is. -/
theorem restored_length_iff (vs : List Bytes) :
    [vs.head?.getD []].filter (· ≠ []) = vs ↔ vs = [] ∨ ∃ v, v ≠ [] ∧ vs = [v] := by
  cases vs with
  | nil => exact ⟨fun _ => .inl rfl, fun _ => rfl⟩
  | cons v rest =>
    rw [List.head?_cons, Option.getD_some]
    by_cases hempty : v = []
    · simp [hempty]
    · rw [List.filter_cons_of_pos (by simpa using hempty), List.filter_nil]
      constructor
      · exact fun h => .inr ⟨v, hempty, h.symm⟩
      · rintro (h | ⟨v', -, h⟩)
        · cases h
        · injection h with hv hrest
          rw [hrest]

/-- At `Content-Length` the header passes as it should exactly under `Relayable.length`. -/
theorem passed_length_iff (headers : List (Bytes × Bytes)) :
    [(Multimap.get toLower headers (lit "content-length")).getD []].filter (· ≠ []) =
        (if EndToEnd headers (lit "content-length") then
          values toLower headers (lit "content-length") else []) ↔
      if EndToEnd headers (lit "content-length") then
        values toLower headers (lit "content-length") = [] ∨
          ∃ v, v ≠ [] ∧ values toLower headers (lit "content-length") = [v]
      else (Multimap.get toLower headers (lit "content-length")).getD [] = [] := by
  by_cases hend : EndToEnd headers (lit "content-length")
  · rw [if_pos hend, if_pos hend]
    exact restored_length_iff _
  · rw [if_neg hend, if_neg hend, List.filter_eq_nil_iff]
    simp

theorem passed_headers_iff (headers : List (Bytes × Bytes)) :
    (∀ name, values toLower (passedHeader headers) name =
      values toLower (endToEnd headers) name) ↔ Relayable headers := by
  have hlength : toLower (lit "content-length") = lit "content-length" := by decide
  have hmem : lit "content-length" ∈ hopByHop := by decide +kernel
  have hfixed : ∀ n ∈ [lit "trailers", lit "content-encoding"],
      toLower n = n ∧ n ≠ lit "content-length" ∧ n ∈ hopByHop := by
    decide +kernel
  simp only [values_passedHeader, values_endToEnd]
  constructor
  · intro h
    refine ⟨fun e he hend => ?_, fun name hname hend => ?_, ?_⟩
    · by_contra hkeeps
      have hne : toLower e.1 ≠ lit "content-length" := fun heq => hkeeps (heq ▸ hmem)
      have hvalues := h e.1
      rw [if_neg hne, if_neg hkeeps, if_neg hend, values_eq_nil] at hvalues
      exact hvalues e he rfl
    · obtain ⟨hlower, hne, hhop⟩ := hfixed name hname
      have hvalues := h name
      rw [hlower, if_neg hne, if_pos hhop, if_pos hend] at hvalues
      exact hvalues.symm
    · have hvalues := h (lit "content-length")
      rw [if_pos hlength] at hvalues
      exact (passed_length_iff headers).mp hvalues
  · intro h name
    by_cases hname : toLower name = lit "content-length"
    · rw [if_pos hname, values_congr headers (hname.trans hlength.symm),
        (passed_length_iff headers).mpr h.length]
      exact if_congr (endToEnd_congr (hname.trans hlength.symm)).symm rfl rfl
    · rw [if_neg hname]
      by_cases hhop : toLower name ∈ hopByHop
      · rw [if_pos hhop]
        by_cases hend : EndToEnd headers name
        · -- a field that is to pass and is taken off: the header must not have it
          have hkept := (mem_hopByHop_of_endToEnd hhop hend).resolve_left hname
          have hlower := (hfixed _ hkept).1
          rw [if_pos hend, ← values_congr headers hlower]
          exact (h.kept _ hkept ((endToEnd_congr hlower).mpr hend)).symm
        · rw [if_neg hend]
      · rw [if_neg hhop]
        by_cases hend : EndToEnd headers name
        · rw [if_pos hend]
        · rw [if_neg hend, values_eq_nil]
          intro e he heq
          have hdropped := h.dropped e he (mt (endToEnd_congr heq).mp hend)
          exact hhop (heq ▸ hdropped)

/-! ### The exits -/

/-- What `hub` parses: the body of a token. -/
def parsedToken {V : Type} (c : JsonCodec V) (path : Bytes) (upstream : Response) :
    Option (Option (Bytes → Option V)) :=
  if lit "/xet-read-token/" <:+: trimPrefix path (lit "/") ∧ upstream.status = 200 then
    c.unmarshal upstream.body
  else none

section Exits

variable {V : Type} {c : JsonCodec V} {publicBase path : Bytes} {upstream : Response}

theorem hub_of_unparsed (h : parsedToken c path upstream = none) :
    hub c publicBase path (.ok upstream) = some ⟨passThrough upstream, 0⟩ := by
  rw [parsedToken] at h
  rw [hub]
  split_ifs at h ⊢ with hroute
  · rw [h]
  · rfl

theorem hub_of_null (h : parsedToken c path upstream = some none) :
    hub c publicBase path (.ok upstream) = none := by
  rw [parsedToken] at h
  rw [hub]
  split_ifs at h ⊢ with hroute
  rw [h]

theorem hub_of_object {tok : Bytes → Option V} (h : parsedToken c path upstream = some (some tok)) :
    hub c publicBase path (.ok upstream) =
      some ⟨rewriteToken c publicBase upstream tok, 1⟩ := by
  rw [parsedToken] at h
  rw [hub]
  split_ifs at h ⊢ with hroute
  rw [h]

/-- A reply that does not rewrite a token is the pass-through. -/
theorem hub_passes {calls : List (WriterCall Bytes Bytes UInt8)}
    (h : hub c publicBase path (.ok upstream) = some ⟨calls, 0⟩) :
    calls = passThrough upstream := by
  cases hparsed : parsedToken c path upstream with
  | none =>
    rw [hub_of_unparsed hparsed] at h
    exact (congrArg HubReply.calls (Option.some.inj h)).symm
  | some tok =>
    cases tok with
    | none =>
      rw [hub_of_null hparsed] at h
      cases h
    | some tok =>
      rw [hub_of_object hparsed] at h
      cases congrArg HubReply.tokenRewrites (Option.some.inj h)

end Exits

/-- encoding/json on one text, for runs on fixed replies. -/
def tokenCodec : JsonCodec Bytes where
  unmarshal body :=
    if body = lit "\x7b\"casUrl\":\"https://cas\"\x7d" then
      some (some fun k => if k = lit "casUrl" then some (lit "https://cas") else none)
    else if body = lit "\x7b\"casUrl\":\"http://shim/cas\"\x7d" then
      some (some fun k => if k = lit "casUrl" then some (lit "http://shim/cas") else none)
    else if body = lit "null" then some none
    else none
  marshal tok :=
    (tok (lit "casUrl")).map fun s => lit "\x7b\"casUrl\":\"" ++ s ++ lit "\"\x7d"
  str s := s

/-- The `HEAD` of a file without LFS. -/
def headReply : Response :=
  ⟨307, [(lit "Content-Length", lit "861"), (lit "Location", lit "/api/resolve-cache")], []⟩

end XetDcCache
