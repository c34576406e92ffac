/-
The way into a node (main.go, middleware.go).

`handle` is what becomes of a request before a handler of the repository runs: `withAuth` checks the
peer channel, and the mux of main.go takes the path apart.

* `mux_reaches` — the handlers and the paths that lead to them;
* `peer_channel_guarded` — what a sibling without the secret can reach.
-/
import XetDcCache.ServeMux
import XetDcCache.HubTarget
import XetDcCache.Middleware
import XetDcCache.ManifestPaths
import XetDcCache.GetXorb

namespace XetDcCache

open ServeMux NetUrl PathEscape

/-! ### The mux -/

/-- A request as a server has read it. -/
structure HttpRequest where
  method : Bytes
  url : NetUrl.Url
  headers : List (Bytes × Bytes)
deriving DecidableEq

def HttpRequest.header (r : HttpRequest) (name : String) : Bytes :=
  (Multimap.get toLower r.headers (lit name)).getD []

/-- The handlers of main.go. -/
inductive Endpoint
  | healthz
  | metrics
  | prometheus
  | xorb
  | reconstruction
  | hub
deriving DecidableEq, Repr

/-- The patterns of main.go; all are for `GET`. -/
def routes : ServeMux.Node Endpoint :=
  [([.literal (lit "healthz")], .healthz),
    ([.literal (lit "metrics")], .metrics),
    ([.literal (lit "metrics"), .literal (lit "prometheus")], .prometheus),
    ([.literal (lit "xorb"), .literal (lit "xorbs"), .literal (lit "default"), .single], .xorb),
    ([.literal (lit "cas"), .single, .literal (lit "reconstructions"), .single], .reconstruction),
    ([.multi], .hub)]

/-- What becomes of a request: a reply of net/http or of `withAuth`, or a handler with the values of
its wildcards. -/
inductive Routed
  | badRequest
  | movedPermanently (path rawQuery : Bytes)
  | methodNotAllowed
  | notFound
  | unauthorized
  | to (e : Endpoint) (values : List Bytes)
deriving DecidableEq

/-- net/http's `cleanPath`. -/
def cleanPath (p : Bytes) : Bytes :=
  if p = [] then lit "/"
  else
    let p := if p.head? = some 47 then p else 47 :: p
    let np := clean p
    if p.getLast? = some 47 ∧ np ≠ lit "/" then np ++ lit "/" else np

/-- The `GET` patterns serve `HEAD` too. -/
def servesGet (method : Bytes) : Bool := method = lit "GET" || method = lit "HEAD"

/-- The path a request is matched by. -/
def canonicalPath (r : HttpRequest) : Bytes :=
  if r.method = lit "CONNECT" then r.url.escapedPath else cleanPath r.url.escapedPath

def matchMethodAndPath (method path : Bytes) : Option (Endpoint × List Bytes) :=
  if servesGet method then matchPath (segments path) routes else none

/-- A path that some pattern matches, for whatever method. -/
def matched (path : Bytes) : Bool := (matchPath (segments path) routes).isSome

/-- `ServeMux.ServeHTTP` and `findHandler`, for patterns without a host of which none but `/` ends
in a slash. -/
def mux (r : HttpRequest) : Routed :=
  let path := canonicalPath r
  if r.url.path = lit "*" then .badRequest
  else if path ≠ r.url.escapedPath then .movedPermanently path r.url.rawQuery
  else
    match matchMethodAndPath r.method path with
    | some (e, values) => .to e values
    | none =>
      if matched path || (path.getLast? ≠ some 47 && matched (path ++ lit "/")) then
        .methodNotAllowed
      else .notFound

/-! ### The peer channel -/

def isPeerRequest (r : HttpRequest) : Bool := r.header "X-Xet-Peer" = lit "1"

def withAuth (token : Bytes) (next : HttpRequest → Routed) (r : HttpRequest) : Routed :=
  if token = [] then next r
  else if !isPeerRequest r || isOperationalPath r.url.path then next r
  else if r.header "Authorization" ≠ lit "Bearer " ++ token then .unauthorized
  else next r

def handle (authToken : Bytes) : HttpRequest → Routed := withAuth authToken mux

/-- A request for a xorb, if it gets to `getXorb`. -/
def toXorb (r : HttpRequest) : Routed → Option Request
  | .to .xorb [hash] =>
    some ⟨if r.method = lit "HEAD" then .head else .get, hash, r.header "Range", isPeerRequest r⟩
  | _ => none

theorem toXorb_eq_some_iff {r : HttpRequest} {x : Routed} {q : Request} :
    toXorb r x = some q ↔ ∃ hash, x = .to .xorb [hash] ∧
      q = ⟨if r.method = lit "HEAD" then .head else .get, hash, r.header "Range",
        isPeerRequest r⟩ := by
  constructor
  · intro h
    rw [toXorb.eq_def] at h
    split at h
    · next hash => exact ⟨hash, rfl, (Option.some.inj h).symm⟩
    · cases h
  · rintro ⟨hash, rfl, rfl⟩
    rfl

/-! ### The paths of the handlers -/

/-- The path of a xorb. -/
def xorbPath (hash : Bytes) : Bytes := lit "/xorb/xorbs/default/" ++ hash

/-- The path of a manifest. -/
def reconstructionPath (version fileID : Bytes) : Bytes :=
  lit "/cas/" ++ version ++ lit "/reconstructions/" ++ fileID

theorem xorbPath_segments (hash : Bytes) :
    47 :: [47].intercalate [lit "xorb", lit "xorbs", lit "default", hash] = xorbPath hash := by
  simp [xorbPath, lit, List.intercalate]

theorem reconstructionPath_segments (version fileID : Bytes) :
    47 :: [47].intercalate [lit "cas", version, lit "reconstructions", fileID] =
      reconstructionPath version fileID := by
  simp [reconstructionPath, lit, List.intercalate]

/-- The values with which a handler runs, and the path of the URL. -/
inductive Reaches : Endpoint → List Bytes → Bytes → Prop
  | healthz : Reaches .healthz [] (lit "/healthz")
  | metrics : Reaches .metrics [] (lit "/metrics")
  | prometheus : Reaches .prometheus [] (lit "/metrics/prometheus")
  | xorb {hash} : hash ≠ [47] → Reaches .xorb [hash] (xorbPath hash)
  | reconstruction {version fileID} : version ≠ [47] → fileID ≠ [47] →
      Reaches .reconstruction [version, fileID] (reconstructionPath version fileID)
  | hub {path} : Reaches .hub [] path

theorem routes_functional : Functional routes := functional_of_nodup (by decide +kernel)

theorem Reaches.xorb_path {hash path : Bytes} (h : Reaches .xorb [hash] path) :
    path = xorbPath hash := by
  cases h
  rfl

/-- A path that is clean begins with a slash. -/
theorem cleanPath_slash {p : Bytes} (h : cleanPath p = p) : ∃ path, p = 47 :: path := by
  cases p with
  | nil => cases h
  | cons c p =>
    have hclean (q : Bytes) : ∃ path, clean (47 :: q) = 47 :: path := by
      have hrooted : rooted (47 :: q) = true := by simp [rooted, lit_slash]
      exact ⟨_, by rw [clean_eq, hrooted, render, if_pos rfl, lit_slash]; rfl⟩
    rw [cleanPath, if_neg (List.cons_ne_nil c p)] at h
    by_cases hc : (c :: p).head? = some 47
    · exact ⟨p, by rw [Option.some.inj hc]⟩
    · simp only [if_neg hc] at h
      obtain ⟨path, hpath⟩ := hclean (c :: p)
      rw [hpath] at h
      split_ifs at h <;> exact ⟨_, h.symm⟩

/-- The text of a path denotes it. -/
theorem unescape_escapedPath (u : NetUrl.Url) : unescape u.escapedPath = some u.path := by
  rw [Url.escapedPath]
  split_ifs with hraw hstar
  · exact hraw.2.2
  · rw [hstar]
    rfl
  · exact unescape_escape u.path

section Mux

variable {r : HttpRequest} {e : Endpoint} {vs : List Bytes}

/-- A request that the mux gives to a handler. -/
theorem mux_eq_to_iff : mux r = .to e vs ↔
    r.url.path ≠ lit "*" ∧ servesGet r.method = true ∧
      cleanPath r.url.escapedPath = r.url.escapedPath ∧
      matchPath (segments r.url.escapedPath) routes = some (e, vs) := by
  have hconnect (hget : servesGet r.method = true) :
      canonicalPath r = cleanPath r.url.escapedPath := by
    refine if_neg fun heq => ?_
    rw [heq] at hget
    revert hget
    decide
  constructor
  · intro h
    rw [mux] at h
    by_cases hstar : r.url.path = lit "*"
    · rw [if_pos hstar] at h
      cases h
    · rw [if_neg hstar] at h
      by_cases hclean : canonicalPath r = r.url.escapedPath
      · rw [if_neg (not_not_intro hclean), matchMethodAndPath, hclean] at h
        by_cases hget : servesGet r.method = true
        · rw [if_pos hget] at h
          cases hm : matchPath (segments r.url.escapedPath) routes with
          | some m =>
            rw [hm] at h
            obtain rfl : m = (e, vs) := by
              injection h with he hvs
              exact Prod.ext he hvs
            exact ⟨hstar, hget, hconnect hget ▸ hclean, rfl⟩
          | none =>
            rw [hm] at h
            simp only at h
            split_ifs at h
        · rw [if_neg hget] at h
          simp only at h
          split_ifs at h
      · rw [if_pos hclean] at h
        cases h
  · rintro ⟨hstar, hget, hclean, hm⟩
    have hcanonical := (hconnect hget).trans hclean
    have hmatch : matchMethodAndPath r.method r.url.escapedPath = some (e, vs) :=
      (if_pos hget).trans hm
    rw [mux, if_neg hstar, hcanonical, if_neg (not_not_intro rfl), hmatch]

/-- What a handler is called with comes from the path of the URL, however that is spelled. -/
theorem mux_reaches (h : mux r = .to e vs) : Reaches e vs r.url.path := by
  have hread := unescape_escapedPath r.url
  obtain ⟨-, -, hclean, hm⟩ := mux_eq_to_iff.mp h
  obtain ⟨path, hpath⟩ := cleanPath_slash hclean
  rw [hpath] at hread hm
  obtain ⟨p, hp, hmatch, -⟩ := (matchPath_spec _ _).1 _ hm
  have hjoin {segs : List Bytes} (hsegs : segments (47 :: path) = segs)
      (hlast : segs.getLast? ≠ some [47]) : r.url.path = 47 :: [47].intercalate segs := by
    rw [← hsegs] at hlast ⊢
    exact path_of_segments hread hlast
  simp only [routes, List.mem_cons, Prod.mk.injEq, List.not_mem_nil, or_false] at hp
  rcases hp with ⟨rfl, rfl⟩ | ⟨rfl, rfl⟩ | ⟨rfl, rfl⟩ | ⟨rfl, rfl⟩ | ⟨rfl, rfl⟩ | ⟨rfl, rfl⟩
  · simp only [matches_literal_iff, matches_nil_iff] at hmatch
    obtain ⟨rest, hsegs, rfl, rfl⟩ := hmatch
    rw [hjoin hsegs (by decide)]
    exact .healthz
  · simp only [matches_literal_iff, matches_nil_iff] at hmatch
    obtain ⟨rest, hsegs, rfl, rfl⟩ := hmatch
    rw [hjoin hsegs (by decide)]
    exact .metrics
  · simp only [matches_literal_iff, matches_nil_iff] at hmatch
    obtain ⟨rest, hsegs, rest', rfl, rfl, rfl⟩ := hmatch
    rw [hjoin hsegs (by decide)]
    exact .prometheus
  · simp only [matches_literal_iff, matches_single_iff, matches_nil_iff] at hmatch
    obtain ⟨_, hsegs, _, rfl, _, rfl, hash, _, _, hhash, rfl, rfl, rfl, rfl⟩ := hmatch
    rw [hjoin hsegs (by simpa using hhash)]
    exact xorbPath_segments hash ▸ .xorb hhash
  · simp only [matches_literal_iff, matches_single_iff, matches_nil_iff] at hmatch
    obtain ⟨_, hsegs, v, _, _, hv, rfl, rfl, _, rfl, f, _, _, hf, rfl, rfl, rfl, rfl⟩ := hmatch
    rw [hjoin hsegs (by simpa using hf)]
    exact reconstructionPath_segments v f ▸ .reconstruction hv hf
  · obtain ⟨-, rfl⟩ := matches_multi_iff.mp hmatch
    exact .hub

end Mux

/-! ### The way to `getXorb` -/

theorem match_xorb {hash : Bytes} (h : hash ≠ [47]) :
    matchPath [lit "xorb", lit "xorbs", lit "default", hash] routes = some (.xorb, [hash]) := by
  refine (matchPath_eq_some_iff routes_functional).mpr
    ⟨[.literal (lit "xorb"), .literal (lit "xorbs"), .literal (lit "default"), .single],
      by simp [routes], by simp [h], fun q e vs hq hvs => ?_⟩
  simp only [routes, List.mem_cons, Prod.mk.injEq, List.not_mem_nil, or_false] at hq
  rcases hq with ⟨rfl, -⟩ | ⟨rfl, -⟩ | ⟨rfl, -⟩ | ⟨rfl, -⟩ | ⟨rfl, -⟩ | ⟨rfl, -⟩
  · simp at hvs
  · simp at hvs
  · simp at hvs
  · simp [Precedes]
  · simp [lit] at hvs
  · exact .inl Nat.two_pos

theorem match_reconstruction {version fileID : Bytes} (hv : version ≠ [47]) (hf : fileID ≠ [47]) :
    matchPath [lit "cas", version, lit "reconstructions", fileID] routes =
      some (.reconstruction, [version, fileID]) := by
  refine (matchPath_eq_some_iff routes_functional).mpr
    ⟨[.literal (lit "cas"), .single, .literal (lit "reconstructions"), .single],
      by simp [routes], by simp [hv, hf], fun q e vs hq hvs => ?_⟩
  simp only [routes, List.mem_cons, Prod.mk.injEq, List.not_mem_nil, or_false] at hq
  rcases hq with ⟨rfl, -⟩ | ⟨rfl, -⟩ | ⟨rfl, -⟩ | ⟨rfl, -⟩ | ⟨rfl, -⟩ | ⟨rfl, -⟩
  · simp at hvs
  · simp at hvs
  · simp at hvs
  · simp [lit] at hvs
  · simp [Precedes]
  · exact .inl Nat.two_pos

/-- What is not the request target `*`. -/
theorem path_ne_star {r : HttpRequest}
    (hclean : cleanPath r.url.escapedPath = r.url.escapedPath) : r.url.path ≠ lit "*" := by
  intro hstar
  obtain ⟨path, hpath⟩ := cleanPath_slash hclean
  have hread := unescape_escapedPath r.url
  rw [hpath, hstar, unescape_cons (by decide), Option.map_eq_some_iff] at hread
  obtain ⟨d, -, hd⟩ := hread
  exact absurd (List.cons.inj hd).1 (by decide)

theorem mux_xorb_iff {r : HttpRequest} {hash : Bytes} : mux r = .to .xorb [hash] ↔
    servesGet r.method = true ∧ cleanPath r.url.escapedPath = r.url.escapedPath ∧
      segments r.url.escapedPath = [lit "xorb", lit "xorbs", lit "default", hash] ∧
        hash ≠ [47] := by
  rw [mux_eq_to_iff]
  constructor
  · rintro ⟨-, hget, hclean, hm⟩
    obtain ⟨p, hp, hmatch, -⟩ := (matchPath_spec _ _).1 _ hm
    simp only [routes, List.mem_cons, Prod.mk.injEq, List.not_mem_nil, or_false, reduceCtorEq,
      and_false, and_true, false_or] at hp
    subst hp
    simp only [matches_literal_iff, matches_single_iff, matches_nil_iff] at hmatch
    obtain ⟨_, hsegs, _, rfl, _, rfl, v, _, _, hv, rfl, heq, rfl, rfl⟩ := hmatch
    obtain rfl := (List.cons.inj heq).1
    exact ⟨hget, hclean, hsegs, hv⟩
  · rintro ⟨hget, hclean, hsegs, hhash⟩
    exact ⟨path_ne_star hclean, hget, hclean, hsegs ▸ match_xorb hhash⟩

theorem segments_xorbPath (q : Bytes) : segments (xorbPath q) =
    lit "xorb" :: lit "xorbs" :: lit "default" :: segments (47 :: q) := by
  have hpath : xorbPath q =
      47 :: (lit "xorb" ++ 47 :: (lit "xorbs" ++ 47 :: (lit "default" ++ 47 :: q))) := by
    simp [xorbPath, lit]
  have hread (s : Bytes) (hs : 37 ∉ s) : pathUnescape s = s := by
    rw [pathUnescape, unescape_of_no_percent hs]
    rfl
  rw [hpath, segments_cons (by decide), segments_cons (by decide), segments_cons (by decide),
    hread _ (by decide), hread _ (by decide), hread _ (by decide)]

/-- A path of file names is clean. -/
theorem cleanPath_render {es : List Bytes} (hes : ∀ e ∈ es, FileName e) (hne : es ≠ []) :
    cleanPath (render true es) = render true es := by
  have hrender : render true es = 47 :: [47].intercalate es := by
    rw [render, if_pos rfl, lit_slash]
    rfl
  have hrooted : rooted (render true es) = true := by
    rw [hrender]
    simp [rooted, lit_slash]
  have hwalk (l acc : List Bytes) (hl : ∀ e ∈ l, FileName e) :
      l.foldl (cleanElem true) acc = l.reverse ++ acc := by
    induction l generalizing acc with
    | nil => rfl
    | cons e l ih =>
      rw [List.foldl_cons, cleanElem_fileName (hl e List.mem_cons_self),
        ih _ fun x hx => hl x (List.mem_cons_of_mem _ hx), List.reverse_cons, List.append_assoc]
      rfl
  have hsplit : (render true es).splitOn 47 = [] :: es :=
    splitOn_render (fun e he => (hes e he).isElem) hne
  have hclean : clean (render true es) = render true es := by
    rw [clean_eq, elems, hrooted, hsplit, List.foldl_cons]
    have hroot : cleanElem true [] [] = [] := rfl
    rw [hroot, hwalk es [] hes, List.append_nil, List.reverse_reverse]
  have hlast : (render true es).getLast? ≠ some 47 := by
    intro h
    obtain ⟨l, hl⟩ := List.getLast?_eq_some_iff.mp h
    rw [hl, List.splitOn_append_cons_self, List.splitOn_nil] at hsplit
    have hend := congrArg List.getLast? hsplit
    obtain ⟨e, es', rfl⟩ := List.exists_cons_of_ne_nil hne
    rw [List.getLast?_concat, List.getLast?_cons_cons] at hend
    exact (hes [] (List.mem_of_getLast? hend.symm)).ne_nil rfl
  rw [cleanPath, if_neg (by rw [hrender]; exact List.cons_ne_nil _ _)]
  simp only [hrender, List.head?_cons, if_true]
  rw [← hrender, if_neg fun h => hlast h.1, hclean]

/-! ### The guard -/

/-- The hub sees no other operational paths than those below `/metrics/`. -/
theorem metrics_prefix_of_hub {r : HttpRequest} {vs : List Bytes} (h : mux r = .to .hub vs)
    (hpath : isOperationalPath r.url.path = true) : lit "/metrics/" <+: r.url.path := by
  obtain ⟨-, -, hclean, hm⟩ := mux_eq_to_iff.mp h
  obtain ⟨path, hescaped⟩ := cleanPath_slash hclean
  have hread := unescape_escapedPath r.url
  rw [hescaped] at hm hread
  rw [unescape_cons (by decide), Option.map_eq_some_iff] at hread
  obtain ⟨d, hd, hslash⟩ := hread
  have hone (w : Bytes) (hw : r.url.path = 47 :: w) (hno : 47 ∉ w) (hne : w ≠ []) :
      (matchPath [w] routes).map Prod.fst = some .hub := by
    rw [hw] at hslash
    obtain rfl := (List.cons.inj hslash).2
    rw [segments_of_no_slash hd hno hne] at hm
    rw [hm, Option.map_some]
  simp only [isOperationalPath, Bool.or_eq_true, decide_eq_true_eq] at hpath
  rcases hpath with (hpath | hpath) | hpath
  · exact absurd (hone (lit "healthz") hpath (by decide) (by decide)) (by decide +kernel)
  · exact absurd (hone (lit "metrics") hpath (by decide) (by decide)) (by decide +kernel)
  · exact List.isPrefixOf_iff_prefix.mp hpath

theorem Reaches.operational {e : Endpoint} {vs : List Bytes} {path : Bytes} (h : Reaches e vs path)
    (he : e = .xorb ∨ e = .reconstruction) : isOperationalPath path = false := by
  cases h with
  | xorb => simp [isOperationalPath, xorbPath, lit, List.isPrefixOf]
  | reconstruction => simp [isOperationalPath, reconstructionPath, lit, List.isPrefixOf]
  | _ => rcases he with he | he <;> cases he

theorem mux_ne_unauthorized (r : HttpRequest) : mux r ≠ .unauthorized := by
  rw [mux]
  split_ifs
  · rintro ⟨⟩
  · rintro ⟨⟩
  all_goals cases matchMethodAndPath r.method (canonicalPath r) <;> rintro ⟨⟩

/-- Only the peer channel asks for the secret. -/
theorem handle_eq (token : Bytes) (r : HttpRequest) : handle token r =
    if token ≠ [] ∧ isPeerRequest r = true ∧ isOperationalPath r.url.path = false ∧
      r.header "Authorization" ≠ lit "Bearer " ++ token then .unauthorized else mux r := by
  rw [handle, withAuth]
  by_cases htoken : token = []
  · rw [if_pos htoken, if_neg fun h => h.1 htoken]
  · rw [if_neg htoken]
    cases isPeerRequest r <;> cases isOperationalPath r.url.path <;> simp [htoken]

/-- The secret guards the peer channel, however a path is spelled: a sibling without it can make a
node answer about its health and its counters, or relay a path below `/metrics/`, and nothing else;
whoever is not refused is served as without a secret. -/
theorem peer_channel_guarded (token : Bytes) (r : HttpRequest) :
    (handle token r = .unauthorized ↔
      token ≠ [] ∧ isPeerRequest r = true ∧ isOperationalPath r.url.path = false ∧
        r.header "Authorization" ≠ lit "Bearer " ++ token) ∧
    (handle token r ≠ .unauthorized → handle token r = mux r) ∧
    ∀ e vs, handle token r = .to e vs → token ≠ [] → isPeerRequest r = true →
      r.header "Authorization" ≠ lit "Bearer " ++ token →
      e = .healthz ∨ e = .metrics ∨ e = .prometheus ∨
        e = .hub ∧ lit "/metrics/" <+: r.url.path := by
  have hhandle := handle_eq token r
  have hmux := mux_ne_unauthorized r
  refine ⟨?_, fun h => ?_, fun e vs h htoken hpeer hauth => ?_⟩
  · rw [hhandle]
    split_ifs with h
    · exact iff_of_true rfl h
    · exact iff_of_false hmux h
  · rw [hhandle] at h ⊢
    split_ifs at h ⊢
    · exact absurd rfl h
    · rfl
  · have hop : isOperationalPath r.url.path = true := by
      by_contra hop
      rw [hhandle, if_pos ⟨htoken, hpeer, by simpa using hop, hauth⟩] at h
      cases h
    rw [hhandle, if_neg (by simp [hop])] at h
    have hreaches := mux_reaches h
    cases e with
    | healthz => exact .inl rfl
    | metrics => exact .inr (.inl rfl)
    | prometheus => exact .inr (.inr (.inl rfl))
    | xorb => cases hop.symm.trans (hreaches.operational (.inl rfl))
    | reconstruction => cases hop.symm.trans (hreaches.operational (.inr rfl))
    | hub => exact .inr (.inr (.inr ⟨rfl, metrics_prefix_of_hub h hop⟩))

end XetDcCache
