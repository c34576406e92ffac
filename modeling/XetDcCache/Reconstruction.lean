/-
The reconstruction handler (reconstruction.go) over runs of requests and restarts.

A request is answered from the upstream, or from the manifest cache where the upstream cannot be
reached.  `ReconState.step` is the handler with the halves of its `Put` apart, so that any number
of requests may overlap.

* `offline_manifests_coherent_iff` — what is served offline is what was cached for that request,
  as long as `path` tells the requests apart;
* `manifest_files_confined_iff` — the requests whose files stay in the directory of the cache.
-/
import XetDcCache.GetXorb
import XetDcCache.ManifestPaths
import XetDcCache.Transition

namespace XetDcCache

open Transition

/-! ### Manifests -/

/-- What `json.Unmarshal` stores in an `any`; a number is its text. -/
inductive Json
  | null
  | bool (b : Bool)
  | num (text : Bytes)
  | str (s : Bytes)
  | arr (elems : List Json)
  | obj (members : List (Bytes × Json))

/-- A `map[string]any`. -/
abbrev Manifest := List (Bytes × Json)

/-- The assignment `m[key] = value` to a key that is there. -/
def Manifest.replace (m : Manifest) (key : Bytes) (value : Json) : Manifest :=
  m.map fun e => if e.1 = key then (key, value) else e

/-- One entry of a xorb: a url is replaced by one of ours. -/
def rewriteEntry (link : Bytes) : Json → Json
  | .obj e =>
    match e.lookup (lit "url") with
    | some (.str _) => .obj (Manifest.replace e (lit "url") (.str link))
    | _ => .obj e
  | e => e

def rewriteXorb (publicBase hash : Bytes) : Json → Json
  | .arr entries =>
    .arr (entries.map (rewriteEntry (publicBase ++ lit "/xorb/xorbs/default/" ++ hash)))
  | entries => entries

def rewriteManifest (publicBase : Bytes) (m : Manifest) : Manifest :=
  match m.lookup (lit "xorbs") with
  | some (.obj xorbs) =>
    Manifest.replace m (lit "xorbs") (.obj (xorbs.map fun e => (e.1, rewriteXorb publicBase e.1 e.2)))
  | _ => m

/-! ### The handler -/

/-- What a request gets from the upstream; `json` is what `json.Unmarshal` makes of the body, and
`null` is the manifest `none`. -/
inductive CasReply
  | unbuilt
  | unreachable
  | replied (resp : Response) (json : Option (Option Manifest))

inductive ReconAnswer
  | relayed (resp : Response)
  | manifest (status : ℕ) (m : Option Manifest)
  | error (e : HttpError)

/-- `strings.ToLower` of a header name. -/
def toLower (name : Bytes) : Bytes := name.map fun c => if 65 ≤ c && c ≤ 90 then c + 32 else c

def hopByHop : List Bytes :=
  [lit "connection", lit "keep-alive", lit "proxy-authenticate", lit "proxy-authorization",
    lit "te", lit "trailers", lit "transfer-encoding", lit "upgrade", lit "content-encoding",
    lit "content-length"]

def cleanHeaders (headers : List (Bytes × Bytes)) : List (Bytes × Bytes) :=
  headers.filter fun e => toLower e.1 ∉ hopByHop

/-- The answer of `reconstruction`, and the manifest it calls `Put` with. -/
def reconstruction (publicBase : Bytes) (m : ManifestCache)
    (files : ManifestFiles (Option Manifest)) (k : ManifestKey) :
    CasReply → ReconAnswer × Option (Option Manifest)
  | .unbuilt => (.error ⟨502, lit "reconstruction request build failed"⟩, none)
  | .unreachable =>
    match m.get k files with
    | some cached => (.manifest 200 (some cached), none)
    | none => (.error ⟨502, lit "reconstruction upstream unreachable and not cached"⟩, none)
  | .replied resp json =>
    if resp.status ≠ 200 then
      (.relayed { resp with headers := cleanHeaders resp.headers }, none)
    else
      match json with
      | none => (.error ⟨502, lit "malformed reconstruction manifest"⟩, none)
      | some manifest =>
        let manifest := manifest.map (rewriteManifest publicBase)
        (.manifest 200 manifest, some manifest)

/-! ### Runs -/

/-- `cached` is the history of the manifests renamed into place. -/
structure ReconState where
  store : ManifestStore (Option Manifest)
  cached : List (ManifestKey × Option Manifest)

/-- `request` is the handler up to the rename of its `Put`, and `writes` says whether that gets
through; `index` is the rest of a `Put`. -/
inductive ReconAct
  | request (k : ManifestKey) (reply : CasReply) (writes : Bool)
  | index (i : ℕ) (removes : Path → Bool)
  | restart (infos : List Path) (removes : Path → Bool)

namespace ReconState

/-- `newManifestCache` on an empty directory. -/
def start (dir : Bytes) (max : ℤ) : ReconState := ⟨⟨⟨dir, max, [], ∅⟩, ∅, []⟩, []⟩

def answer (publicBase : Bytes) (s : ReconState) (k : ManifestKey) (reply : CasReply) :
    ReconAnswer × Option (Option Manifest) :=
  reconstruction publicBase s.store.cache s.store.files k reply

def step (publicBase : Bytes) (s : ReconState) : ReconAct → Option ReconState
  | .request k reply writes =>
    match (s.answer publicBase k reply).2 with
    | some manifest =>
      if writes then some ⟨s.store.rename k manifest, s.cached ++ [(k, manifest)]⟩ else some s
    | none => some s
  | .index i removes => (s.store.index i removes).map fun store => { s with store := store }
  | .restart infos removes => some { s with store := s.store.restart infos removes }

/-- The manifest most recently cached for a request. -/
def lastCached (s : ReconState) (k : ManifestKey) : Option (Option Manifest) :=
  (s.cached.reverse.find? fun e => e.1 = k).map Prod.snd

/-- Offline a request is served what was last cached for it, or 502; what the upstream answers
but 200 is relayed. -/
def Coherent (publicBase : Bytes) (s : ReconState) : ReconAct → Prop
  | .request k .unreachable _ =>
    (∃ msg, (s.answer publicBase k .unreachable).1 = .error ⟨502, msg⟩) ∨
      ∃ m, s.lastCached k = some (some m) ∧
        (s.answer publicBase k .unreachable).1 = .manifest 200 (some m)
  | .request k (.replied resp json) _ => resp.status ≠ 200 →
    (s.answer publicBase k (.replied resp json)).1 =
      .relayed { resp with headers := cleanHeaders resp.headers }
  | _ => True

end ReconState

/-- The request of an action. -/
def ReconAct.key : ReconAct → Option ManifestKey
  | .request k _ _ => some k
  | _ => none

/-! ### What a step can do -/

/-- The steps of a run. -/
inductive ReconState.Moves (publicBase : Bytes) (s : ReconState) : ReconAct → ReconState → Prop
  | pass (k : ManifestKey) (reply : CasReply) (writes : Bool) :
    Moves publicBase s (.request k reply writes) s
  | put {k : ManifestKey} {resp : Response} {json : Option (Option Manifest)}
    (manifest : Option Manifest)
    (hput : (s.answer publicBase k (.replied resp json)).2 = some manifest) :
    Moves publicBase s (.request k (.replied resp json) true)
      ⟨s.store.rename k manifest, s.cached ++ [(k, manifest)]⟩
  | index {i : ℕ} {p : Path} (removes : Path → Bool) (hp : s.store.putting[i]? = some p) :
    Moves publicBase s (.index i removes)
      { s with store := ⟨(s.store.cache.putLocked p removes s.store.files).1,
          (s.store.cache.putLocked p removes s.store.files).2, s.store.putting.eraseIdx i⟩ }
  | restart (infos : List Path) (removes : Path → Bool) :
    Moves publicBase s (.restart infos removes) { s with store := s.store.restart infos removes }

section Steps

variable {publicBase : Bytes} {s s' : ReconState} {a : ReconAct}

/-- Offline the answer is what `Get` finds, or 502, and nothing is cached. -/
theorem ReconState.answer_unreachable (k : ManifestKey) :
    s.answer publicBase k .unreachable =
      (match s.store.cache.get k s.store.files with
        | some cached => .manifest 200 (some cached)
        | none => .error ⟨502, lit "reconstruction upstream unreachable and not cached"⟩, none) := by
  simp only [answer, reconstruction]
  cases s.store.cache.get k s.store.files <;> rfl

theorem ReconState.step_moves (h : s.step publicBase a = some s') : s.Moves publicBase a s' := by
  cases a with
  | request k reply writes =>
    simp only [step] at h
    cases hput : (s.answer publicBase k reply).2 with
    | none =>
      rw [hput] at h
      cases h
      exact .pass k reply writes
    | some manifest =>
      rw [hput] at h
      cases writes with
      | false =>
        cases h
        exact .pass k reply false
      | true =>
        cases h
        cases reply with
        | unbuilt => cases hput
        | unreachable =>
          rw [answer_unreachable] at hput
          cases hput
        | replied resp json => exact .put manifest hput
  | index i removes =>
    obtain ⟨store, hstore, rfl⟩ := Option.map_eq_some_iff.mp h
    obtain ⟨p, hp, rfl⟩ := ManifestStore.index_eq_some.mp hstore
    exact .index removes hp
  | restart infos removes =>
    cases h
    exact .restart infos removes

@[simp] theorem ReconState.lastCached_concat (store : ManifestStore (Option Manifest))
    (cached : List (ManifestKey × Option Manifest)) (e : ManifestKey × Option Manifest)
    (k : ManifestKey) :
    lastCached ⟨store, cached ++ [e]⟩ k =
      if e.1 = k then some e.2 else lastCached ⟨store, cached⟩ k := by
  rw [lastCached, lastCached, List.reverse_append, List.reverse_singleton, List.singleton_append,
    List.find?_cons]
  by_cases h : e.1 = k <;> simp [h]

/-! ### What is served offline -/

/-- Every file holds what was last cached for a request of `K`. -/
structure ReconState.Inv (dir : Bytes) (K : Set ManifestKey) (s : ReconState) : Prop where
  inDir : s.store.cache.dir = dir
  files : ∀ {p v}, s.store.files.lookup p = some v →
    ∃ k ∈ K, ManifestCache.pathIn dir k = p ∧ s.lastCached k = some v

variable {dir : Bytes} {K : Set ManifestKey}

theorem ReconState.Inv.step (hI : s.Inv dir K) (hkey : ∀ k ∈ a.key, k ∈ K)
    (h : s.step publicBase a = some s') : s'.Inv dir K := by
  cases step_moves h with
  | pass => exact hI
  | @put k resp json manifest hput =>
    have hpath : s.store.cache.path k = ManifestCache.pathIn dir k := by
      rw [ManifestCache.path, hI.inDir]
    refine ⟨hI.inDir, fun {p v} hv => ?_⟩
    simp only [ManifestStore.rename, hpath] at hv
    by_cases hp : p = ManifestCache.pathIn dir k
    · rw [hp, AList.lookup_insert, Option.some_inj] at hv
      exact ⟨k, hkey k rfl, hp.symm, by rw [lastCached_concat, if_pos rfl, hv]⟩
    · -- the file of another path is that of another request
      rw [AList.lookup_insert_ne hp] at hv
      obtain ⟨k', hk', hpath', hlast⟩ := hI.files hv
      have hne : k ≠ k' := fun heq => hp (by rw [heq, hpath'])
      exact ⟨k', hk', hpath', by rw [lastCached_concat, if_neg hne]; exact hlast⟩
  | index removes hp =>
    exact ⟨by rw [ManifestCache.putLocked_dir]; exact hI.inDir,
      fun hv => hI.files (ManifestCache.putLocked_files hv)⟩
  | restart infos removes =>
    exact ⟨by rw [ManifestStore.restart, ManifestCache.new_dir]; exact hI.inDir,
      fun hv => hI.files (ManifestCache.new_files hv)⟩

/-- Where `path` tells the requests apart, a request finds what was cached for it. -/
theorem ReconState.Inv.coherent (hinj : Set.InjOn (ManifestCache.pathIn dir) K)
    (hI : s.Inv dir K) (hkey : ∀ k ∈ a.key, k ∈ K) : s.Coherent publicBase a := by
  cases a with
  | request k reply writes =>
    cases reply with
    | unbuilt => trivial
    | replied resp json =>
      intro hstatus
      simp only [answer, reconstruction, if_pos hstatus]
    | unreachable =>
      rw [Coherent, answer_unreachable]
      cases hget : s.store.cache.get k s.store.files with
      | none => exact Or.inl ⟨_, rfl⟩
      | some m =>
        rw [ManifestCache.get, ManifestCache.path, hI.inDir, Option.join_eq_some_iff] at hget
        obtain ⟨k', hk', hpath, hlast⟩ := hI.files hget
        have hkk : k' = k := hinj hk' (hkey k rfl) hpath
        exact Or.inr ⟨m, hkk ▸ hlast, rfl⟩
  | index => trivial
  | restart => trivial

end Steps

/-- Where `path` tells the requests of a run apart, each is served what was last cached for it. -/
theorem ReconState.coherent_of_injOn {publicBase dir : Bytes} {max : ℤ} {K : Set ManifestKey}
    (hinj : Set.InjOn (ManifestCache.pathIn dir) K) {as : List ReconAct}
    (hkeys : ∀ a ∈ as, ∀ k ∈ a.key, k ∈ K) :
    Along (step publicBase) (Coherent publicBase) (.start dir max) as := by
  have hinit : (start dir max).Inv dir K := ⟨rfl, fun hv => by cases hv⟩
  revert hinit
  generalize start dir max = s
  induction as generalizing s with
  | nil =>
    intro _
    trivial
  | cons a as ih =>
    intro hI
    have hkey := hkeys a List.mem_cons_self
    exact ⟨hI.coherent hinj hkey, fun t ht =>
      ih (fun b hb => hkeys b (List.mem_cons_of_mem _ hb)) t (hI.step hkey ht)⟩

/-- Plain requests are served what was cached for them. -/
theorem ReconState.coherent_of_plain {publicBase dir : Bytes} {max : ℤ} (hdir : dir ≠ [])
    {as : List ReconAct} (hkeys : ∀ a ∈ as, ∀ k ∈ a.key, k.Plain) :
    Along (step publicBase) (Coherent publicBase) (.start dir max) as :=
  coherent_of_injOn (pathIn_injOn_plain hdir) hkeys

/-- A manifest is cached for `k`, and then `k'` is asked for offline. -/
def cachedThenOffline (k k' : ManifestKey) : List ReconAct :=
  [.request k (.replied ⟨200, [], []⟩ (some (some []))) true, .request k' .unreachable true]

/-- What is cached for a request is served to every other with its path. -/
theorem ReconState.serves_other {publicBase dir : Bytes} {max : ℤ} {k k' : ManifestKey}
    (hpath : ManifestCache.pathIn dir k = ManifestCache.pathIn dir k') (hne : k ≠ k') :
    ¬Along (step publicBase) (Coherent publicBase) (.start dir max) (cachedThenOffline k k') := by
  rintro ⟨-, hrest⟩
  obtain ⟨hserved, -⟩ := hrest _ (Option.mem_some_iff.mpr rfl)
  have hget : ManifestCache.get ⟨dir, max, [], ∅⟩ k'
      ((∅ : ManifestFiles (Option Manifest)).insert (ManifestCache.pathIn dir k)
        (some (rewriteManifest publicBase []))) = some (rewriteManifest publicBase []) := by
    rw [ManifestCache.get, ManifestCache.path, ← hpath, AList.lookup_insert]
    rfl
  rcases hserved with ⟨msg, herr⟩ | ⟨m, hlast, -⟩
  · rw [answer_unreachable] at herr
    simp only [start, ManifestStore.rename, ManifestCache.path, Option.map_some] at herr
    rw [hget] at herr
    cases herr
  · -- nothing was ever cached for `k'`
    rw [lastCached_concat, if_neg hne] at hlast
    cases hlast

/-- The directory of the cache in that of the process. -/
def manifestsDir (cacheDir : Bytes) : Bytes := joinPath cacheDir (lit "manifests")

theorem clean_ne_nil (path : Bytes) : clean path ≠ [] := by
  rw [clean_eq]
  by_cases hne : (elems path).reverse = []
  · rw [hne]
    cases rooted path <;> decide
  · have helems : ∀ x ∈ (elems path).reverse, IsElem x := fun x hx =>
      elems_isElem path x (List.mem_reverse.mp hx)
    exact render_ne (e := []) helems hne (by decide) fun h => h.1 rfl

theorem manifestsDir_ne_nil (cacheDir : Bytes) : manifestsDir cacheDir ≠ [] := by
  rw [manifestsDir, joinPath]
  split
  · exact clean_ne_nil _
  · rw [if_pos (by decide)]
    exact clean_ne_nil _

/-- The request makes a path: it calls `Get` or `Put`. -/
def CasReply.usesCache : CasReply → Bool
  | .unbuilt => false
  | .unreachable => true
  | .replied resp json => resp.status = 200 && json.isSome

namespace ReconState

/-- The files an action reads, renames onto or may remove. -/
def reaches (s : ReconState) : ReconAct → List Path
  | .request k reply _ => if reply.usesCache then [s.store.cache.path k] else []
  | .index i _ => s.store.putting[i]?.toList ++ s.store.cache.order
  | .restart infos _ => if 0 < s.store.cache.max then infos else []

/-- An action keeps to the files of the directory. -/
def Within (publicBase dir : Bytes) (s : ReconState) (a : ReconAct) : Prop :=
  (∀ p ∈ s.reaches a, DirectChild dir p) ∧
    ∀ s' ∈ s.step publicBase a, ∀ p, ¬DirectChild dir p →
      s'.store.files.lookup p = s.store.files.lookup p

/-- A request whose path returns to the directory, or a boot that finds files of it. -/
def Confined (dir : Bytes) (s : ReconState) : ReconAct → Prop
  | .request k reply _ => reply.usesCache → k.Returns dir
  | .index _ _ => True
  | .restart infos _ => 0 < s.store.cache.max → ∀ p ∈ infos, DirectChild dir p

/-- The paths in memory are those of files in the directory. -/
structure Inside (dir : Bytes) (s : ReconState) : Prop where
  inDir : s.store.cache.dir = dir
  order : ∀ p ∈ s.store.cache.order, DirectChild dir p
  putting : ∀ p ∈ s.store.putting, DirectChild dir p

variable {publicBase dir : Bytes} {s s' : ReconState} {a : ReconAct}

theorem answer_put {k : ManifestKey} {resp : Response} {json : Option (Option Manifest)}
    {manifest : Option Manifest}
    (h : (s.answer publicBase k (.replied resp json)).2 = some manifest) :
    (CasReply.replied resp json).usesCache := by
  simp only [answer, reconstruction] at h
  split at h
  · cases h
  · next hstatus =>
    cases json with
    | none => cases h
    | some m => simpa [CasReply.usesCache] using hstatus

/-- What is not reached stays as it is. -/
theorem Moves.frame (h : s.Moves publicBase a s') {p : Path} (hp : p ∉ s.reaches a) :
    s'.store.files.lookup p = s.store.files.lookup p := by
  cases h with
  | pass => rfl
  | put manifest hput =>
    rw [reaches, if_pos (answer_put hput), List.mem_singleton] at hp
    exact AList.lookup_insert_ne hp
  | index removes hput =>
    rw [reaches, hput, List.mem_append, not_or] at hp
    exact ManifestCache.putLocked_frame hp.2 fun heq => hp.1 (by simp [heq])
  | restart infos removes =>
    refine ManifestCache.new_frame fun hmax hmem => hp ?_
    rwa [reaches, if_pos hmax]

/-- A confined action reaches files of the directory only. -/
theorem Inside.reaches (hdir : dir ≠ []) (hI : s.Inside dir) (ha : s.Confined dir a) :
    ∀ p ∈ s.reaches a, DirectChild dir p := by
  intro p hp
  cases a with
  | request k reply writes =>
    rw [ReconState.reaches] at hp
    split at hp
    · next huses =>
      rw [List.mem_singleton.mp hp, ManifestCache.path, hI.inDir]
      exact (pathIn_directChild hdir k).mpr (ha huses)
    · exact absurd hp List.not_mem_nil
  | index i removes =>
    rcases List.mem_append.mp hp with hp | hp
    · exact hI.putting p (List.mem_of_getElem? (Option.mem_toList.mp hp))
    · exact hI.order p hp
  | restart infos removes =>
    rw [ReconState.reaches] at hp
    split at hp
    · next hmax => exact ha hmax p hp
    · exact absurd hp List.not_mem_nil

theorem Inside.step (hdir : dir ≠ []) (hI : s.Inside dir) (ha : s.Confined dir a)
    (h : s.step publicBase a = some s') : s'.Inside dir := by
  have hreach := hI.reaches hdir ha
  cases step_moves h with
  | pass => exact hI
  | @put k resp json manifest hput =>
    refine ⟨hI.inDir, hI.order, fun p hp => ?_⟩
    rcases List.mem_append.mp hp with hp | hp
    · exact hI.putting p hp
    · refine hreach p ?_
      rwa [ReconState.reaches, if_pos (answer_put hput)]
  | @index i q removes hput =>
    refine ⟨by rw [ManifestCache.putLocked_dir]; exact hI.inDir, fun p hp => ?_, fun p hp =>
      hI.putting p (List.eraseIdx_subset hp)⟩
    rcases ManifestCache.mem_putLocked_order hp with hp | rfl
    · exact hI.order p hp
    · exact hI.putting p (List.mem_of_getElem? hput)
  | restart infos removes =>
    refine ⟨by rw [ManifestStore.restart, ManifestCache.new_dir]; exact hI.inDir, fun p hp => ?_,
      nofun⟩
    obtain ⟨hmax, hmem⟩ := ManifestCache.mem_new_order hp
    exact ha hmax p hmem

theorem Within.confined (hdir : dir ≠ []) (hI : s.store.cache.dir = dir)
    (h : s.Within publicBase dir a) : s.Confined dir a := by
  cases a with
  | request k reply writes =>
    intro huses
    have hchild := h.1 (s.store.cache.path k) (by rw [ReconState.reaches, if_pos huses]; simp)
    rw [ManifestCache.path, hI] at hchild
    exact (pathIn_directChild hdir k).mp hchild
  | index => trivial
  | restart infos removes =>
    intro hmax p hp
    exact h.1 p (by rwa [ReconState.reaches, if_pos hmax])

end ReconState

/-- **Where the files of the manifest cache lie.**  The path of a request is in the manifest
directory exactly if the walk its version and file id make returns there; and a run reads,
writes and removes files of the directory only exactly if the paths of its requests do, and its
boots find no others. -/
theorem manifest_files_confined_iff (publicBase cacheDir : Bytes) (max : ℤ) :
    (∀ k : ManifestKey, DirectChild (manifestsDir cacheDir)
        (ManifestCache.pathIn (manifestsDir cacheDir) k) ↔ k.Returns (manifestsDir cacheDir)) ∧
      ∀ as : List ReconAct,
        Along (ReconState.step publicBase) (ReconState.Within publicBase (manifestsDir cacheDir))
            (.start (manifestsDir cacheDir) max) as ↔
          Along (ReconState.step publicBase) (ReconState.Confined (manifestsDir cacheDir))
            (.start (manifestsDir cacheDir) max) as := by
  have hdir := manifestsDir_ne_nil cacheDir
  refine ⟨pathIn_directChild hdir, fun as => ?_⟩
  have hinit : (ReconState.start (manifestsDir cacheDir) max).Inside (manifestsDir cacheDir) :=
    ⟨rfl, nofun, nofun⟩
  revert hinit
  generalize ReconState.start (manifestsDir cacheDir) max = s
  induction as generalizing s with
  | nil => exact fun _ => Iff.rfl
  | cons a as ih =>
    intro hI
    constructor
    · rintro ⟨hwithin, hrest⟩
      have hconf := hwithin.confined hdir hI.inDir
      exact ⟨hconf, fun t ht => (ih t (hI.step hdir hconf ht)).mp (hrest t ht)⟩
    · rintro ⟨hconf, hrest⟩
      have hreach := hI.reaches hdir hconf
      refine ⟨⟨hreach, fun t ht p hp => (ReconState.step_moves ht).frame fun hmem =>
        hp (hreach p hmem)⟩, fun t ht => (ih t (hI.step hdir hconf ht)).mpr (hrest t ht)⟩

/-- A percent-decoded slash leads out of the directory: a reply to this request is written next
to the cached xorbs. -/
theorem manifest_written_outside :
    ManifestCache.pathIn (manifestsDir (lit "c")) ⟨lit "../x", lit "abc", []⟩ =
        lit "c/x_abc_full.json" ∧
      ¬DirectChild (manifestsDir (lit "c")) (lit "c/x_abc_full.json") ∧
      ¬Along (ReconState.step []) (ReconState.Within [] (manifestsDir (lit "c")))
        (.start (manifestsDir (lit "c")) 0)
        [.request ⟨lit "../x", lit "abc", []⟩ (.replied ⟨200, [], []⟩ (some (some []))) true] := by
  have hpath : ManifestCache.pathIn (manifestsDir (lit "c")) ⟨lit "../x", lit "abc", []⟩ =
      lit "c/x_abc_full.json" := by decide +kernel
  have hout : ¬DirectChild (manifestsDir (lit "c")) (lit "c/x_abc_full.json") := by
    rw [← hpath, pathIn_directChild (manifestsDir_ne_nil _)]
    decide +kernel
  refine ⟨hpath, hout, fun hwithin => hout ?_⟩
  refine hwithin.1.1 (lit "c/x_abc_full.json") ?_
  rw [ReconState.reaches, if_pos (by decide), ReconState.start, ManifestCache.path, hpath]
  exact List.mem_cons_self

end XetDcCache
