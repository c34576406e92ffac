/-
What eviction deletes (main.go `seedLRU` and the LRU's delete callback, lru.go `evictLocked`).

The callback is handed the keys of the LRU, and they come from two places: the fills, whose keys
are names of `cachePath`, and the scan of the cache dir at boot, which takes every file whose
name has no leading dot.  Here the dir may hold anything when the first process boots on it.

* `CacheState.Own` — every key is a name of `cachePath`, and every step keeps it so;
* `evicts_own_iff` — the dirs on which no run evicts anything else.
-/
import XetDcCache.CacheFiles

namespace XetDcCache

open Transition

/-- A name `cachePath` gives. -/
def IsCacheName (sum256 : Bytes → Bytes) (name : Bytes) : Prop :=
  ∃ hash byteRange, name = cacheName sum256 hash byteRange

/-- A file that `seedLRU` takes for a cache file and that is none. -/
def Dir.Foreign (sum256 : Bytes → Bytes) (d : Dir) (name : Bytes) : Prop :=
  dotted name = false ∧ (∃ content, d.lookup name = some (.file content)) ∧
    ¬ IsCacheName sum256 name

/-! ### Runs -/

/-- A step of the fills, a boot, or the `Touch` of a hit. -/
inductive TierAct
  | cache (a : CacheAct)
  | touch (hash byteRange : Bytes)

/-- The steps of `evictLocked`, which at a boot is one step. -/
def TierAct.evicts : TierAct → Bool
  | .cache (.restart _) | .cache (.call _ (.evict _ _)) => true
  | _ => false

/-- The name a step of a fill passes to the delete callback. -/
def FillStage.deletes (sh : CacheShared) : FillStage → FillAct → List Bytes
  | .evict, .evict free _ =>
    match sh.lru.popFront with
    | none => []
    | some (victim, _) => if sh.lru.overLimitLocked free then [victim] else []
  | _, _ => []

namespace CacheState

/-- Any dir, before the first process boots on it. -/
def onDir (cfg : Config) (d : Dir) : CacheState := ⟨⟨d, .new cfg.maxBytes cfg.minFree, none⟩, []⟩

def tierStep (cfg : Config) (s : CacheState) : TierAct → Option CacheState
  | .cache a => s.step cfg a
  | .touch hash byteRange =>
    if s.shared.lruLock = none then
      some { s with
        shared := { s.shared with
          lru := s.shared.lru.touch (cacheName cfg.sum256 hash byteRange) } }
    else none

/-- The names a step passes to the delete callback. -/
def deletes (cfg : Config) (s : CacheState) : TierAct → List Bytes
  | .cache (.restart b) =>
    ((LruCache.new cfg.maxBytes cfg.minFree).load b.sort (s.shared.dir.seeds b) b.free).1
  | .cache (.call i a) =>
    match s.calls[i]? with
    | none => []
    | some c => c.stage.deletes s.shared a
  | _ => []

/-- The callback gets names of `cachePath` only, and the step removes nothing else. -/
structure EvictsOwn (cfg : Config) (s : CacheState) (a : TierAct) : Prop where
  called : ∀ name ∈ s.deletes cfg a, IsCacheName cfg.sum256 name
  removed : ∀ s' name, s.tierStep cfg a = some s' → a.evicts → name ∈ s.shared.dir →
    name ∉ s'.shared.dir → IsCacheName cfg.sum256 name

end CacheState

/-! ### What is deleted -/

/-- What a boot removes is deleted. -/
theorem Dir.mem_of_sweep (b : Boot) : ∀ {deleted : List Bytes} {d : Dir} {k : Bytes}, k ∈ d →
    k ∉ d.sweep b deleted → k ∈ deleted := by
  intro deleted
  induction deleted with
  | nil => exact fun hin hnot => absurd hin hnot
  | cons v deleted ih =>
    intro d k hin hnot
    by_cases hk : k = v
    · exact hk ▸ List.mem_cons_self
    · rw [Dir.sweep, List.foldl_cons] at hnot
      refine List.mem_cons_of_mem _ (ih ?_ hnot)
      split
      · exact AList.mem_erase.mpr ⟨hk, hin⟩
      · exact hin

namespace FillStage

variable {i : ℕ} {name body : Bytes} {sh sh' : CacheShared} {st st' : FillStage}

/-- A step of `evictLocked` removes no file but the one it deletes. -/
theorem mem_deletes {free : Option Int64} {ok : Bool} {k : Bytes}
    (h : st.step i name body sh (.evict free ok) = some (sh', st')) (hin : k ∈ sh.dir)
    (hnot : k ∉ sh'.dir) : k ∈ st.deletes sh (.evict free ok) := by
  cases st with
  | evict =>
    cases hp : sh.lru.popFront with
    | none =>
      simp only [step, hp] at h
      cases h
      exact absurd hin hnot
    | some popped =>
      obtain ⟨victim, lru⟩ := popped
      simp only [step, hp] at h
      by_cases hover : sh.lru.overLimitLocked free
      · rw [if_pos hover] at h
        cases h
        simp only [deletes, hp, if_pos hover, List.mem_singleton]
        by_contra hk
        refine hnot ?_
        show k ∈ if ok then sh.dir.erase victim else sh.dir
        split
        · exact AList.mem_erase.mpr ⟨hk, hin⟩
        · exact hin
      · rw [if_neg hover] at h
        cases h
        exact absurd hin hnot
  | _ => cases h

/-- What is deleted is a key. -/
theorem deletes_tracked {a : FillAct} {k : Bytes} (h : k ∈ st.deletes sh a) :
    ∃ size, (k, size) ∈ sh.lru.entries := by
  revert h
  fun_cases deletes sh st a
  case case2 free ok victim lru hp hover =>
    intro h
    obtain ⟨size, hent⟩ := LruCache.popFront_some hp
    rw [List.mem_singleton] at h
    exact ⟨size, by rw [hent, h]; exact List.mem_cons_self⟩
  all_goals exact nofun

end FillStage

namespace CacheState

variable {cfg : Config} {s s' : CacheState}

/-- What a step of `evictLocked` removes went to the delete callback. -/
theorem mem_deletes {a : TierAct} (h : s.tierStep cfg a = some s') (ha : a.evicts)
    {name : Bytes} (hin : name ∈ s.shared.dir) (hnot : name ∉ s'.shared.dir) :
    name ∈ s.deletes cfg a := by
  revert ha
  fun_cases TierAct.evicts a
  case case1 b =>
    intro _
    rw [tierStep, step, Option.some_inj] at h
    subst h
    exact Dir.mem_of_sweep b hin hnot
  case case2 i free ok =>
    intro _
    rw [tierStep, step] at h
    cases hi : s.calls[i]? with
    | none =>
      rw [hi] at h
      cases h
    | some c =>
      simp only [hi] at h
      simp only [deletes, hi]
      split at h
      · cases h
      · next sh st hstep =>
        rw [Option.some_inj] at h
        subst h
        exact FillStage.mem_deletes hstep hin hnot
  case case3 => rintro ⟨⟩

/-! ### What every run keeps -/

/-- The keys are names of `cachePath`, and so is each name a boot will make a key. -/
structure Own (sum256 : Bytes → Bytes) (s : CacheState) : Prop where
  keys : ∀ e ∈ s.shared.lru.entries, IsCacheName sum256 e.1
  named : ∀ c ∈ s.calls, IsCacheName sum256 c.name
  temp : ∀ c ∈ s.calls, ∀ tmp ∈ c.stage.tmp, dotted tmp
  files : ∀ name, ¬ s.shared.dir.Foreign sum256 name

/-- A boot deletes or tracks cache files only. -/
theorem Own.loads (hI : s.Own cfg.sum256) {b : Boot} {k : Bytes}
    {loaded : List Bytes × LruCache Bytes}
    (hload : (LruCache.new cfg.maxBytes cfg.minFree).load b.sort (s.shared.dir.seeds b) b.free =
      loaded) (hk : k ∈ loaded.1 ++ loaded.2.entries.map Prod.fst) :
    IsCacheName cfg.sum256 k := by
  subst hload
  have hin := (load_files cfg b s.shared.dir).subset hk
  obtain ⟨⟨k', content⟩, hfile, rfl⟩ := List.mem_map.mp hin
  obtain ⟨hdot, hl⟩ := Dir.mem_files.mp (List.mem_filter.mp hfile).1
  by_contra hnot
  exact hI.files k' ⟨hdot, ⟨content, hl⟩, hnot⟩

/-- Before the first boot there are no keys. -/
theorem Own.onDir {d : Dir} (h : ∀ name, ¬ d.Foreign cfg.sum256 name) :
    (onDir cfg d).Own cfg.sum256 where
  keys := nofun
  named := nofun
  temp := nofun
  files := h

/-- A step of a fill keeps it. -/
theorem Own.move {i : ℕ} {c : FillCall} {sh' : CacheShared} {st' : FillStage}
    {sum256 : Bytes → Bytes} (hI : s.Own sum256) (hi : s.calls[i]? = some c)
    (h : c.stage.Moves i c.name c.body s.shared sh' st') :
    Own sum256 ⟨sh', s.calls.set i { c with stage := st' }⟩ := by
  have hc : c ∈ s.calls := List.mem_of_getElem? hi
  have hn := hI.named c hc
  refine ⟨h.keys hn hI.keys, fun c' hc' => ?_, fun c' hc' tmp ht => ?_, fun name hf => ?_⟩
  · rcases List.mem_or_eq_of_mem_set hc' with hc' | rfl
    · exact hI.named c' hc'
    · exact hn
  · rcases List.mem_or_eq_of_mem_set hc' with hc' | rfl
    · exact hI.temp c' hc' tmp ht
    · rcases h.fresh ht with hold | ⟨hd, -⟩
      · exact hI.temp c hc tmp hold
      · exact hd
  · obtain ⟨hdot, ⟨content, hl⟩, hnot⟩ := hf
    rcases h.visible (hI.temp c hc) with
      hsame | ⟨tmp, e, -, -, -, hmoved⟩ | ⟨victim, -, -, hgone⟩
    · exact hI.files name ⟨hdot, ⟨content, hsame hdot ▸ hl⟩, hnot⟩
    · -- a rename makes a file of the fill's own name
      have hne : name ≠ c.name := fun heq => hnot (heq ▸ hn)
      rw [hmoved hdot, if_neg hne] at hl
      exact hI.files name ⟨hdot, ⟨content, hl⟩, hnot⟩
    · rw [hgone hdot] at hl
      split at hl
      · cases hl
      · exact hI.files name ⟨hdot, ⟨content, hl⟩, hnot⟩

theorem Own.step {a : CacheAct} (hI : s.Own cfg.sum256) (h : s.step cfg a = some s') :
    s'.Own cfg.sum256 := by
  revert h
  fun_cases CacheState.step cfg s a
  all_goals
    intro h
    cases h
  case case1 hash byteRange body =>
    refine ⟨hI.keys, fun c hc => ?_, fun c hc tmp ht => ?_, hI.files⟩
    · rcases List.mem_append.mp hc with hc | hc
      · exact hI.named c hc
      · rw [List.mem_singleton.mp hc]
        exact ⟨hash, byteRange, rfl⟩
    · rcases List.mem_append.mp hc with hc | hc
      · exact hI.temp c hc tmp ht
      · rw [List.mem_singleton.mp hc] at ht
        cases ht
  case case4 i a c hi sh' st' hstep => exact hI.move hi (FillStage.step_moves hstep)
  case case5 b dir loaded =>
    refine ⟨fun e he => ?_, fun c hc => ?_, fun c hc tmp ht => ?_, fun name hf => ?_⟩
    · exact hI.loads rfl (List.mem_append_right _ (List.mem_map_of_mem he))
    · obtain ⟨c', hc', rfl⟩ := List.mem_map.mp hc
      exact hI.named c' hc'
    · obtain ⟨c', -, rfl⟩ := List.mem_map.mp hc
      rw [FillStage.kill_tmp] at ht
      cases ht
    · obtain ⟨hdot, ⟨content, hl⟩, hnot⟩ := hf
      exact hI.files name ⟨hdot, ⟨content, Dir.lookup_sweep b hl⟩, hnot⟩

theorem Own.tierStep {a : TierAct} (hI : s.Own cfg.sum256) (h : s.tierStep cfg a = some s') :
    s'.Own cfg.sum256 := by
  cases a with
  | cache a => exact hI.step h
  | touch hash byteRange =>
    rw [CacheState.tierStep] at h
    split at h
    · cases h
      exact ⟨fun e he => hI.keys e (LruCache.mem_touch.mp he), hI.named, hI.temp, hI.files⟩
    · cases h

/-- From such a state a step deletes cache files only. -/
theorem Own.evictsOwn (hI : s.Own cfg.sum256) (a : TierAct) : s.EvictsOwn cfg a := by
  have hcalled : ∀ name ∈ s.deletes cfg a, IsCacheName cfg.sum256 name := by
    intro name
    fun_cases CacheState.deletes cfg s a
    case case1 b => exact fun hname => hI.loads rfl (List.mem_append_left _ hname)
    case case3 i a c hi =>
      intro hname
      obtain ⟨size, hent⟩ := FillStage.deletes_tracked hname
      exact hI.keys _ hent
    all_goals exact nofun
  exact ⟨hcalled, fun s' name h ha hin hnot => hcalled name (mem_deletes h ha hin hnot)⟩

end CacheState

/-! ### The result -/

/-- A boot on a volume with no space left. -/
def Boot.full : Boot := { Boot.plain with free := some fun _ => 0 }

/-- It deletes every file `seedLRU` takes, where a floor is asked for. -/
theorem full_deletes {cfg : Config} (hfloor : 0 < cfg.minFree) (d : Dir) {k content : Bytes}
    (hk : dotted k = false) (hl : d.lookup k = some (.file content)) :
    k ∈ (CacheState.onDir cfg d).deletes cfg (.cache (.restart .full)) := by
  have hev := LruCache.load_evicts cfg.maxBytes cfg.minFree Boot.full.sort (d.seeds .full)
    Boot.full.free
  have hover : ∀ es : List (Bytes × Int64),
      Lru.Exceeded cfg.maxBytes cfg.minFree es (some 0) := by
    intro es
    rw [Lru.Exceeded, Lru.overLimit, Bool.or_eq_true]
    exact Or.inr (by simp [Lru.belowFloor, hfloor])
  have hnil := hev.stopped.resolve_right fun hstop => hstop (hover _)
  have hin : k ∈ (d.files.filter fun e => Boot.full.readable e.1).map Prod.fst := by
    refine List.mem_map.mpr ⟨(k, content), List.mem_filter.mpr ⟨?_, rfl⟩, rfl⟩
    exact Dir.mem_files.mpr ⟨hk, hl⟩
  have hmem := (load_files cfg .full d).mem_iff.mpr hin
  rw [hnil, List.map_nil, List.append_nil] at hmem
  exact hmem

/-- **What eviction deletes**: from the first boot on, every run with any limits evicts only names
of `cachePath`, exactly if the dir of that boot has no other file without a leading dot. -/
theorem evicts_own_iff (sum256 : Bytes → Bytes) (d : Dir) :
    (∀ cfg : Config, cfg.sum256 = sum256 → ∀ (b : Boot) (as : List TierAct),
      Along (CacheState.tierStep cfg) (CacheState.EvictsOwn cfg) (.onDir cfg d)
        (.cache (.restart b) :: as)) ↔
      ∀ name, ¬ d.Foreign sum256 name := by
  constructor
  · rintro h name ⟨hdot, ⟨content, hl⟩, hnot⟩
    -- a floor of one byte, and no byte is free
    obtain ⟨hboot, -⟩ := h { Config.lone with minFree := 1, sum256 := sum256 } rfl .full []
    refine hnot (hboot.called name (full_deletes ?_ d hdot hl))
    show (0 : Int64) < 1
    decide
  · rintro h cfg rfl b as
    exact along_of_invariant (fun hI hstep => CacheState.Own.tierStep hI hstep)
      (fun a hI => CacheState.Own.evictsOwn hI a) (CacheState.Own.onDir h)

/-- A cache dir in which somebody left a file. -/
def strayDir : Dir := (∅ : Dir).insert (lit "README.md") (.file (lit "xorbs"))

/-- The boot evicts it, before any request. -/
theorem stray_file_evicted :
    let cfg := { Config.lone with minFree := 1 }
    lit "README.md" ∈ (CacheState.onDir cfg strayDir).deletes cfg (.cache (.restart .full)) ∧
      (∃ s, (CacheState.onDir cfg strayDir).tierStep cfg (.cache (.restart .full)) = some s ∧
        lit "README.md" ∉ s.shared.dir) ∧
      (∀ sum256, ¬ IsCacheName sum256 (lit "README.md")) ∧
      ¬ ∀ (cfg : Config) (d : Dir) (b : Boot) (as : List TierAct),
        Along (CacheState.tierStep cfg) (CacheState.EvictsOwn cfg) (.onDir cfg d)
          (.cache (.restart b) :: as) := by
  intro cfg
  have hdeleted :
      lit "README.md" ∈ (CacheState.onDir cfg strayDir).deletes cfg (.cache (.restart .full)) := by
    decide +kernel
  have hname : ∀ sum256, ¬ IsCacheName sum256 (lit "README.md") := by
    rintro sum256 ⟨hash, byteRange, heq⟩
    -- no hex digit is an R
    have hR : ∀ i : Fin 16, 82 ≠ hexDigit i := by decide
    have hmem : (82 : UInt8) ∈ cacheName sum256 hash byteRange := by
      rw [← heq]
      decide
    obtain ⟨i, hi⟩ := hexDigit_of_mem hmem
    exact hR i hi
  refine ⟨hdeleted, ⟨_, rfl, by decide +kernel⟩, hname, fun h => ?_⟩
  exact hname _ ((h cfg strayDir .full []).1.called _ hdeleted)

end XetDcCache
