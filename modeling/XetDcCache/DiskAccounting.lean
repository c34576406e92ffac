/-
The LRU and the cache dir (lru.go's callback in main.go, getXorb, seedLRU).

A flight renames its file into place before it takes the LRU lock to record it, and
an eviction deletes the file of the entry it has removed.  `evicted_before_record`
is a run where an eviction deletes a file between its rename and its `Record`: the LRU
then tracks a file that is not there.  `lru_agrees_with_disk` is the claim where no file
is removed in that window: at rest the LRU tracks exactly the files on disk, with their
sizes, through any evictions and restarts.
-/
import XetDcCache.Threads

namespace XetDcCache

open Transition

variable {cfg : Config} {t : Tid} {req : Request} {connected : Bool} {sh sh' : Shared}
  {st st' : Stage} {a : Act}

/-- The body a thread has renamed into place and not recorded. -/
def Stage.recording : Stage → Option XorbResult
  | .record _ res => some res
  | _ => none

/-- The key a thread has evicted and not removed from disk. -/
def Stage.victim : Stage → Option Bytes
  | .remove _ _ victim => some victim
  | _ => none

def Act.removeFails : Act → Bool
  | .remove ok => !ok
  | _ => false

def NodeAct.boot : NodeAct → Option Boot
  | .restart b => some b
  | _ => none

/-- The file operations on the cache dir succeed: removals, and at boot the reading of
every file. -/
def Node.FsOk (n : Node) (b : NodeAct) : Prop :=
  (∀ m ∈ n.moving b, ¬ m.act.removeFails) ∧
    ∀ boot ∈ b.boot, ∀ e ∈ n.shared.disk.entries, boot.readable e.1 ∧ boot.removes e.1

/-- No file is removed between its rename and its `Record`. -/
def Node.SparesRenamed (cfg : Config) (n : Node) (b : NodeAct) : Prop :=
  ∀ m ∈ n.moving b, ∀ victim ∈ m.th.stage.victim, ∀ other ∈ n.threads,
    other.stage.recording.isSome → other.req.name cfg ≠ victim

instance (n : Node) (b : NodeAct) : Decidable (n.FsOk b) :=
  inferInstanceAs (Decidable (_ ∧ ∀ boot ∈ b.boot, ∀ e ∈ n.shared.disk.entries, _))

instance (cfg : Config) (n : Node) (b : NodeAct) : Decidable (n.SparesRenamed cfg b) :=
  inferInstanceAs (Decidable (∀ m ∈ n.moving b, ∀ victim ∈ m.th.stage.victim, _))

/-- The LRU has the key exactly if its file is on disk, with the size of the file. -/
def Shared.Tracks (sh : Shared) (k : Bytes) : Prop :=
  ∀ size, (k, size) ∈ sh.lru.entries ↔
    (sh.disk.lookup k).map (fun file => Int64.ofNat file.length) = some size

/-! ### The invariant -/

/-- The file `k` is renamed into place and not recorded. -/
def Node.Renamed (cfg : Config) (n : Node) (k : Bytes) : Prop :=
  ∃ (u : Tid) (other : Thread), n.threads[u]? = some other ∧ other.stage.recording.isSome ∧
    other.req.name cfg = k

/-- The file `k` is evicted and not removed. -/
def Node.Evicted (n : Node) (k : Bytes) : Prop :=
  ∃ (u : Tid) (other : Thread), n.threads[u]? = some other ∧ other.stage.victim = some k

/-- Every key is tracked, or on its way between a rename and its `Record`, or between its
eviction and the removal of its file. -/
structure Node.Tracked (cfg : Config) (n : Node) : Prop where
  agree : ∀ k, n.shared.Tracks k ∨ n.Renamed cfg k ∨ n.Evicted k
  recording : ∀ {u : Tid} {other : Thread} {res : XorbResult}, n.threads[u]? = some other →
    other.stage.recording = some res → n.shared.disk.lookup (other.req.name cfg) = some res.body
  victim : ∀ {u : Tid} {other : Thread} {k : Bytes}, n.threads[u]? = some other →
    other.stage.victim = some k → ∀ size, (k, size) ∉ n.shared.lru.entries

theorem Shared.Tracks.congr {k : Bytes} (h : sh.Tracks k)
    (hl : ∀ size, (k, size) ∈ sh'.lru.entries ↔ (k, size) ∈ sh.lru.entries)
    (hd : sh'.disk.lookup k = sh.disk.lookup k) : sh'.Tracks k := by
  intro size
  rw [hl, hd]
  exact h size

section Moving

variable {n : Node} {th : Thread} {k : Bytes}

/-- The other threads are where they were. -/
theorem Node.Renamed.set (h : n.Renamed cfg k) (ht : n.threads[t]? = some th)
    (hr : th.stage.recording = none ∨ th.req.name cfg ≠ k) :
    Node.Renamed cfg ⟨sh', n.threads.set t { th with stage := st' }⟩ k := by
  obtain ⟨u, other, hu, hrec, hname⟩ := h
  have hne : t ≠ u := by
    rintro rfl
    rw [ht] at hu
    cases hu
    rcases hr with hr | hr
    · rw [hr] at hrec
      cases hrec
    · exact hr hname
  exact ⟨u, other, by rwa [List.getElem?_set_ne hne], hrec, hname⟩

theorem Node.Evicted.set (h : n.Evicted k) (ht : n.threads[t]? = some th)
    (hv : th.stage.victim ≠ some k) :
    Node.Evicted ⟨sh', n.threads.set t { th with stage := st' }⟩ k := by
  obtain ⟨u, other, hu, hvic⟩ := h
  have hne : t ≠ u := by
    rintro rfl
    rw [ht] at hu
    cases hu
    exact hv hvic
  exact ⟨u, other, by rwa [List.getElem?_set_ne hne], hvic⟩

theorem get_set_self (ht : n.threads[t]? = some th) (x : Thread) :
    (n.threads.set t x)[t]? = some x :=
  List.getElem?_set_self (List.getElem?_eq_some_iff.mp ht).1

/-- The threads there are keep their requests and stages, and the others do nothing yet. -/
theorem Node.Tracked.same (hn : n.Tracked cfg) {threads : List Thread}
    (hold : ∀ {u : Tid} {other : Thread}, n.threads[u]? = some other →
      ∃ other', threads[u]? = some other' ∧ other'.req = other.req ∧ other'.stage = other.stage)
    (hnew : ∀ {u : Tid} {other : Thread}, threads[u]? = some other →
      (∃ other', n.threads[u]? = some other' ∧ other.req = other'.req ∧
        other.stage = other'.stage) ∨ other.stage = .check) :
    Node.Tracked cfg { n with threads := threads } := by
  refine ⟨fun k => ?_, ?_, ?_⟩
  · rcases hn.agree k with htr | ⟨u, other, hu, hrec⟩ | ⟨u, other, hu, hvic⟩
    · exact Or.inl htr
    · obtain ⟨other', hu', hreq, hst⟩ := hold hu
      exact Or.inr (Or.inl ⟨u, other', hu', by rwa [hst, hreq]⟩)
    · obtain ⟨other', hu', hreq, hst⟩ := hold hu
      exact Or.inr (Or.inr ⟨u, other', hu', by rwa [hst]⟩)
  · intro u other res hu hrec
    rcases hnew hu with ⟨other', hu', hreq, hst⟩ | hst
    · rw [hst] at hrec
      rw [hreq]
      exact hn.recording hu' hrec
    · rw [hst] at hrec
      cases hrec
  · intro u other k hu hvic
    rcases hnew hu with ⟨other', hu', -, hst⟩ | hst
    · rw [hst] at hvic
      exact hn.victim hu' hvic
    · rw [hst] at hvic
      cases hvic

/-- A thread that neither renames, records, evicts nor removes leaves all as it is. -/
theorem Node.Tracked.quiet (hn : n.Tracked cfg) (ht : n.threads[t]? = some th)
    (hr : th.stage.recording = none) (hr' : st'.recording = none) (hv : th.stage.victim = none)
    (hv' : st'.victim = none) (hd : sh'.disk = n.shared.disk)
    (hl : ∀ e, e ∈ sh'.lru.entries ↔ e ∈ n.shared.lru.entries) :
    Node.Tracked cfg ⟨sh', n.threads.set t { th with stage := st' }⟩ := by
  refine ⟨fun k => ?_, ?_, ?_⟩
  · rcases hn.agree k with htr | hren | hev
    · exact Or.inl (htr.congr (fun size => hl _) (by rw [hd]))
    · exact Or.inr (Or.inl (hren.set ht (Or.inl hr)))
    · exact Or.inr (Or.inr (hev.set ht (by simp [hv])))
  · intro u other res hu hrec
    rcases get_set hu with ⟨rfl, rfl⟩ | ⟨-, hu'⟩
    · rw [hr'] at hrec
      cases hrec
    · rw [hd]
      exact hn.recording hu' hrec
  · intro u other k hu hvic size
    rcases get_set hu with ⟨rfl, rfl⟩ | ⟨-, hu'⟩
    · rw [hv'] at hvic
      cases hvic
    · rw [hl]
      exact hn.victim hu' hvic size

/-- The rename of a file. -/
theorem Node.Tracked.rename {src : FillSource} {res : XorbResult} {fills : List Fill}
    (hn : n.Tracked cfg) (hbase : n.Base cfg) (ht : n.threads[t]? = some th)
    (hst : th.stage = .write src res) :
    Node.Tracked cfg ⟨{ n.shared with
        disk := n.shared.disk.insert (th.req.name cfg) res.body
        fills := fills }, n.threads.set t { th with stage := .record src res }⟩ := by
  refine ⟨fun k => ?_, ?_, ?_⟩
  · by_cases hk : th.req.name cfg = k
    · exact Or.inr (Or.inl ⟨t, _, get_set_self ht _, rfl, hk⟩)
    · rcases hn.agree k with htr | hren | hev
      · exact Or.inl (htr.congr (fun _ => Iff.rfl) (AList.lookup_insert_ne (Ne.symm hk)))
      · exact Or.inr (Or.inl (hren.set ht (Or.inr hk)))
      · exact Or.inr (Or.inr (hev.set ht (by simp [hst, Stage.victim])))
  · intro u other res' hu hrec
    rcases get_set hu with ⟨rfl, rfl⟩ | ⟨hne, hu'⟩
    · cases hrec
      exact AList.lookup_insert _
    · -- another file: this one has one leader
      have hname : other.req.name cfg ≠ th.req.name cfg := by
        intro hname
        have hleads : other.stage.leads := by
          cases hst' : other.stage <;> rw [hst'] at hrec <;> first | rfl | cases hrec
        have hmine := ((hbase.thread ht).leads _).mpr ⟨by rw [hst]; rfl, rfl⟩
        have hother := ((hbase.thread hu').leads _).mpr ⟨hleads, hname⟩
        rw [hmine] at hother
        exact hne (Option.some_inj.mp hother).symm
      exact (AList.lookup_insert_ne hname).trans (hn.recording hu' hrec)
  · intro u other k hu hvic size
    rcases get_set hu with ⟨rfl, rfl⟩ | ⟨-, hu'⟩
    · cases hvic
    · exact hn.victim hu' hvic size

/-- No file is between its eviction and its removal while the LRU lock is free. -/
theorem Node.Base.not_evicted (hbase : n.Base cfg) (hl : n.shared.lruLock = none) {u : Tid}
    {other : Thread} (hu : n.threads[u]? = some other) : other.stage.victim = none := by
  have hlock := (hbase.thread hu).locks
  rw [hl] at hlock
  cases hst : other.stage <;> first | rfl | simp [hst, Stage.locks] at hlock

/-- `Record` up to its evictions. -/
theorem Node.Tracked.record {src : FillSource} {res : XorbResult} {lock : Option Tid}
    (hn : n.Tracked cfg) (hbase : n.Base cfg) (ht : n.threads[t]? = some th)
    (hst : th.stage = .record src res) (hl : n.shared.lruLock = none) :
    Node.Tracked cfg ⟨{ n.shared with
        lruLock := lock
        lru := n.shared.lru.recordEntry (th.req.name cfg) (Int64.ofNat res.body.length) },
      n.threads.set t { th with stage := .evict src res }⟩ := by
  refine ⟨fun k => ?_, ?_, ?_⟩
  · by_cases hk : th.req.name cfg = k
    · subst hk
      refine Or.inl fun size => ?_
      have hdisk := hn.recording ht (show th.stage.recording = some res by rw [hst]; rfl)
      simp only [LruCache.mem_recordEntry, hdisk, Option.map_some, Option.some.injEq]
      constructor
      · rintro (⟨-, hne⟩ | heq)
        · exact absurd rfl hne
        · exact (Prod.mk.inj heq).2.symm
      · rintro rfl
        exact Or.inr rfl
    · rcases hn.agree k with htr | hren | ⟨u, other, hu, hvic⟩
      · refine Or.inl (htr.congr (fun size => ?_) rfl)
        simp [Ne.symm hk]
      · exact Or.inr (Or.inl (hren.set ht (Or.inr hk)))
      · rw [hbase.not_evicted hl hu] at hvic
        cases hvic
  · intro u other res' hu hrec
    rcases get_set hu with ⟨rfl, rfl⟩ | ⟨-, hu'⟩
    · cases hrec
    · exact hn.recording hu' hrec
  · intro u other k hu hvic
    rcases get_set hu with ⟨rfl, rfl⟩ | ⟨-, hu'⟩
    · cases hvic
    · rw [hbase.not_evicted hl hu'] at hvic
      cases hvic

/-- An eviction up to the removal of its file. -/
theorem Node.Tracked.evict {src : FillSource} {res : XorbResult} {victim : Bytes}
    {lru : LruCache Bytes} (hn : n.Tracked cfg) (ht : n.threads[t]? = some th)
    (hst : th.stage = .evict src res)
    (hp : n.shared.lru.popFront = some (victim, lru)) :
    Node.Tracked cfg ⟨{ n.shared with lru := lru },
      n.threads.set t { th with stage := .remove src res victim }⟩ := by
  obtain ⟨size₀, hent⟩ := LruCache.popFront_some hp
  have hkeys := n.shared.lru.keys_nodup
  rw [hent, List.map_cons, List.nodup_cons] at hkeys
  have hgone : ∀ size, (victim, size) ∉ lru.entries := fun size hmem =>
    hkeys.1 (List.mem_map.mpr ⟨_, hmem, rfl⟩)
  refine ⟨fun k => ?_, ?_, ?_⟩
  · by_cases hk : victim = k
    · exact Or.inr (Or.inr ⟨t, _, get_set_self ht _, congrArg some hk⟩)
    · rcases hn.agree k with htr | hren | hev
      · refine Or.inl (htr.congr (fun size => ?_) rfl)
        rw [hent, List.mem_cons]
        simp [Ne.symm hk]
      · exact Or.inr (Or.inl (hren.set ht (Or.inl (by rw [hst]; rfl))))
      · exact Or.inr (Or.inr (hev.set ht (by simp [hst, Stage.victim])))
  · intro u other res' hu hrec
    rcases get_set hu with ⟨rfl, rfl⟩ | ⟨-, hu'⟩
    · cases hrec
    · exact hn.recording hu' hrec
  · intro u other k hu hvic size
    rcases get_set hu with ⟨rfl, rfl⟩ | ⟨-, hu'⟩
    · cases hvic
      exact hgone size
    · intro hmem
      exact hn.victim hu' hvic size (hent ▸ List.mem_cons_of_mem _ hmem)

/-- The removal of an evicted file that no thread has just renamed into place. -/
theorem Node.Tracked.remove {src : FillSource} {res : XorbResult} {victim : Bytes}
    (hn : n.Tracked cfg) (ht : n.threads[t]? = some th) (hst : th.stage = .remove src res victim)
    (hspare : ∀ other ∈ n.threads, other.stage.recording.isSome → other.req.name cfg ≠ victim) :
    Node.Tracked cfg ⟨{ n.shared with disk := n.shared.disk.erase victim },
      n.threads.set t { th with stage := .evict src res }⟩ := by
  refine ⟨fun k => ?_, ?_, ?_⟩
  · by_cases hk : victim = k
    · subst hk
      refine Or.inl fun size => ?_
      have hgone := hn.victim ht (show th.stage.victim = some victim by rw [hst]; rfl) size
      simp [hgone]
    · rcases hn.agree k with htr | hren | hev
      · exact Or.inl (htr.congr (fun _ => Iff.rfl) (AList.lookup_erase_ne (Ne.symm hk)))
      · exact Or.inr (Or.inl (hren.set ht (Or.inl (by rw [hst]; rfl))))
      · exact Or.inr (Or.inr (hev.set ht (by simpa [hst, Stage.victim] using hk)))
  · intro u other res' hu hrec
    rcases get_set hu with ⟨rfl, rfl⟩ | ⟨-, hu'⟩
    · cases hrec
    · have hname := hspare other (List.mem_of_getElem? hu') (by rw [hrec]; rfl)
      exact (AList.lookup_erase_ne hname).trans (hn.recording hu' hrec)
  · intro u other k hu hvic
    rcases get_set hu with ⟨rfl, rfl⟩ | ⟨-, hu'⟩
    · cases hvic
    · exact hn.victim hu' hvic

end Moving

/-! ### Booting -/

theorem Boot.sweep_lookup (b : Boot) (k : Bytes) : ∀ {ds : List Bytes}
    {disk : AList fun _ : Bytes => Bytes}, (∀ d ∈ ds, b.removes d) →
    (b.sweep disk ds).lookup k = if k ∈ ds then none else disk.lookup k := by
  intro ds
  induction ds with
  | nil =>
    intro disk _
    simp [Boot.sweep]
  | cons d ds ih =>
    intro disk h
    have hd : b.removes d = true := h d List.mem_cons_self
    have hrest := @ih (disk.erase d) fun d' hd' => h d' (List.mem_cons_of_mem _ hd')
    rw [Boot.sweep, List.foldl_cons, if_pos hd]
    refine hrest.trans ?_
    by_cases hk : k = d
    · subst hk
      simp
    · rw [AList.lookup_erase_ne hk]
      simp [hk]

/-- The entries `Load` starts from are the files on disk. -/
theorem Boot.mem_seeds (b : Boot) {disk : AList fun _ : Bytes => Bytes}
    (hread : ∀ e ∈ disk.entries, b.readable e.1) {k : Bytes} {size : Int64} :
    (k, size) ∈ (b.sort.1 (b.seeds disk)).map (fun e => (e.key, e.size)) ↔
      (disk.lookup k).map (fun file => Int64.ofNat file.length) = some size := by
  have hall : disk.entries.filter (fun e => b.readable e.1) = disk.entries :=
    List.filter_eq_self.mpr hread
  rw [((b.sort.2 (b.seeds disk)).1.map _).mem_iff, Boot.seeds, hall, List.map_map,
    Option.map_eq_some_iff]
  simp only [List.mem_map, Function.comp_apply, Prod.mk.injEq]
  constructor
  · rintro ⟨⟨k', file⟩, hmem, rfl, rfl⟩
    exact ⟨file, AList.mem_lookup_iff.mpr hmem, rfl⟩
  · rintro ⟨file, hlook, rfl⟩
    exact ⟨⟨k, file⟩, AList.mem_lookup_iff.mp hlook, rfl, rfl⟩

theorem Boot.seeds_nodup (b : Boot) (disk : AList fun _ : Bytes => Bytes) :
    ((b.sort.1 (b.seeds disk)).map LruSeed.key).Nodup := by
  refine ((b.sort.2 (b.seeds disk)).1.map _).nodup_iff.mpr ?_
  have hkeys : ((b.seeds disk).map LruSeed.key) =
      ((disk.entries.filter fun e => b.readable e.1).map Sigma.fst) := by
    rw [Boot.seeds, List.map_map]
    rfl
  rw [hkeys]
  exact (List.filter_sublist.map _).nodup disk.nodupKeys

/-- A process boots with the LRU in step with the disk. -/
theorem Boot.tracks (cfg : Config) (b : Boot) {disk : AList fun _ : Bytes => Bytes}
    (hfs : ∀ e ∈ disk.entries, b.readable e.1 ∧ b.removes e.1) (k : Bytes) :
    (Shared.boot cfg b disk).Tracks k := by
  have hread : ∀ e ∈ disk.entries, b.readable e.1 := fun e he => (hfs e he).1
  have hnd := b.seeds_nodup disk
  have hev := LruCache.load_evicts cfg.maxBytes cfg.minFree b.sort (b.seeds disk) b.free
  have hfresh : ([] ++ (b.sort.1 (b.seeds disk)).map LruSeed.key).Nodup := by simpa using hnd
  have hseeds := Lru.unheld_eq_map hfresh
  rw [hseeds] at hev
  set es := (b.sort.1 (b.seeds disk)).map fun e => (e.key, e.size) with hes
  have hkeys : (es.map Prod.fst).Nodup := by
    rw [hes, List.map_map]
    exact hnd
  have hremoves : ∀ d ∈ ((LruCache.new cfg.maxBytes cfg.minFree).load b.sort (b.seeds disk)
      b.free).1, b.removes d := by
    intro d hd
    have hmem : d ∈ es.map Prod.fst := hev.append ▸ List.mem_append_left _ hd
    obtain ⟨⟨d', size⟩, he, rfl⟩ := List.mem_map.mp hmem
    obtain ⟨file, hfile, -⟩ := Option.map_eq_some_iff.mp ((b.mem_seeds hread).mp he)
    exact (hfs _ (AList.mem_lookup_iff.mp hfile)).2
  intro size
  refine (hev.mem_iff hkeys).trans ?_
  rw [b.mem_seeds hread]
  show _ ↔ Option.map _ ((b.sweep disk _).lookup k) = _
  rw [b.sweep_lookup k hremoves]
  by_cases hk : k ∈ ((LruCache.new cfg.maxBytes cfg.minFree).load b.sort (b.seeds disk) b.free).1
  · simp [hk]
  · simp [hk]

theorem Node.Tracked.step {n n' : Node} {b : NodeAct} (hn : n.Tracked cfg) (hbase : n.Base cfg)
    (hfs : n.FsOk b) (hspare : n.SparesRenamed cfg b) (hstep : n.step cfg b = some n') :
    n'.Tracked cfg := by
  cases Node.step_moves hstep with
  | arrive req =>
    refine hn.same (fun {u other} hu => ?_) fun {u other} hu => ?_
    · exact ⟨other, by rwa [List.getElem?_append_left (List.getElem?_eq_some_iff.mp hu).1],
        rfl, rfl⟩
    · rcases get_append hu with hu' | ⟨rfl, rfl⟩
      · exact Or.inl ⟨other, hu', rfl, rfl⟩
      · exact Or.inr rfl
  | @disconnect t th ht =>
    refine hn.same (fun {u other} hu => ?_) fun {u other} hu => ?_
    · by_cases hut : t = u
      · subst hut
        rw [ht] at hu
        cases hu
        exact ⟨_, get_set_self ht _, rfl, rfl⟩
      · exact ⟨other, by rwa [List.getElem?_set_ne hut], rfl, rfl⟩
    · rcases get_set hu with ⟨rfl, rfl⟩ | ⟨-, hu'⟩
      · exact Or.inl ⟨th, ht, rfl, rfl⟩
      · exact Or.inl ⟨other, hu', rfl, rfl⟩
  | @thread t th a sh stage ht hm =>
    have hmove : ⟨t, th, a⟩ ∈ n.moving (.thread t a) := by simp [Node.moving, ht]
    generalize hst : th.stage = st at hm
    cases hm
    case rename src res => exact hn.rename hbase ht hst
    case record src res hl => exact hn.record hbase ht hst hl
    case evictPop src res free victim lru hp hs => exact hn.evict ht hst hp
    case remove src res victim ok =>
      have hok : ok = true := by simpa [Act.removeFails] using hfs.1 _ hmove
      subst hok
      exact hn.remove ht hst (hspare _ hmove victim (by simp [hst, Stage.victim]))
    case touchHead hl =>
      exact hn.quiet ht (by rw [hst]; rfl) rfl (by rw [hst]; rfl) rfl rfl
        fun e => LruCache.mem_touch
    case touchHit file hl =>
      exact hn.quiet ht (by rw [hst]; rfl) rfl (by rw [hst]; rfl) rfl rfl
        fun e => LruCache.mem_touch
    all_goals
      exact hn.quiet ht (by rw [hst]; rfl) rfl (by rw [hst]; rfl) rfl rfl fun e => Iff.rfl
  | background _ hsem hl =>
    exact ⟨fun k => hn.agree k, hn.recording, hn.victim⟩
  | restart b =>
    -- the seeds of the LRU are the files left, and no request is on its way
    have hkill : ∀ st : Stage, st.kill.recording = none ∧ st.kill.victim = none := by
      intro st
      cases st <;> exact ⟨rfl, rfl⟩
    refine ⟨fun k => Or.inl (b.tracks cfg (hfs.2 b rfl) k), ?_, ?_⟩
    · intro u other res hu hrec
      obtain ⟨th, -, rfl⟩ := get_kill hu
      rw [(hkill th.stage).1] at hrec
      cases hrec
    · intro u other k hu hvic
      obtain ⟨th, -, rfl⟩ := get_kill hu
      rw [(hkill th.stage).2] at hvic
      cases hvic

theorem tracked_init (cfg : Config) : (Node.init cfg).Tracked cfg :=
  ⟨fun k => Or.inl fun size => by simp [Node.init, Shared.fresh],
    by simp [Node.init], by simp [Node.init]⟩

/-! ### A node at rest -/

/-- The size of the files in the cache dir. -/
def diskBytes (disk : AList fun _ : Bytes => Bytes) : ℕ :=
  (disk.entries.map fun e => e.2.length).sum

/-- The LRU tracks exactly the files on disk, and its total is theirs, as an `int64`. -/
structure Shared.Agrees (sh : Shared) : Prop where
  tracks : ∀ k, sh.Tracks k
  total : sh.lru.totalBytes = Int64.ofNat (diskBytes sh.disk)
  exact : diskBytes sh.disk < 2 ^ 63 → sh.lru.totalBytes.toInt = diskBytes sh.disk

/-- The entries of an LRU that tracks every file are the files, in some order. -/
theorem Shared.Tracks.perm (h : ∀ k, sh.Tracks k) :
    sh.lru.entries.Perm (sh.disk.entries.map fun e => (e.1, Int64.ofNat e.2.length)) := by
  have hdisk :
      ((sh.disk.entries.map fun e => (e.1, Int64.ofNat e.2.length)).map Prod.fst).Nodup := by
    rw [List.map_map]
    exact sh.disk.nodupKeys
  refine (List.perm_ext_iff_of_nodup (List.Nodup.of_map _ sh.lru.keys_nodup)
    (List.Nodup.of_map _ hdisk)).mpr ?_
  rintro ⟨k, size⟩
  rw [h k size, Option.map_eq_some_iff]
  simp only [List.mem_map, Prod.mk.injEq]
  constructor
  · rintro ⟨file, hlook, rfl⟩
    exact ⟨⟨k, file⟩, AList.mem_lookup_iff.mp hlook, rfl, rfl⟩
  · rintro ⟨⟨k', file⟩, hmem, rfl, rfl⟩
    exact ⟨file, AList.mem_lookup_iff.mpr hmem, rfl⟩

/-- Sums of `int64` sizes wrap as the sum of the sizes does. -/
theorem ofInt_sum_toInt (sizes : List ℕ) :
    Int64.ofInt ((sizes.map fun n => (Int64.ofNat n).toInt).sum) = Int64.ofNat sizes.sum := by
  induction sizes with
  | nil => rfl
  | cons n sizes ih =>
    rw [List.map_cons, List.sum_cons, List.sum_cons, Int64.ofInt_add, ih, Int64.ofInt_toInt,
      ← Int64.ofInt_eq_ofNat, ← Int64.ofInt_eq_ofNat, ← Int64.ofInt_eq_ofNat, ← Int64.ofInt_add]
    push_cast
    rfl

theorem Shared.Tracks.agrees (h : ∀ k, sh.Tracks k) : sh.Agrees := by
  have htotal : sh.lru.totalBytes = Int64.ofNat (diskBytes sh.disk) := by
    rw [LruCache.totalBytes_eq, Lru.bytes_perm (Shared.Tracks.perm h), Lru.bytes, List.map_map]
    have := ofInt_sum_toInt (sh.disk.entries.map fun e => e.2.length)
    rw [List.map_map] at this
    exact this
  refine ⟨h, htotal, fun hlt => ?_⟩
  rw [htotal, ← Int64.ofInt_eq_ofNat, Lru.ofInt_toInt_of_lt (by omega) (by exact_mod_cast hlt)]

theorem Stage.settled_of_ended (h : st.ended) : st.recording = none ∧ st.victim = none := by
  cases st <;> first | exact ⟨rfl, rfl⟩ | cases h

/-- **LRU accounting agrees with the disk**, where no file is removed between its rename
and its `Record`: at rest the LRU tracks exactly the files on disk. -/
theorem lru_agrees_with_disk {as : List NodeAct} {n : Node}
    (hfs : Along (Node.step cfg) Node.FsOk (Node.init cfg) as)
    (hspare : Along (Node.step cfg) (Node.SparesRenamed cfg) (Node.init cfg) as)
    (h : exec (Node.step cfg) (Node.init cfg) as = some n) (hquiet : n.Quiet) :
    n.shared.Agrees := by
  have hinv : n.Base cfg ∧ n.Tracked cfg := by
    refine exec_invariant (fun n => n.Base cfg ∧ n.Tracked cfg)
      (fun {s b s'} hs hok hstep => ?_) ⟨base_init cfg, tracked_init cfg⟩ (hfs.and hspare) h
    exact ⟨hs.1.step hstep, hs.2.step hs.1 hok.1 hok.2 hstep⟩
  refine Shared.Tracks.agrees fun k => ?_
  rcases hinv.2.agree k with htr | ⟨u, other, hu, hrec, -⟩ | ⟨u, other, hu, hvic⟩
  · exact htr
  · rw [(Stage.settled_of_ended (hquiet other (List.mem_of_getElem? hu))).1] at hrec
    cases hrec
  · rw [(Stage.settled_of_ended (hquiet other (List.mem_of_getElem? hu))).2] at hvic
    cases hvic

/-- A node with room for one byte. -/
def Config.tight : Config := { Config.lone with maxBytes := 1 }

/-- A leader caches a body and evicts the one entry there was. -/
def replacing (t : Tid) : List NodeAct :=
  [.thread t .record, .thread t (.evict none), .thread t (.remove true), .thread t (.evict none),
    .thread t .book]

/-- A second file replaces the first. -/
def replaceRun : List NodeAct :=
  missing 0 [120] ++ fetching 0 [7] ++ caching 0 ++ ending 0 ++
    missing 1 [121] ++ fetching 1 [8] ++ [.thread 1 (.write none)] ++ replacing 1 ++ ending 1

/-- A late joiner renames a tracked file again; before it records it, the file is evicted. -/
def evictedRun : List NodeAct :=
  [.arrive (.ranged [120]), .thread 0 (.check true), .arrive (.ranged [120]),
    .thread 1 (.check true), .thread 0 .join] ++ fetching 0 [7] ++ caching 0 ++ ending 0 ++
    [.thread 1 .join] ++ fetching 1 [7] ++ [.thread 1 (.write none)] ++
    missing 2 [121] ++ fetching 2 [8] ++ [.thread 2 (.write none)] ++ replacing 2 ++ ending 2 ++
    replacing 1 ++ ending 1

theorem lru_agrees_with_disk_replaced :
    ∃ n, exec (Node.step .tight) (Node.init .tight) replaceRun = some n ∧ n.shared.Agrees ∧
      n.shared.disk.keys = [(Request.ranged [121]).name .tight] := by
  obtain ⟨n, hn, hp⟩ := exec_of_any (Node.step .tight) (Node.init .tight) replaceRun
    (fun n => n.Quiet ∧ n.shared.disk.keys = [(Request.ranged [121]).name .tight])
    (by decide +kernel)
  obtain ⟨hquiet, hkeys⟩ := of_decide_eq_true hp
  exact ⟨n, hn, lru_agrees_with_disk (by decide +kernel) (by decide +kernel) hn hquiet, hkeys⟩

/-- The LRU ends up with a key whose file an eviction removed before its `Record`. -/
theorem evicted_before_record :
    ∃ n, Along (Node.step .tight) Node.FsOk (Node.init .tight) evictedRun ∧
      exec (Node.step .tight) (Node.init .tight) evictedRun = some n ∧ n.Quiet ∧
      n.shared.lru.entries = [((Request.ranged [120]).name .tight, 1)] ∧
      n.shared.disk.entries = [] ∧ ¬ n.shared.Agrees := by
  obtain ⟨n, hn, hp⟩ := exec_of_any (Node.step .tight) (Node.init .tight) evictedRun
    (fun n => n.Quiet ∧ n.shared.lru.entries = [((Request.ranged [120]).name .tight, 1)] ∧
      n.shared.disk.entries = []) (by decide +kernel)
  obtain ⟨hquiet, hlru, hdisk⟩ := of_decide_eq_true hp
  refine ⟨n, by decide +kernel, hn, hquiet, hlru, hdisk, fun hagree => ?_⟩
  have hlook := (hagree.tracks ((Request.ranged [120]).name .tight) 1).mp (by simp [hlru])
  rw [Option.map_eq_some_iff] at hlook
  obtain ⟨file, hfile, -⟩ := hlook
  have hmem := AList.mem_lookup_iff.mp hfile
  rw [hdisk] at hmem
  cases hmem

end XetDcCache
