/-
Recency across a restart (main.go `seedLRU`, lru.go, xorb.go).

`Served.step` serves one request of `getXorb` at a time, from its disk check to its answer.
A hit, a HEAD probe and a fill all move their entry of the LRU; only a fill changes the
modification time of the file, which is what `seedLRU` orders by.

* `recency_survives_iff` — a restart keeps the order exactly if of any two files held the
  one written later was also used later; then it changes no later eviction;
* `hit_forgotten_by_restart` — a run where an old file is hit and then evicted as the oldest.
-/
import XetDcCache.GetXorb
import XetDcCache.Transition

namespace XetDcCache

open Transition

/-! ### One request at a time -/

/-- `mtime` has the time of the last write of each file, `lastUse` of its last hit, probe or
write, and `evicted` is the history of the keys handed to the delete callback. -/
structure Served where
  lru : LruCache Bytes
  disk : AList fun _ : Bytes => Bytes
  mtime : Bytes → ℤ
  clock : ℤ
  lastUse : Bytes → ℤ
  evicted : List Bytes

/-- A request for a file.  `ok` says whether a GET can read the file if it is there, `fetched` is
the body of its fill, if it gets one, and `free` what `freeFn` answers during `Record`. -/
inductive Ask
  | head
  | get (ok : Bool) (fetched : Option Bytes) (free : Option (ℕ → Int64))

structure ServedAct where
  time : ℤ
  name : Bytes
  ask : Ask

/-- The cache dir without the deleted files. -/
def deleteAll (disk : AList fun _ : Bytes => Bytes) (deleted : List Bytes) :
    AList fun _ : Bytes => Bytes :=
  deleted.foldl (fun d k => d.erase k) disk

namespace Served

def start (max minFree : Int64) : Served :=
  ⟨.new max minFree, ∅, fun _ => 0, 0, fun _ => 0, []⟩

/-- A request that finds nothing and caches nothing. -/
def idle (s : Served) (time : ℤ) : Served := { s with clock := time }

/-- `Touch`. -/
def touch (s : Served) (time : ℤ) (name : Bytes) : Served :=
  { s with
    lru := s.lru.touch name
    clock := time
    lastUse := Function.update s.lastUse name time }

/-- The write of a fill, and its `Record`. -/
def fill (s : Served) (time : ℤ) (name body : Bytes) (free : Option (ℕ → Int64)) : Served :=
  let recorded := s.lru.record name (Int64.ofNat body.length) free
  { lru := recorded.2
    disk := deleteAll (s.disk.insert name body) recorded.1
    mtime := Function.update s.mtime name time
    clock := time
    lastUse := Function.update s.lastUse name time
    evicted := s.evicted ++ recorded.1 }

def serve (s : Served) (a : ServedAct) : Served :=
  match a.ask with
  | .head =>
    match s.disk.lookup a.name with
    | some _ => s.touch a.time a.name
    | none => s.idle a.time
  | .get ok fetched free =>
    match (if ok then s.disk.lookup a.name else none), fetched with
    | some _, _ => s.touch a.time a.name
    | none, some body => s.fill a.time a.name body free
    | none, none => s.idle a.time

/-- Times increase. -/
def step (s : Served) (a : ServedAct) : Option Served :=
  if s.clock < a.time then some (s.serve a) else none

end Served

/-! ### The restart -/

/-- A boot that reads and removes files without error. -/
structure Boot.Reads (b : Boot) (s : Served) : Prop where
  readable : ∀ k, b.readable k
  mtime : b.mtime = s.mtime
  removes : ∀ k, b.removes k

namespace Served

/-- What `Load` makes of the files before it evicts. -/
def rebuilt (s : Served) (b : Boot) (max minFree : Int64) : Lru.Raw Bytes :=
  (Lru.newRaw max minFree).loadSorted (b.sort.1 (b.seeds s.disk))

/-- The process stops, and boots with these limits. -/
def restart (s : Served) (b : Boot) (max minFree : Int64) : Served :=
  let loaded := (LruCache.new max minFree).load b.sort (b.seeds s.disk) b.free
  { s with
    lru := loaded.2
    disk := b.sweep s.disk loaded.1
    evicted := s.evicted ++ loaded.1 }

/-- The process goes on under these limits, which it enforces at once. -/
def lower (s : Served) (max minFree : Int64) (free : Option (ℕ → Int64)) : Served :=
  let evicted := (s.lru.withLimits max minFree).evictLocked free
  { s with
    lru := evicted.2
    disk := deleteAll s.disk evicted.1
    evicted := s.evicted ++ evicted.1 }

/-- Of two files held, the one written later was used later. -/
def UsedAsWritten (s : Served) : Prop :=
  ∀ k ∈ s.disk, ∀ k' ∈ s.disk, s.mtime k < s.mtime k' → s.lastUse k < s.lastUse k'

/-! ### What every run keeps -/

/-- The LRU tracks the files with their sizes, in the order of their last use, and no two were
written at one time. -/
structure Inv (s : Served) : Prop where
  tracked : ∀ {k : Bytes} {size : Int64}, (k, size) ∈ s.lru.entries ↔
    ∃ body, s.disk.lookup k = some body ∧ size = Int64.ofNat body.length
  order : s.lru.entries.Pairwise fun e e' => s.lastUse e.1 < s.lastUse e'.1
  used : ∀ {k}, k ∈ s.disk → s.mtime k ≤ s.clock ∧ s.lastUse k ≤ s.clock
  apart : ∀ {k k'}, k ∈ s.disk → k' ∈ s.disk → s.mtime k = s.mtime k' → k = k'

theorem Inv.mem {s : Served} (h : s.Inv) {e : Bytes × Int64} (he : e ∈ s.lru.entries) :
    e.1 ∈ s.disk := by
  obtain ⟨body, hb, -⟩ := h.tracked.mp he
  exact AList.lookup_isSome.mp (by rw [hb]; rfl)

theorem Inv.exists_entry {s : Served} (h : s.Inv) {k : Bytes} (hk : k ∈ s.disk) :
    ∃ e ∈ s.lru.entries, e.1 = k := by
  obtain ⟨body, hb⟩ := Option.isSome_iff_exists.mp (AList.lookup_isSome.mpr hk)
  exact ⟨(k, Int64.ofNat body.length), h.tracked.mpr ⟨body, hb, rfl⟩, rfl⟩

end Served

theorem lookup_deleteAll : ∀ {deleted : List Bytes} {disk : AList fun _ : Bytes => Bytes}
    {k : Bytes}, (deleteAll disk deleted).lookup k = if k ∈ deleted then none else disk.lookup k := by
  intro deleted
  induction deleted with
  | nil =>
    intro disk k
    rw [if_neg List.not_mem_nil]
    rfl
  | cons v deleted ih =>
    intro disk k
    show (deleteAll (disk.erase v) deleted).lookup k = _
    rw [ih]
    by_cases hk : k ∈ deleted
    · rw [if_pos hk, if_pos (List.mem_cons_of_mem _ hk)]
    · rw [if_neg hk]
      by_cases hkv : k = v
      · rw [if_pos (by simp [hkv]), hkv, AList.lookup_erase]
      · rw [if_neg (by simp [hkv, hk]), AList.lookup_erase_ne hkv]

namespace Served

variable {s s' : Served}

theorem start_inv (max minFree : Int64) : (start max minFree).Inv where
  tracked := by simp [start]
  order := List.Pairwise.nil
  used := fun hk => absurd hk (AList.notMem_empty _)
  apart := fun hk => absurd hk (AList.notMem_empty _)

/-- Using a file moves its entry to the end. -/
theorem Inv.touch (h : s.Inv) {time : ℤ} {name : Bytes} (ht : s.clock < time) :
    (s.touch time name).Inv where
  tracked := by
    intro k size
    exact LruCache.mem_touch.trans h.tracked
  order := by
    show (s.lru.touch name).entries.Pairwise _
    rw [LruCache.touch_entries, List.pairwise_append]
    have hne : ∀ {e : Bytes × Int64}, e.1 ≠ name →
        Function.update s.lastUse name time e.1 = s.lastUse e.1 := fun he =>
      Function.update_of_ne he _ _
    refine ⟨?_, ?_, ?_⟩
    · refine (h.order.filter _).imp_of_mem fun {e e'} he he' hlt => ?_
      show Function.update s.lastUse name time e.1 < Function.update s.lastUse name time e'.1
      rw [hne (of_decide_eq_true (List.mem_filter.mp he).2),
        hne (of_decide_eq_true (List.mem_filter.mp he').2)]
      exact hlt
    · -- one entry has the key
      have hnd := s.lru.keys_nodup
      have hsub : ((s.lru.entries.filter fun e => e.1 = name).map Prod.fst).Nodup :=
        (List.filter_sublist.map Prod.fst).nodup hnd
      refine (List.pairwise_map.mp hsub).imp_of_mem fun {e e'} he he' hlt => ?_
      have hk := of_decide_eq_true (List.mem_filter.mp he).2
      have hk' := of_decide_eq_true (List.mem_filter.mp he').2
      exact absurd (hk.trans hk'.symm) hlt
    · intro e he e' he'
      obtain ⟨he, hk⟩ := List.mem_filter.mp he
      have hk' := of_decide_eq_true (List.mem_filter.mp he').2
      show Function.update s.lastUse name time e.1 < Function.update s.lastUse name time e'.1
      rw [hne (of_decide_eq_true hk), hk', Function.update_self]
      exact (h.used (h.mem he)).2.trans_lt ht
  used := by
    intro k hk
    refine ⟨(h.used hk).1.trans ht.le, ?_⟩
    show Function.update s.lastUse name time k ≤ time
    by_cases hkn : k = name
    · rw [hkn, Function.update_self]
    · rw [Function.update_of_ne hkn]
      exact (h.used hk).2.trans ht.le
  apart := h.apart

/-- A fill puts its entry at the end, and evicts files with their entries. -/
theorem Inv.fill (h : s.Inv) {time : ℤ} {name body : Bytes} {free : Option (ℕ → Int64)}
    (ht : s.clock < time) : (s.fill time name body free).Inv := by
  set c := s.lru.recordEntry name (Int64.ofNat body.length) with hc
  have hev := c.evictLocked_evicts free
  have hmem : ∀ {e : Bytes × Int64}, e ∈ (c.evictLocked free).2.entries ↔
      e ∈ c.entries ∧ e.1 ∉ (c.evictLocked free).1 := hev.mem_iff c.keys_nodup
  -- what is left on disk was there, or is the new file
  have hdisk : ∀ {k}, k ∈ (s.fill time name body free).disk → k = name ∨ k ≠ name ∧ k ∈ s.disk := by
    intro k hk
    rw [← AList.lookup_isSome] at hk
    change ((deleteAll (s.disk.insert name body) _).lookup k).isSome at hk
    rw [lookup_deleteAll] at hk
    split at hk
    · cases hk
    · by_cases hkn : k = name
      · exact Or.inl hkn
      · rw [AList.lookup_insert_ne hkn] at hk
        exact Or.inr ⟨hkn, AList.lookup_isSome.mp hk⟩
  refine ⟨?_, ?_, ?_, ?_⟩
  · intro k size
    show (k, size) ∈ (c.evictLocked free).2.entries ↔ ∃ content,
      (deleteAll (s.disk.insert name body) (c.evictLocked free).1).lookup k = some content ∧ _
    rw [hmem, hc, LruCache.mem_recordEntry, lookup_deleteAll]
    by_cases hd : k ∈ (c.evictLocked free).1
    · simp [← hc, hd]
    · rw [if_neg hd]
      by_cases hkn : k = name
      · rw [hkn, AList.lookup_insert]
        simp [← hc, hkn ▸ hd]
      · rw [AList.lookup_insert_ne hkn, ← h.tracked]
        simp [← hc, hd, hkn]
  · show (c.evictLocked free).2.entries.Pairwise _
    rw [hev.survivors]
    refine List.Pairwise.sublist (List.drop_sublist _ _) ?_
    rw [hc, LruCache.recordEntry_entries, List.pairwise_append]
    have hne : ∀ {e : Bytes × Int64}, e.1 ≠ name →
        Function.update s.lastUse name time e.1 = s.lastUse e.1 := fun he =>
      Function.update_of_ne he _ _
    refine ⟨?_, List.pairwise_singleton _ _, ?_⟩
    · refine (h.order.filter _).imp_of_mem fun {e e'} he he' hlt => ?_
      show Function.update s.lastUse name time e.1 < Function.update s.lastUse name time e'.1
      rw [hne (of_decide_eq_true (List.mem_filter.mp he).2),
        hne (of_decide_eq_true (List.mem_filter.mp he').2)]
      exact hlt
    · intro e he e' he'
      obtain ⟨he, hk⟩ := List.mem_filter.mp he
      rw [List.mem_singleton.mp he']
      show Function.update s.lastUse name time e.1 < Function.update s.lastUse name time name
      rw [hne (of_decide_eq_true hk), Function.update_self]
      exact (h.used (h.mem he)).2.trans_lt ht
  · intro k hk
    show Function.update s.mtime name time k ≤ time ∧ Function.update s.lastUse name time k ≤ time
    rcases hdisk hk with rfl | ⟨hkn, hk⟩
    · rw [Function.update_self, Function.update_self]
      exact ⟨le_rfl, le_rfl⟩
    · rw [Function.update_of_ne hkn, Function.update_of_ne hkn]
      exact ⟨(h.used hk).1.trans ht.le, (h.used hk).2.trans ht.le⟩
  · intro k k' hk hk' heq
    change Function.update s.mtime name time k = Function.update s.mtime name time k' at heq
    -- the new file is the only one written at its time
    rcases hdisk hk with hkn | ⟨hkn, hk⟩ <;> rcases hdisk hk' with hkn' | ⟨hkn', hk'⟩
    · rw [hkn, hkn']
    · rw [hkn, Function.update_self, Function.update_of_ne hkn'] at heq
      exact absurd heq ((h.used hk').1.trans_lt ht).ne'
    · rw [hkn', Function.update_self, Function.update_of_ne hkn] at heq
      exact absurd heq ((h.used hk).1.trans_lt ht).ne
    · rw [Function.update_of_ne hkn, Function.update_of_ne hkn'] at heq
      exact h.apart hk hk' heq

theorem Inv.idle (h : s.Inv) {time : ℤ} (ht : s.clock < time) : (s.idle time).Inv where
  tracked := h.tracked
  order := h.order
  used := fun hk => ⟨(h.used hk).1.trans ht.le, (h.used hk).2.trans ht.le⟩
  apart := h.apart

theorem serve_cases (s : Served) (a : ServedAct) :
    s.serve a = s.touch a.time a.name ∨
      (∃ body free, s.serve a = s.fill a.time a.name body free) ∨
      s.serve a = s.idle a.time := by
  fun_cases Served.serve s a
  case case1 => exact Or.inl rfl
  case case3 => exact Or.inl rfl
  case case4 => exact Or.inr (Or.inl ⟨_, _, rfl⟩)
  all_goals exact Or.inr (Or.inr rfl)

theorem Inv.step {a : ServedAct} (h : s.Inv) (hstep : s.step a = some s') : s'.Inv := by
  rw [Served.step] at hstep
  split at hstep
  · next ht =>
    cases hstep
    rcases s.serve_cases a with heq | ⟨body, free, heq⟩ | heq
    · exact heq ▸ h.touch ht
    · exact heq ▸ h.fill ht
    · exact heq ▸ h.idle ht
  · cases hstep

/-! ### The two orders -/

theorem seeds_eq {b : Boot} (hb : b.Reads s) :
    b.seeds s.disk = s.disk.entries.map fun e => ⟨e.1, Int64.ofNat e.2.length, s.mtime e.1⟩ := by
  rw [Boot.seeds, List.filter_eq_self.mpr fun e _ => hb.readable e.1, hb.mtime]

/-- The entries `Load` makes are those of the running process, by modification time. -/
theorem rebuilt_spec (h : s.Inv) {b : Boot} (hb : b.Reads s) (max minFree : Int64) :
    (s.rebuilt b max minFree).Wf ∧ (s.rebuilt b max minFree).entries.Perm s.lru.entries ∧
      (s.rebuilt b max minFree).entries.Pairwise fun e e' => s.mtime e.1 ≤ s.mtime e'.1 := by
  have hnd : ((b.seeds s.disk).map LruSeed.key).Nodup := by
    rw [seeds_eq hb, List.map_map]
    exact s.disk.nodupKeys
  obtain ⟨hwf, hent⟩ := Lru.loadSorted_new max minFree b.sort hnd
  obtain ⟨hperm, hsorted⟩ := b.sort.2 (b.seeds s.disk)
  refine ⟨hwf, ?_, ?_⟩
  · have hnodup : (s.rebuilt b max minFree).entries.Nodup := by
      refine List.Nodup.of_map Prod.fst ?_
      rw [← Lru.keys_eq_map]
      exact hwf.keys_nodup
    refine (List.perm_ext_iff_of_nodup hnodup (List.Nodup.of_map _ s.lru.keys_nodup)).mpr ?_
    rintro ⟨k, size⟩
    rw [h.tracked, rebuilt, hent, List.mem_map]
    constructor
    · rintro ⟨seed, hseed, heq⟩
      have hin := hperm.subset hseed
      rw [seeds_eq hb, List.mem_map] at hin
      obtain ⟨e, he, rfl⟩ := hin
      cases heq
      exact ⟨e.2, AList.mem_lookup_iff.mpr he, rfl⟩
    · rintro ⟨body, hl, rfl⟩
      refine ⟨⟨k, Int64.ofNat body.length, s.mtime k⟩, hperm.mem_iff.mpr ?_, rfl⟩
      rw [seeds_eq hb, List.mem_map]
      exact ⟨⟨k, body⟩, AList.mem_lookup_iff.mp hl, rfl⟩
  · rw [rebuilt, hent, List.pairwise_map]
    -- the seeds carry the times of the disk, and these are what they are sorted by
    have htime : ∀ {seed}, seed ∈ b.sort.1 (b.seeds s.disk) → seed.mtime = s.mtime seed.key := by
      intro seed hseed
      have hin := hperm.subset hseed
      rw [seeds_eq hb, List.mem_map] at hin
      obtain ⟨e, -, rfl⟩ := hin
      rfl
    refine hsorted.imp_of_mem fun {x y} hx hy hle => ?_
    show s.mtime x.key ≤ s.mtime y.key
    rw [← htime hx, ← htime hy]
    exact hle

/-- The order of the running process is that of the modification times exactly if files were
used as they were written. -/
theorem Inv.usedAsWritten_iff (h : s.Inv) :
    s.UsedAsWritten ↔ s.lru.entries.Pairwise fun e e' => s.mtime e.1 ≤ s.mtime e'.1 := by
  constructor
  · intro hu
    refine h.order.imp_of_mem fun {e e'} he he' hlt => ?_
    by_contra hgt
    exact (hu _ (h.mem he') _ (h.mem he) (not_le.mp hgt)).not_gt hlt
  · intro hp k hk k' hk' hlt
    obtain ⟨e, he, rfl⟩ := h.exists_entry hk
    obtain ⟨e', he', rfl⟩ := h.exists_entry hk'
    -- of two entries either may come first
    let R := fun e e' : Bytes × Int64 => (s.mtime e.1 < s.mtime e'.1 → s.lastUse e.1 < s.lastUse e'.1) ∧
      (s.mtime e'.1 < s.mtime e.1 → s.lastUse e'.1 < s.lastUse e.1)
    have hsymm : Std.Symm R := ⟨fun _ _ hR => ⟨hR.2, hR.1⟩⟩
    have hpair : s.lru.entries.Pairwise R := (hp.and h.order).imp fun hboth =>
      ⟨fun _ => hboth.2, fun hgt => absurd hboth.1 hgt.not_ge⟩
    have hrefl : ∀ x ∈ s.lru.entries, R x x := fun _ _ =>
      ⟨fun hx => absurd hx (lt_irrefl _), fun hx => absurd hx (lt_irrefl _)⟩
    exact (hpair.forall_of_forall hrefl he he').1 hlt

/-- `Load` rebuilds the entries and the total of the running process exactly if files were used
as they were written. -/
theorem Inv.rebuilt_iff (h : s.Inv) {b : Boot} (hb : b.Reads s) (max minFree : Int64) :
    ((s.rebuilt b max minFree).entries = s.lru.entries ∧
      (s.rebuilt b max minFree).total = s.lru.totalBytes) ↔ s.UsedAsWritten := by
  obtain ⟨hwf, hperm, hsorted⟩ := rebuilt_spec h hb max minFree
  rw [h.usedAsWritten_iff]
  constructor
  · rintro ⟨heq, -⟩
    exact heq ▸ hsorted
  · intro hp
    refine ⟨List.Perm.eq_of_pairwise (fun e e' he he' hle hle' => ?_) hsorted hp hperm, ?_⟩
    · -- equal times are those of one file, and a file has one entry
      have hin := hperm.subset he
      have hkey := h.apart (h.mem hin) (h.mem he') (le_antisymm hle hle')
      exact List.inj_on_of_nodup_map s.lru.keys_nodup hin he' hkey
    · rw [hwf.total, Lru.bytes_perm hperm, LruCache.totalBytes_eq]

/-! ### The runs after it -/

/-- Two states no later request can tell apart. -/
structure Alike (s s' : Served) : Prop where
  lru : s.lru.Same s'.lru
  disk : s.disk = s'.disk
  clock : s.clock = s'.clock
  evicted : s.evicted = s'.evicted

theorem Alike.serve (h : s.Alike s') (a : ServedAct) : (s.serve a).Alike (s'.serve a) := by
  have htouch : (s.touch a.time a.name).Alike (s'.touch a.time a.name) :=
    ⟨h.lru.touch a.name, h.disk, rfl, h.evicted⟩
  have hidle : (s.idle a.time).Alike (s'.idle a.time) := ⟨h.lru, h.disk, rfl, h.evicted⟩
  have hfill : ∀ body free,
      (s.fill a.time a.name body free).Alike (s'.fill a.time a.name body free) := by
    intro body free
    obtain ⟨hds, hsame⟩ := (h.lru.recordEntry a.name (Int64.ofNat body.length)).evictLocked free
    refine ⟨hsame, ?_, rfl, ?_⟩
    · show deleteAll (s.disk.insert a.name body) _ = deleteAll (s'.disk.insert a.name body) _
      rw [h.disk]
      exact congrArg _ hds
    · show s.evicted ++ _ = s'.evicted ++ _
      rw [h.evicted]
      exact congrArg _ hds
  rw [Served.serve, Served.serve, h.disk]
  cases a.ask with
  | head =>
    cases hl : s'.disk.lookup a.name with
    | some body => exact htouch
    | none => exact hidle
  | get ok fetched free =>
    dsimp only
    cases hl : (if ok then s'.disk.lookup a.name else none) with
    | some body => exact htouch
    | none =>
      cases fetched with
      | some body => exact hfill body free
      | none => exact hidle

/-- The same entries are evicted in the same order. -/
theorem Alike.exec : ∀ {later : List ServedAct} {s s' : Served}, s.Alike s' →
    (Transition.exec step s later).map Served.evicted =
      (Transition.exec step s' later).map Served.evicted := by
  intro later
  induction later with
  | nil =>
    intro s s' h
    simp [h.evicted]
  | cons a later ih =>
    intro s s' h
    rw [Transition.exec, Transition.exec, step, step, h.clock]
    by_cases ht : s'.clock < a.time
    · rw [if_pos ht, if_pos ht, Option.bind_some, Option.bind_some]
      exact ih (h.serve a)
    · rw [if_neg ht, if_neg ht]

theorem sweep_eq_deleteAll {b : Boot} (hb : ∀ k, b.removes k) (disk : AList fun _ : Bytes => Bytes)
    (deleted : List Bytes) : b.sweep disk deleted = deleteAll disk deleted := by
  rw [Boot.sweep, deleteAll]
  exact List.foldl_ext _ _ _ fun d k _ => if_pos (hb k)

/-- A restart that keeps the order is a change of limits. -/
theorem restart_alike_lower {b : Boot} (hb : b.Reads s) {max minFree : Int64}
    (heq : (s.rebuilt b max minFree).entries = s.lru.entries) :
    (s.restart b max minFree).Alike (s.lower max minFree b.free) := by
  have hwf : (s.rebuilt b max minFree).Wf := (Lru.loadSorted_spec (Lru.newRaw_wf max minFree)).1
  have hsame : LruCache.Same ⟨s.rebuilt b max minFree, hwf⟩ (s.lru.withLimits max minFree) := by
    have hnew : (Lru.newRaw max minFree : Lru.Raw Bytes).Wf := Lru.newRaw_wf max minFree
    obtain ⟨-, -, hmax, hmin⟩ := @Lru.loadSorted_spec _ _ (b.sort.1 (b.seeds s.disk)) _ hnew
    exact ⟨heq, hmax, hmin⟩
  obtain ⟨hds, hlru⟩ := hsame.evictLocked b.free
  refine ⟨hlru, ?_, rfl, congrArg (s.evicted ++ ·) hds⟩
  show b.sweep s.disk _ = deleteAll s.disk _
  rw [sweep_eq_deleteAll hb.removes]
  exact congrArg _ hds

/-- Limits that are kept and not exceeded change nothing. -/
theorem lower_alike {free : Option (ℕ → Int64)}
    (hnil : ((s.lru.withLimits s.lru.raw.max s.lru.raw.minFree).evictLocked free).1 = []) :
    (s.lower s.lru.raw.max s.lru.raw.minFree free).Alike s := by
  have hsame : (s.lru.withLimits s.lru.raw.max s.lru.raw.minFree).Same s.lru := ⟨rfl, rfl, rfl⟩
  have hev := (s.lru.withLimits s.lru.raw.max s.lru.raw.minFree).evictLocked_evicts free
  obtain ⟨-, -, hmax, hmin⟩ := Lru.evictLocked_spec
    (s.lru.withLimits s.lru.raw.max s.lru.raw.minFree).wf free
  have hent := hev.survivors
  rw [hnil, List.length_nil, List.drop_zero] at hent
  refine ⟨⟨hent, hmax, hmin⟩, ?_, rfl, ?_⟩
  · show deleteAll s.disk _ = s.disk
    rw [hnil]
    rfl
  · show s.evicted ++ _ = s.evicted
    rw [hnil, List.append_nil]

end Served

/-! ### The result -/

/-- **Recency survives a restart** exactly if of any two files held the one written later was
also used later.  Then, whatever the limits and the later requests, the same entries are evicted
in the same order as had the running process enforced those limits; and as without either, if
the limits are kept and the boot evicts nothing. -/
theorem recency_survives_iff {max minFree : Int64} {as : List ServedAct} {s : Served}
    (h : exec Served.step (.start max minFree) as = some s) {b : Boot} (hb : b.Reads s)
    (max' minFree' : Int64) :
    (((s.rebuilt b max' minFree').entries = s.lru.entries ∧
      (s.rebuilt b max' minFree').total = s.lru.totalBytes) ↔ s.UsedAsWritten) ∧
    (s.UsedAsWritten → ∀ later,
      (exec Served.step (s.restart b max' minFree') later).map Served.evicted =
        (exec Served.step (s.lower max' minFree' b.free) later).map Served.evicted) ∧
    (s.UsedAsWritten → max' = s.lru.raw.max → minFree' = s.lru.raw.minFree →
      (s.restart b max' minFree').evicted = s.evicted → ∀ later,
      (exec Served.step (s.restart b max' minFree') later).map Served.evicted =
        (exec Served.step s later).map Served.evicted) := by
  have hI : s.Inv := exec_always Served.Inv (fun hs hstep => hs.step hstep)
    (Served.start_inv max minFree) h
  have hiff := hI.rebuilt_iff hb max' minFree'
  refine ⟨hiff, fun hu later => ?_, ?_⟩
  · exact (Served.restart_alike_lower hb (hiff.mpr hu).1).exec
  · rintro hu rfl rfl hnone later
    have halike := Served.restart_alike_lower hb (hiff.mpr hu).1
    refine halike.exec.trans (Served.Alike.exec (Served.lower_alike ?_))
    have hev := halike.evicted.symm.trans hnone
    exact List.append_right_eq_self.mp hev

/-! ### Two files -/

/-- Two fills of one byte. -/
def twoFills : List ServedAct :=
  [⟨1, [97], .get true (some [7]) none⟩, ⟨2, [98], .get true (some [8]) none⟩]

/-- The boot of a state. -/
def Served.boot (s : Served) : Boot where
  readable _ := true
  mtime := s.mtime
  sort := Lru.stableSort
  free := none
  removes _ := true

theorem Served.boot_reads (s : Served) : s.boot.Reads s := ⟨fun _ => rfl, rfl, fun _ => rfl⟩

/-- The second file is probed: the order is that of the writes. -/
theorem recency_survives_probe :
    ∃ s, exec Served.step (.start 0 0) (twoFills ++ [⟨3, [98], .head⟩]) = some s ∧
      (s.rebuilt s.boot 1 0).entries = s.lru.entries := by
  obtain ⟨s, hs, h⟩ := exec_of_any Served.step (.start 0 0) (twoFills ++ [⟨3, [98], .head⟩])
    (fun s => s.disk.keys = [[98], [97]] ∧ s.mtime [97] = 1 ∧ s.mtime [98] = 2 ∧
      s.lastUse [97] = 1 ∧ s.lastUse [98] = 3) (by decide +kernel)
  obtain ⟨hkeys, hm, hm', hu, hu'⟩ := of_decide_eq_true h
  refine ⟨s, hs, ((recency_survives_iff hs s.boot_reads 1 0).1.mpr ?_).1⟩
  intro k hk k' hk' hlt
  rw [AList.mem_keys, hkeys] at hk hk'
  simp only [List.mem_cons, List.not_mem_nil, or_false] at hk hk'
  rcases hk with rfl | rfl <;> rcases hk' with rfl | rfl <;> omega

/-- The first file is hit last: a budget of one byte evicts it after a restart, and the second
without one. -/
theorem hit_forgotten_by_restart :
    ∃ s, exec Served.step (.start 0 0) (twoFills ++ [⟨3, [97], .get true none none⟩]) = some s ∧
      s.lru.entries = [([98], 1), ([97], 1)] ∧
      (s.rebuilt s.boot 0 0).entries = [([97], 1), ([98], 1)] ∧
      (s.lower 1 0 none).evicted = [[98]] ∧ (s.restart s.boot 1 0).evicted = [[97]] := by
  obtain ⟨s, hs, h⟩ := exec_of_any Served.step (.start 0 0)
    (twoFills ++ [⟨3, [97], .get true none none⟩])
    (fun s => s.lru.entries = [([98], 1), ([97], 1)] ∧
      (s.rebuilt s.boot 0 0).entries = [([97], 1), ([98], 1)] ∧
      (s.lower 1 0 none).evicted = [[98]] ∧ (s.restart s.boot 1 0).evicted = [[97]])
    (by decide +kernel)
  exact ⟨s, hs, of_decide_eq_true h⟩

end XetDcCache
