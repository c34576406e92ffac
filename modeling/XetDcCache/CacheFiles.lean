/-
The files of the range cache (xorb.go `writeCacheFileAtomic`, main.go `seedLRU`).

`CacheState.step` is the cache dir one filesystem call at a time: any number of calls of
`writeCacheFileAtomic` with the `Record` after each, where every call may fail and a write may
store any prefix, and restarts on the dir the killed process left.

* `CacheState.step_files` — a reader of the dir sees a fill only at its rename;
* `cache_files_consistent` — what is in the dir after any run, and what `seedLRU` makes of it.
-/
import XetDcCache.Threads

namespace XetDcCache

open Transition

/-! ### The cache dir -/

inductive DirEntry
  | file (content : Bytes)
  | dir
deriving DecidableEq

abbrev Dir := AList fun _ : Bytes => DirEntry

/-- `strings.HasPrefix(name, ".")`. -/
def dotted (name : Bytes) : Bool := lit "." <+: name

namespace Dir

/-- A write through an open file: one whose name is gone is in no dir. -/
def store (d : Dir) (tmp content : Bytes) : Dir :=
  if tmp ∈ d then d.insert tmp (.file content) else d

/-- The regular files `seedLRU` does not skip. -/
def files (d : Dir) : List (Bytes × Bytes) :=
  d.entries.filterMap fun e =>
    match e.2 with
    | .dir => none
    | .file content => if dotted e.1 then none else some (e.1, content)

/-- `seedLRU` up to `Load`. -/
def seeds (b : Boot) (d : Dir) : List (LruSeed Bytes) :=
  (d.files.filter fun e => b.readable e.1).map fun e =>
    ⟨e.1, Int64.ofNat e.2.length, b.mtime e.1⟩

/-- The dir once the deleted files that can be removed are. -/
def sweep (b : Boot) (d : Dir) (deleted : List Bytes) : Dir :=
  deleted.foldl (fun d k => if b.removes k then d.erase k else d) d

/-- What a reader finds at a cache path. -/
def file? (d : Dir) (name : Bytes) : Option Bytes :=
  match d.lookup name with
  | some (.file content) => some content
  | _ => none

end Dir

/-- A name `os.CreateTemp` makes up. -/
def tmpName (name random : Bytes) : Bytes := lit "." ++ name ++ lit ".tmp-" ++ random

theorem dotted_tmpName (name random : Bytes) : dotted (tmpName name random) := by
  rw [dotted, tmpName, List.append_assoc, List.append_assoc, decide_eq_true_eq]
  exact List.prefix_append _ _

/-- A cache file has a hex name. -/
theorem not_dotted_cacheName (sum256 : Bytes → Bytes) (hash byteRange : Bytes) :
    dotted (cacheName sum256 hash byteRange) = false := by
  rw [dotted, decide_eq_false_iff_not, cacheName]
  intro hprefix
  have hmem : (46 : UInt8) ∈ hexEncode (sum256 (hash ++ lit ":" ++ byteRange)) :=
    hprefix.subset List.mem_cons_self
  have hdot : ∀ i : Fin 16, 46 ≠ hexDigit i := by decide
  obtain ⟨i, hi⟩ := hexDigit_of_mem hmem
  exact hdot i hi

/-! ### Fills -/

/-- Where a fill is: in `writeCacheFileAtomic` up to `remove`, which has the error it will
return, or in `Record`.  `failed` has the temp file it could not remove, and `killed` where the
process died. -/
inductive FillStage
  | create
  | write (tmp : Bytes) (stored : ℕ)
  | close (tmp : Bytes)
  | rename (tmp : Bytes)
  | remove (tmp err : Bytes)
  | failed (left : Option Bytes) (err : Bytes)
  | record
  | evict
  | done
  | killed (st : FillStage)

/-- A call of `writeCacheFileAtomic` for a body. -/
structure FillCall where
  name : Bytes
  body : Bytes
  stage : FillStage

/-- The outcome of the next filesystem call of a fill, an error by its text.  `create` has the
random part of the name, `store` how much of the body is in the file by now. -/
inductive FillAct
  | create (r : Except Bytes Bytes)
  | store (n : ℕ)
  | written (err : Option Bytes)
  | close (err : Option Bytes)
  | rename (err : Option Bytes)
  | remove (ok : Bool)
  | record
  | evict (free : Option Int64) (ok : Bool)

/-- What the fills of a process share. -/
structure CacheShared where
  dir : Dir
  lru : LruCache Bytes
  lruLock : Option ℕ

def FillStage.step (i : ℕ) (name body : Bytes) (sh : CacheShared) :
    FillStage → FillAct → Option (CacheShared × FillStage)
  | .create, .create (.error err) => some (sh, .failed none err)
  | .create, .create (.ok random) =>
    let tmp := tmpName name random
    if tmp ∈ sh.dir then none
    else some ({ sh with dir := sh.dir.insert tmp (.file []) }, .write tmp 0)
  | .write tmp stored, .store n =>
    if stored ≤ n ∧ n ≤ body.length then
      some ({ sh with dir := sh.dir.store tmp (body.take n) }, .write tmp n)
    else none
  | .write tmp stored, .written none =>
    if stored = body.length then some (sh, .close tmp) else none
  | .write tmp _, .written (some err) => some (sh, .remove tmp err)
  | .close tmp, .close none => some (sh, .rename tmp)
  | .close tmp, .close (some err) => some (sh, .remove tmp err)
  | .rename tmp, .rename none =>
    match sh.dir.lookup tmp, sh.dir.lookup name with
    | none, _ | _, some .dir => none
    | some e, _ => some ({ sh with dir := (sh.dir.erase tmp).insert name e }, .record)
  | .rename tmp, .rename (some err) => some (sh, .remove tmp err)
  | .remove tmp err, .remove ok =>
    some ({ sh with dir := if ok then sh.dir.erase tmp else sh.dir },
      .failed (if ok then none else some tmp) err)
  -- lru.Record
  | .record, .record =>
    if sh.lruLock = none then
      some ({ sh with
        lruLock := some i
        lru := sh.lru.recordEntry name (Int64.ofNat body.length) }, .evict)
    else none
  | .evict, .evict free ok =>
    match sh.lru.popFront with
    | none => some ({ sh with lruLock := none }, .done)
    | some (victim, lru) =>
      if sh.lru.overLimitLocked free then
        some ({ sh with lru := lru, dir := if ok then sh.dir.erase victim else sh.dir }, .evict)
      else some ({ sh with lruLock := none }, .done)
  | _, _ => none

/-- The call has returned. -/
def FillStage.ended : FillStage → Bool
  | .failed _ _ | .done | .killed _ => true
  | _ => false

def FillStage.kill (st : FillStage) : FillStage := if st.ended then st else .killed st

inductive CacheAct
  | fill (hash byteRange body : Bytes)
  | call (i : ℕ) (a : FillAct)
  | restart (b : Boot)

/-- `calls` are all fills there ever were. -/
structure CacheState where
  shared : CacheShared
  calls : List FillCall

namespace CacheState

/-- An empty cache dir, but for the subdir of the manifests. -/
def init (cfg : Config) : CacheState :=
  ⟨⟨(∅ : Dir).insert (lit "manifests") .dir, .new cfg.maxBytes cfg.minFree, none⟩, []⟩

def step (cfg : Config) (s : CacheState) : CacheAct → Option CacheState
  | .fill hash byteRange body =>
    some { s with
      calls := s.calls ++ [⟨cacheName cfg.sum256 hash byteRange, body, .create⟩] }
  | .call i a =>
    match s.calls[i]? with
    | none => none
    | some c =>
      match c.stage.step i c.name c.body s.shared a with
      | none => none
      | some (sh, stage) => some ⟨sh, s.calls.set i { c with stage := stage }⟩
  | .restart b =>
    let dir := s.shared.dir
    let loaded := (LruCache.new cfg.maxBytes cfg.minFree).load b.sort (dir.seeds b) b.free
    some ⟨⟨dir.sweep b loaded.1, loaded.2, none⟩,
      s.calls.map fun c => { c with stage := c.stage.kill }⟩

end CacheState

/-! ### What a step can do -/

variable {cfg : Config} {i : ℕ} {name body : Bytes} {sh sh' : CacheShared} {st st' : FillStage}

/-- The steps of a fill by name. -/
inductive FillStage.Moves (i : ℕ) (name body : Bytes) (sh : CacheShared) :
    FillStage → CacheShared → FillStage → Prop
  | createFailed (err : Bytes) : Moves i name body sh .create sh (.failed none err)
  | create {random : Bytes} (hnew : tmpName name random ∉ sh.dir) :
    Moves i name body sh .create
      { sh with dir := sh.dir.insert (tmpName name random) (.file []) }
      (.write (tmpName name random) 0)
  | store {tmp : Bytes} {stored n : ℕ} (hn : stored ≤ n) (hle : n ≤ body.length) :
    Moves i name body sh (.write tmp stored)
      { sh with dir := sh.dir.store tmp (body.take n) } (.write tmp n)
  | written {tmp : Bytes} : Moves i name body sh (.write tmp body.length) sh (.close tmp)
  | writeFailed {tmp : Bytes} {stored : ℕ} (err : Bytes) :
    Moves i name body sh (.write tmp stored) sh (.remove tmp err)
  | close {tmp : Bytes} : Moves i name body sh (.close tmp) sh (.rename tmp)
  | closeFailed {tmp : Bytes} (err : Bytes) : Moves i name body sh (.close tmp) sh (.remove tmp err)
  | rename {tmp : Bytes} {e : DirEntry} (he : sh.dir.lookup tmp = some e) :
    Moves i name body sh (.rename tmp)
      { sh with dir := (sh.dir.erase tmp).insert name e } .record
  | renameFailed {tmp : Bytes} (err : Bytes) :
    Moves i name body sh (.rename tmp) sh (.remove tmp err)
  | remove {tmp err : Bytes} (ok : Bool) :
    Moves i name body sh (.remove tmp err)
      { sh with dir := if ok then sh.dir.erase tmp else sh.dir }
      (.failed (if ok then none else some tmp) err)
  | record :
    Moves i name body sh .record
      { sh with
        lruLock := some i
        lru := sh.lru.recordEntry name (Int64.ofNat body.length) } .evict
  | evictPop {victim : Bytes} {lru : LruCache Bytes} (hp : sh.lru.popFront = some (victim, lru))
    (ok : Bool) :
    Moves i name body sh .evict
      { sh with lru := lru, dir := if ok then sh.dir.erase victim else sh.dir } .evict
  | evictStop : Moves i name body sh .evict { sh with lruLock := none } .done

theorem FillStage.step_moves {a : FillAct} (h : st.step i name body sh a = some (sh', st')) :
    st.Moves i name body sh sh' st' := by
  revert h
  fun_cases FillStage.step i name body sh st a
  all_goals
    intro h
    cases h
  all_goals
    first
    | exact .createFailed _
    | exact .create ‹_›
    | exact .store (‹_ ∧ _›).1 (‹_ ∧ _›).2
    | exact .written
    | exact .writeFailed _
    | exact .close
    | exact .closeFailed _
    | exact .rename ‹_›
    | exact .renameFailed _
    | exact .remove _
    | exact .record
    | exact .evictPop ‹_› _
    | exact .evictStop

theorem CacheState.step_call {s s' : CacheState} {a : FillAct}
    (h : s.step cfg (.call i a) = some s') :
    ∃ c sh' st', s.calls[i]? = some c ∧ c.stage.Moves i c.name c.body s.shared sh' st' ∧
      s' = ⟨sh', s.calls.set i { c with stage := st' }⟩ := by
  rw [CacheState.step] at h
  split at h
  · cases h
  · next c hi =>
    split at h
    · cases h
    · next sh' st' hstep =>
      cases h
      exact ⟨c, sh', st', hi, FillStage.step_moves hstep, rfl⟩

/-! ### What a step does to the dir -/

/-- The temp file a fill works on. -/
def FillStage.tmp : FillStage → Option Bytes
  | .write tmp _ | .close tmp | .rename tmp | .remove tmp _ => some tmp
  | _ => none

/-- The temp file a fill has in the dir, or left there. -/
def FillStage.leaves : FillStage → Option Bytes
  | .failed left _ => left
  | .killed st => st.leaves
  | st => st.tmp

/-- The body is in place. -/
def FillStage.stored : FillStage → Bool
  | .record | .evict | .done => true
  | .killed st => st.stored
  | _ => false

/-- What is in the temp file of a fill of `body`, where the fill counts on it. -/
def FillStage.Writes (body : Bytes) : FillStage → Bytes → Prop
  | .write _ n, content => content = body.take n
  | .close _, content | .rename _, content => content = body
  | _, _ => True

/-- The keys the LRU tracks are cache files. -/
def CacheShared.Tracks (sh : CacheShared) : Prop := ∀ e ∈ sh.lru.entries, dotted e.1 = false

theorem CacheShared.Tracks.victim {victim : Bytes} {lru : LruCache Bytes} (h : sh.Tracks)
    (hp : sh.lru.popFront = some (victim, lru)) : dotted victim = false := by
  obtain ⟨size, he⟩ := LruCache.popFront_some hp
  exact h (victim, size) (he ▸ List.mem_cons_self)

/-- Two names of which one is a cache file and the other a temp file. -/
theorem ne_of_dotted {k k' : Bytes} (h : dotted k = true) (h' : dotted k' = false) : k ≠ k' :=
  fun heq => by simp [heq, h'] at h

namespace FillStage.Moves

/-- A fill adds no key but its own name. -/
theorem keys {P : Bytes → Prop} (hn : P name) (hT : ∀ e ∈ sh.lru.entries, P e.1)
    (h : st.Moves i name body sh sh' st') : ∀ e ∈ sh'.lru.entries, P e.1 := by
  cases h
  case record =>
    intro e he
    rcases LruCache.mem_recordEntry.mp he with ⟨he, -⟩ | rfl
    · exact hT e he
    · exact hn
  case evictPop victim lru hp ok =>
    obtain ⟨size, hent⟩ := LruCache.popFront_some hp
    exact fun e he => hT e (hent ▸ List.mem_cons_of_mem _ he)
  all_goals exact hT

theorem tracks (hn : dotted name = false) (hT : sh.Tracks) (h : st.Moves i name body sh sh' st') :
    sh'.Tracks :=
  keys (P := fun k => dotted k = false) hn hT h

/-- A fill touches no other temp file. -/
theorem other (hn : dotted name = false) (hT : sh.Tracks) (h : st.Moves i name body sh sh' st')
    {k : Bytes} (hk : dotted k) (hst : st.tmp ≠ some k) (hst' : st'.tmp ≠ some k) :
    sh'.dir.lookup k = sh.dir.lookup k := by
  cases h
  case create random hnew =>
    exact AList.lookup_insert_ne fun heq => hst' (by rw [FillStage.tmp, heq])
  case store tmp stored n hn hle =>
    have hne : k ≠ tmp := fun heq => hst (by rw [FillStage.tmp, heq])
    rw [Dir.store]
    split
    · exact AList.lookup_insert_ne hne
    · rfl
  case rename tmp e he =>
    have hne : k ≠ tmp := fun heq => hst (by rw [FillStage.tmp, heq])
    rw [AList.lookup_insert_ne (ne_of_dotted hk hn), AList.lookup_erase_ne hne]
  case remove tmp err ok =>
    have hne : k ≠ tmp := fun heq => hst (by rw [FillStage.tmp, heq])
    cases ok
    · rfl
    · exact AList.lookup_erase_ne hne
  case evictPop victim lru hp ok =>
    cases ok
    · rfl
    · exact AList.lookup_erase_ne (ne_of_dotted hk (hT.victim hp))
  all_goals rfl

/-- A fill changes the cache files only by its rename, and by what it evicts after it. -/
theorem visible (h : st.Moves i name body sh sh' st') (htmp : ∀ tmp ∈ st.tmp, dotted tmp) :
    (∀ {k}, dotted k = false → sh'.dir.lookup k = sh.dir.lookup k) ∨
    (∃ tmp e, st = .rename tmp ∧ st' = .record ∧ sh.dir.lookup tmp = some e ∧
      ∀ {k}, dotted k = false → sh'.dir.lookup k = if k = name then some e else sh.dir.lookup k) ∨
    (∃ victim, st = .evict ∧ st' = .evict ∧
      ∀ {k}, dotted k = false →
        sh'.dir.lookup k = if k = victim then none else sh.dir.lookup k) := by
  cases h
  case create random hnew =>
    refine Or.inl fun hk => ?_
    exact AList.lookup_insert_ne (ne_of_dotted (dotted_tmpName name random) hk).symm
  case store tmp stored n hn hle =>
    refine Or.inl fun hk => ?_
    rw [Dir.store]
    split
    · exact AList.lookup_insert_ne (ne_of_dotted (htmp tmp rfl) hk).symm
    · rfl
  case rename tmp e he =>
    refine Or.inr (Or.inl ⟨tmp, e, rfl, rfl, he, fun {k} hk => ?_⟩)
    by_cases hkn : k = name
    · rw [if_pos hkn, hkn, AList.lookup_insert]
    · rw [if_neg hkn, AList.lookup_insert_ne hkn,
        AList.lookup_erase_ne (ne_of_dotted (htmp tmp rfl) hk).symm]
  case remove tmp err ok =>
    refine Or.inl fun hk => ?_
    cases ok
    · rfl
    · exact AList.lookup_erase_ne (ne_of_dotted (htmp tmp rfl) hk).symm
  case evictPop victim lru hp ok =>
    cases ok
    · exact Or.inl fun _ => rfl
    · refine Or.inr (Or.inr ⟨victim, rfl, rfl, fun {k} _ => ?_⟩)
      by_cases hkv : k = victim
      · rw [if_pos hkv, hkv]
        exact AList.lookup_erase victim sh.dir
      · rw [if_neg hkv]
        exact AList.lookup_erase_ne hkv
  all_goals exact Or.inl fun _ => rfl

/-- A temp file a fill starts to work on is new. -/
theorem fresh (h : st.Moves i name body sh sh' st') {k : Bytes} (hk : st'.tmp = some k) :
    st.tmp = some k ∨ (dotted k ∧ k ∉ sh.dir) := by
  cases h
  case create random hnew =>
    cases hk
    exact Or.inr ⟨dotted_tmpName name random, hnew⟩
  all_goals
    first
    | exact Or.inl hk
    | cases hk

/-- A fill that has its body in the temp file leaves it there. -/
theorem writes (h : st.Moves i name body sh sh' st') {k content : Bytes} (hk : st'.tmp = some k)
    (hin : st.tmp = some k → sh.dir.lookup k = some (.file content) ∧ st.Writes body content) :
    ∃ content', sh'.dir.lookup k = some (.file content') ∧ st'.Writes body content' := by
  cases h
  case create random hnew =>
    cases hk
    exact ⟨[], AList.lookup_insert _, by simp [FillStage.Writes]⟩
  case store tmp stored n hn hle =>
    cases hk
    obtain ⟨hl, -⟩ := hin rfl
    have hmem : k ∈ sh.dir := AList.lookup_isSome.mp (by rw [hl]; rfl)
    refine ⟨body.take n, ?_, rfl⟩
    rw [Dir.store, if_pos hmem]
    exact AList.lookup_insert _
  case written tmp =>
    obtain ⟨hl, hw⟩ := hin hk
    exact ⟨content, hl, by rw [hw, List.take_length]; rfl⟩
  case close tmp =>
    obtain ⟨hl, hw⟩ := hin hk
    exact ⟨content, hl, hw⟩
  case writeFailed tmp stored err => exact ⟨content, (hin hk).1, trivial⟩
  case closeFailed tmp err => exact ⟨content, (hin hk).1, trivial⟩
  case renameFailed tmp err => exact ⟨content, (hin hk).1, trivial⟩
  all_goals cases hk

/-- A temp file a fill stops to work on is gone, or the fill has failed to remove it. -/
theorem drops (hn : dotted name = false) (h : st.Moves i name body sh sh' st') {k : Bytes}
    (hd : dotted k) (hk : st.tmp = some k) (hin : k ∈ sh'.dir) : st'.leaves = some k := by
  cases h
  case rename tmp e he =>
    cases hk
    rw [AList.mem_insert, AList.mem_erase] at hin
    exact absurd hin (by simp [ne_of_dotted hd hn])
  case remove tmp err ok =>
    cases hk
    cases ok
    · rfl
    · exact absurd hin (by simp)
  all_goals
    first
    | exact hk
    | cases hk

theorem stored (h : st.Moves i name body sh sh' st') (hs : st.stored) : st'.stored := by
  cases h <;> first | exact hs | rfl

theorem not_ended (h : st.Moves i name body sh sh' st') : st.ended = false := by
  cases h <;> rfl

theorem leaves_eq (h : st.Moves i name body sh sh' st') : st.leaves = st.tmp := by
  cases h <;> rfl

end FillStage.Moves

/-! ### What every run keeps -/

/-- Every cache file is the body of a fill of its name, every temp file that of a fill that
works on it or left it, and no two fills work on one. -/
structure CacheState.Inv (s : CacheState) : Prop where
  tracks : s.shared.Tracks
  named : ∀ {i : ℕ} {c : FillCall}, s.calls[i]? = some c → dotted c.name = false
  files : ∀ {k content : Bytes}, dotted k = false → s.shared.dir.lookup k = some (.file content) →
    ∃ (i : ℕ) (c : FillCall), s.calls[i]? = some c ∧ c.name = k ∧ c.body = content ∧ c.stage.stored
  temp : ∀ {i : ℕ} {c : FillCall} {k : Bytes}, s.calls[i]? = some c → c.stage.tmp = some k →
    dotted k ∧ ∃ content, s.shared.dir.lookup k = some (.file content) ∧
      c.stage.Writes c.body content
  apart : ∀ {i j : ℕ} {c c' : FillCall} {k : Bytes}, s.calls[i]? = some c →
    s.calls[j]? = some c' → c.stage.tmp = some k → c'.stage.tmp = some k → i = j
  left : ∀ {k : Bytes}, dotted k → k ∈ s.shared.dir →
    ∃ (i : ℕ) (c : FillCall), s.calls[i]? = some c ∧ c.stage.leaves = some k

theorem mem_of_lookup {d : Dir} {k : Bytes} {e : DirEntry} (h : d.lookup k = some e) : k ∈ d :=
  AList.lookup_isSome.mp (by rw [h]; rfl)

theorem mem_congr {d d' : Dir} {k : Bytes} (h : d'.lookup k = d.lookup k) : k ∈ d' ↔ k ∈ d := by
  rw [← AList.lookup_isSome, ← AList.lookup_isSome, h]

theorem FillStage.kill_leaves (st : FillStage) : st.kill.leaves = st.leaves := by
  cases st <;> rfl

theorem FillStage.kill_stored (st : FillStage) : st.kill.stored = st.stored := by
  cases st <;> rfl

theorem FillStage.kill_tmp (st : FillStage) : st.kill.tmp = none := by
  cases st <;> rfl

/-- A restart kills the fills where they stand. -/
theorem getElem?_killed {calls : List FillCall} {j : ℕ} {c' : FillCall} :
    (calls.map fun c => { c with stage := c.stage.kill })[j]? = some c' ↔
      ∃ c, calls[j]? = some c ∧ c' = { c with stage := c.stage.kill } := by
  rw [List.getElem?_map, Option.map_eq_some_iff]
  exact exists_congr fun c => and_congr_right fun _ => eq_comm

/-- Sweeping only removes. -/
theorem Dir.lookup_sweep (b : Boot) : ∀ {deleted : List Bytes} {d : Dir} {k : Bytes}
    {e : DirEntry}, (d.sweep b deleted).lookup k = some e → d.lookup k = some e := by
  intro deleted
  induction deleted with
  | nil =>
    intro d k e h
    exact h
  | cons v deleted ih =>
    intro d k e h
    rw [Dir.sweep, List.foldl_cons] at h
    have h' := ih h
    by_cases hv : b.removes v
    · rw [if_pos hv] at h'
      by_cases hk : k = v
      · rw [hk, AList.lookup_erase] at h'
        cases h'
      · rwa [AList.lookup_erase_ne hk] at h'
    · rwa [if_neg hv] at h'

theorem Dir.mem_files {d : Dir} {k content : Bytes} :
    (k, content) ∈ d.files ↔ dotted k = false ∧ d.lookup k = some (.file content) := by
  rw [Dir.files, List.mem_filterMap]
  constructor
  · rintro ⟨⟨k', e⟩, hmem, he⟩
    cases e with
    | dir => cases he
    | file c =>
      by_cases hd : dotted k'
      · simp [hd] at he
      · simp only [if_neg hd, Option.some_inj, Prod.mk.injEq] at he
        obtain ⟨rfl, rfl⟩ := he
        exact ⟨Bool.not_eq_true _ ▸ hd, AList.mem_lookup_iff.mpr hmem⟩
  · rintro ⟨hd, hl⟩
    exact ⟨⟨k, .file content⟩, AList.mem_lookup_iff.mp hl, by simp [hd]⟩

theorem Dir.files_nodup (d : Dir) : (d.files.map Prod.fst).Nodup := by
  rw [Dir.files, List.Nodup, List.pairwise_map, List.pairwise_filterMap]
  refine (List.nodupKeys_iff_pairwise.mp d.nodupKeys).imp fun {e e'} hne x hx x' hx' => ?_
  have hkey : ∀ {f : Sigma fun _ : Bytes => DirEntry} {y : Bytes × Bytes},
      (match f.2 with
        | .dir => none
        | .file content => if dotted f.1 then none else some (f.1, content)) = some y →
      y.1 = f.1 := by
    rintro ⟨k, _ | content⟩ y hy
    · dsimp only at hy
      split at hy
      · cases hy
      · cases hy
        rfl
    · cases hy
  rw [hkey hx, hkey hx']
  exact hne

/-- `Load` is given no key twice. -/
theorem Dir.seeds_nodup (b : Boot) (d : Dir) : ((d.seeds b).map LruSeed.key).Nodup := by
  rw [Dir.seeds, List.map_map]
  exact d.files_nodup.sublist (List.filter_sublist.map Prod.fst)

/-- Each file `seedLRU` can read is deleted or left in the LRU. -/
theorem load_files (cfg : Config) (b : Boot) (d : Dir) :
    (((LruCache.new cfg.maxBytes cfg.minFree).load b.sort (d.seeds b) b.free).1 ++
      ((LruCache.new cfg.maxBytes cfg.minFree).load b.sort (d.seeds b) b.free).2.entries.map
        Prod.fst).Perm ((d.files.filter fun e => b.readable e.1).map Prod.fst) := by
  have hperm := (b.sort.2 (d.seeds b)).1
  have hnd := (hperm.map LruSeed.key).nodup_iff.mpr (d.seeds_nodup b)
  rw [(LruCache.load_evicts cfg.maxBytes cfg.minFree b.sort (d.seeds b) b.free).append,
    Lru.unheld_eq_map hnd, List.map_map]
  refine (hperm.map _).trans ?_
  rw [Dir.seeds, List.map_map]
  exact List.Perm.refl _

/-- What `seedLRU` leaves in the LRU are cache files. -/
theorem tracks_seeds (cfg : Config) (b : Boot) (d : Dir) :
    ∀ e ∈ ((LruCache.new cfg.maxBytes cfg.minFree).load b.sort (d.seeds b) b.free).2.entries,
      dotted e.1 = false := by
  intro e he
  have hin := (load_files cfg b d).subset (List.mem_append_right _ (List.mem_map_of_mem he))
  obtain ⟨⟨k, content⟩, hfile, hk⟩ := List.mem_map.mp hin
  rw [← hk]
  exact (Dir.mem_files.mp (List.mem_filter.mp hfile).1).1

namespace CacheState.Inv

variable {s s' : CacheState} {c : FillCall}

theorem init (cfg : Config) : (CacheState.init cfg).Inv where
  tracks := nofun
  named := nofun
  files := by
    intro k content _ h
    by_cases hk : k = lit "manifests"
    · rw [hk, CacheState.init, AList.lookup_insert] at h
      cases h
    · rw [CacheState.init, AList.lookup_insert_ne hk] at h
      cases h
  temp := nofun
  apart := nofun
  left := by
    intro k hk hin
    rw [CacheState.init, AList.mem_insert] at hin
    rcases hin with rfl | hin
    · exact absurd hk (by decide)
    · exact absurd hin (AList.notMem_empty k)

/-- A step of a fill keeps the invariant. -/
theorem move (hI : s.Inv) (hi : s.calls[i]? = some c)
    (h : c.stage.Moves i c.name c.body s.shared sh' st') :
    CacheState.Inv ⟨sh', s.calls.set i { c with stage := st' }⟩ := by
  have hn := hI.named hi
  have hlt := (List.getElem?_eq_some_iff.mp hi).1
  have hmine : (s.calls.set i { c with stage := st' })[i]? = some { c with stage := st' } :=
    List.getElem?_set_self hlt
  -- another fill works on another file, before and after
  have hapart : ∀ {j : ℕ} {c' : FillCall} {k : Bytes}, j ≠ i → s.calls[j]? = some c' →
      c'.stage.tmp = some k → c.stage.tmp ≠ some k ∧ st'.tmp ≠ some k := by
    intro j c' k hji hj hk
    have hold : c.stage.tmp ≠ some k := fun hc => hji (hI.apart hj hi hk hc)
    refine ⟨hold, fun hnew => ?_⟩
    obtain ⟨-, content, hl, -⟩ := hI.temp hj hk
    exact ((h.fresh hnew).resolve_left hold).2 (mem_of_lookup hl)
  refine ⟨h.tracks hn hI.tracks, ?_, ?_, ?_, ?_, ?_⟩
  · intro j c' hj
    rcases get_set hj with ⟨-, rfl⟩ | ⟨-, hj⟩
    · exact hn
    · exact hI.named hj
  · intro k content hk hl
    -- a fill that had stored the file still has
    have hstay : (∃ (j : ℕ) (c' : FillCall), s.calls[j]? = some c' ∧ c'.name = k ∧
        c'.body = content ∧ c'.stage.stored) → ∃ (j : ℕ) (c' : FillCall),
        (s.calls.set i { c with stage := st' })[j]? = some c' ∧ c'.name = k ∧
        c'.body = content ∧ c'.stage.stored := by
      rintro ⟨j, c', hj, hname, hbody, hs⟩
      by_cases hji : j = i
      · subst hji
        rw [hi, Option.some_inj] at hj
        subst hj
        exact ⟨j, _, hmine, hname, hbody, h.stored hs⟩
      · exact ⟨j, c', by rwa [List.getElem?_set_ne (Ne.symm hji)], hname, hbody, hs⟩
    rcases h.visible (fun tmp ht => (hI.temp hi ht).1) with
      hsame | ⟨tmp, e, hst, hst', he, hmoved⟩ | ⟨victim, -, -, hgone⟩
    · exact hstay (hI.files hk (hsame hk ▸ hl))
    · rw [hmoved hk] at hl
      split at hl
      · next hkn =>
        obtain ⟨-, content', hl', hw⟩ := hI.temp hi (k := tmp) (by rw [hst]; rfl)
        rw [he, Option.some_inj] at hl'
        rw [hl', Option.some_inj, DirEntry.file.injEq] at hl
        rw [hst] at hw
        exact ⟨i, _, hmine, hkn.symm, (hl ▸ hw).symm, by rw [hst']; rfl⟩
      · exact hstay (hI.files hk hl)
    · rw [hgone hk] at hl
      split at hl
      · cases hl
      · exact hstay (hI.files hk hl)
  · intro j c' k hj hk
    rcases get_set hj with ⟨rfl, rfl⟩ | ⟨hji, hj⟩
    · refine ⟨?_, ?_⟩
      · exact (h.fresh hk).elim (fun hold => (hI.temp hi hold).1) And.left
      · by_cases hold : c.stage.tmp = some k
        · obtain ⟨-, content, hin⟩ := hI.temp hi hold
          exact h.writes hk fun _ => hin
        · have hnone : c.stage.tmp = some k →
              s.shared.dir.lookup k = some (.file []) ∧ c.stage.Writes c.body [] :=
            fun hc => absurd hc hold
          exact h.writes hk hnone
    · obtain ⟨hd, content, hl, hw⟩ := hI.temp hj hk
      obtain ⟨hne, hne'⟩ := hapart hji hj hk
      exact ⟨hd, content, (h.other hn hI.tracks hd hne hne').trans hl, hw⟩
  · intro j j' c₁ c₂ k hj hj' hk hk'
    rcases get_set hj with ⟨hji, rfl⟩ | ⟨hji, hj⟩
    · rcases get_set hj' with ⟨hji', -⟩ | ⟨hji', hj'⟩
      · exact hji.trans hji'.symm
      · exact absurd hk (hapart hji' hj' hk').2
    · rcases get_set hj' with ⟨-, rfl⟩ | ⟨-, hj'⟩
      · exact absurd hk' (hapart hji hj hk).2
      · exact hI.apart hj hj' hk hk'
  · intro k hd hin
    by_cases hnew : st'.tmp = some k
    · refine ⟨i, _, hmine, ?_⟩
      show st'.leaves = some k
      revert hnew
      cases st' <;> first | exact id | exact nofun
    by_cases hold : c.stage.tmp = some k
    · exact ⟨i, _, hmine, h.drops hn hd hold hin⟩
    · have hsame := h.other hn hI.tracks hd hold hnew
      obtain ⟨j, c', hj, hl⟩ := hI.left hd ((mem_congr hsame).mp hin)
      by_cases hji : j = i
      · subst hji
        rw [hi, Option.some_inj] at hj
        subst hj
        exact absurd (h.leaves_eq ▸ hl) hold
      · exact ⟨j, c', by rwa [List.getElem?_set_ne (Ne.symm hji)], hl⟩

theorem step {a : CacheAct} (hI : s.Inv) (h : s.step cfg a = some s') : s'.Inv := by
  revert h
  fun_cases CacheState.step cfg s a
  all_goals
    intro h
    cases h
  case case1 hash byteRange body =>
    -- the new fill has no temp file yet
    have hold : ∀ {j : ℕ} {c' : FillCall}, s.calls[j]? = some c' →
        (s.calls ++ [⟨cacheName cfg.sum256 hash byteRange, body, .create⟩])[j]? = some c' := by
      intro j c' hj
      rw [List.getElem?_append_left (List.getElem?_eq_some_iff.mp hj).1, hj]
    refine ⟨hI.tracks, ?_, ?_, ?_, ?_, ?_⟩
    · intro j c' hj
      rcases get_append hj with hj | ⟨-, rfl⟩
      · exact hI.named hj
      · exact not_dotted_cacheName cfg.sum256 hash byteRange
    · intro k content hk hl
      obtain ⟨j, c', hj, hrest⟩ := hI.files hk hl
      exact ⟨j, c', hold hj, hrest⟩
    · intro j c' k hj hk
      rcases get_append hj with hj | ⟨-, rfl⟩
      · exact hI.temp hj hk
      · cases hk
    · intro j j' c₁ c₂ k hj hj' hk hk'
      rcases get_append hj with hj | ⟨-, rfl⟩
      · rcases get_append hj' with hj' | ⟨-, rfl⟩
        · exact hI.apart hj hj' hk hk'
        · cases hk'
      · cases hk
    · intro k hd hin
      obtain ⟨j, c', hj, hl⟩ := hI.left hd hin
      exact ⟨j, c', hold hj, hl⟩
  case case4 i a c hi sh' st' hstep => exact hI.move hi (FillStage.step_moves hstep)
  case case5 b dir loaded =>
    refine ⟨tracks_seeds cfg b s.shared.dir, ?_, ?_, ?_, ?_, ?_⟩
    · intro j c' hj
      obtain ⟨c, hc, heq⟩ := getElem?_killed.mp hj
      rw [heq]
      show dotted c.name = false
      exact hI.named hc
    · intro k content hk hl
      obtain ⟨j, c, hj, hname, hbody, hs⟩ := hI.files hk (Dir.lookup_sweep b hl)
      refine ⟨j, _, getElem?_killed.mpr ⟨c, hj, rfl⟩, hname, hbody, ?_⟩
      rw [FillStage.kill_stored]
      exact hs
    · intro j c' k hj hk
      obtain ⟨c, hc, rfl⟩ := getElem?_killed.mp hj
      rw [FillStage.kill_tmp] at hk
      cases hk
    · intro j j' c₁ c₂ k hj hj' hk hk'
      obtain ⟨c, hc, rfl⟩ := getElem?_killed.mp hj
      rw [FillStage.kill_tmp] at hk
      cases hk
    · intro k hd hin
      obtain ⟨e, he⟩ := Option.isSome_iff_exists.mp (AList.lookup_isSome.mpr hin)
      obtain ⟨j, c, hj, hl⟩ := hI.left hd (mem_of_lookup (Dir.lookup_sweep b he))
      refine ⟨j, _, getElem?_killed.mpr ⟨c, hj, rfl⟩, ?_⟩
      rw [FillStage.kill_leaves]
      exact hl

end CacheState.Inv

/-! ### A fill as one step -/

/-- `disk` has what a reader finds at the cache paths. -/
def Dir.Shows (d : Dir) (disk : AList fun _ : Bytes => Bytes) : Prop :=
  ∀ {k}, dotted k = false → d.file? k = disk.lookup k

theorem Dir.file?_congr {d d' : Dir} {k k' : Bytes} (h : d'.lookup k' = d.lookup k) :
    d'.file? k' = d.file? k := by
  rw [Dir.file?, Dir.file?, h]

/-- A reader sees nothing of a fill but the whole body at its rename, and its evictions. -/
theorem CacheState.Inv.step_files {s : CacheState} {c : FillCall}
    {disk : AList fun _ : Bytes => Bytes} (hI : s.Inv) (hi : s.calls[i]? = some c)
    (h : c.stage.Moves i c.name c.body s.shared sh' st') (hd : s.shared.dir.Shows disk) :
    sh'.dir.Shows disk ∨ (st' = .record ∧ sh'.dir.Shows (disk.insert c.name c.body)) ∨
      ∃ victim, st' = .evict ∧ sh'.dir.Shows (disk.erase victim) := by
  rcases h.visible (fun tmp ht => (hI.temp hi ht).1) with
    hsame | ⟨tmp, e, hst, hst', he, hmoved⟩ | ⟨victim, -, hst', hgone⟩
  · exact Or.inl fun hk => (Dir.file?_congr (hsame hk)).trans (hd hk)
  · refine Or.inr (Or.inl ⟨hst', fun {k} hk => ?_⟩)
    obtain ⟨-, content, hl, hw⟩ := hI.temp hi (k := tmp) (by rw [hst]; rfl)
    rw [hst] at hw
    rw [he, Option.some_inj] at hl
    have hbody : content = c.body := hw
    by_cases hkn : k = c.name
    · rw [hkn, AList.lookup_insert, Dir.file?, hmoved (hkn ▸ hk), if_pos rfl, hl, hbody]
    · rw [AList.lookup_insert_ne hkn]
      have := hmoved hk
      rw [if_neg hkn] at this
      exact (Dir.file?_congr this).trans (hd hk)
  · refine Or.inr (Or.inr ⟨victim, hst', fun {k} hk => ?_⟩)
    by_cases hkv : k = victim
    · rw [hkv, AList.lookup_erase, Dir.file?, hgone (hkv ▸ hk), if_pos rfl]
    · rw [AList.lookup_erase_ne hkv]
      have := hgone hk
      rw [if_neg hkv] at this
      exact (Dir.file?_congr this).trans (hd hk)

/-! ### What `seedLRU` tracks -/

/-- The `int64` sum of the sizes of files. -/
theorem bytes_files (l : List (Bytes × Bytes)) :
    Int64.ofInt (Lru.bytes (l.map fun e => (e.1, Int64.ofNat e.2.length))) =
      Int64.ofNat (l.map fun e => e.2.length).sum := by
  induction l with
  | nil => rfl
  | cons e l ih =>
    rw [Lru.bytes] at ih ⊢
    rw [List.map_cons, List.map_cons, List.sum_cons, Int64.ofInt_add, ih, Int64.ofInt_toInt,
      List.map_cons, List.sum_cons, Int64.ofNat_add]

/-- `seedLRU` up to the evictions: the LRU tracks each cache file with its size. -/
theorem seeds_tracked (max minFree : Int64) {b : Boot} (hb : ∀ k, b.readable k) (d : Dir) :
    ((Lru.newRaw max minFree).loadSorted (b.sort.1 (d.seeds b))).entries.Perm
        (d.files.map fun e => (e.1, Int64.ofNat e.2.length)) ∧
      ((Lru.newRaw max minFree).loadSorted (b.sort.1 (d.seeds b))).total =
        Int64.ofNat (d.files.map fun e => e.2.length).sum := by
  have hseeds : d.seeds b = d.files.map fun e => ⟨e.1, Int64.ofNat e.2.length, b.mtime e.1⟩ := by
    rw [Dir.seeds, List.filter_eq_self.mpr fun e _ => hb e.1]
  obtain ⟨hwf, hent⟩ := Lru.loadSorted_new max minFree b.sort (d.seeds_nodup b)
  have hperm : ((Lru.newRaw max minFree).loadSorted (b.sort.1 (d.seeds b))).entries.Perm
      (d.files.map fun e => (e.1, Int64.ofNat e.2.length)) := by
    rw [hent]
    refine ((b.sort.2 (d.seeds b)).1.map _).trans ?_
    rw [hseeds, List.map_map]
    exact List.Perm.refl _
  exact ⟨hperm, by rw [hwf.total, Lru.bytes_perm hperm, bytes_files]⟩

/-! ### The result -/

/-- The call returned an error. -/
def FillStage.isFailed : FillStage → Bool
  | .failed _ _ => true
  | _ => false

/-- A body that is in place stays that of its fill. -/
theorem CacheState.stored_step {s s' : CacheState} {a : CacheAct}
    (hs : ∃ c, s.calls[i]? = some c ∧ c.stage.stored) (h : s.step cfg a = some s') :
    ∃ c, s'.calls[i]? = some c ∧ c.stage.stored := by
  obtain ⟨c, hi, hst⟩ := hs
  revert h
  fun_cases CacheState.step cfg s a
  all_goals
    intro h
    cases h
  case case1 hash byteRange body =>
    exact ⟨c, by rw [List.getElem?_append_left (List.getElem?_eq_some_iff.mp hi).1, hi], hst⟩
  case case4 j a c' hj sh' st' hstep =>
    by_cases hij : i = j
    · subst hij
      rw [hi, Option.some_inj] at hj
      subst hj
      exact ⟨_, List.getElem?_set_self (List.getElem?_eq_some_iff.mp hi).1,
        (FillStage.step_moves hstep).stored hst⟩
    · exact ⟨c, by rwa [List.getElem?_set_ne (Ne.symm hij)], hst⟩
  case case5 b dir loaded =>
    exact ⟨_, by rw [List.getElem?_map, hi, Option.map_some], by
      show c.stage.kill.stored
      rw [FillStage.kill_stored]
      exact hst⟩

/-- **Crash and fault consistency of the range cache**, in every state of every run: a cache
file is one whole body that a fill of its name wrote; a temp file is one a fill works on, failed
to remove or was killed with; no step of a fill that ends in an error changed a cache file; and
`seedLRU` tracks exactly the cache files, with the sum of their sizes. -/
theorem cache_files_consistent {as : List CacheAct} {s : CacheState}
    (h : exec (CacheState.step cfg) (.init cfg) as = some s) :
    (∀ k content, dotted k = false → s.shared.dir.lookup k = some (.file content) →
      ∃ c ∈ s.calls, c.name = k ∧ c.body = content ∧ c.stage.stored) ∧
    (∀ k, dotted k → k ∈ s.shared.dir → ∃ c ∈ s.calls, c.stage.leaves = some k) ∧
    (∀ pre i a post, as = pre ++ .call i a :: post → (∃ c ∈ s.calls[i]?, c.stage.isFailed) →
      ∀ s₁ s₂, exec (CacheState.step cfg) (.init cfg) pre = some s₁ →
        s₁.step cfg (.call i a) = some s₂ → ∀ k, dotted k = false →
          s₂.shared.dir.lookup k = s₁.shared.dir.lookup k) ∧
    ∀ b : Boot, (∀ k, b.readable k) → ∀ c : Lru.Raw Bytes,
      c = (Lru.newRaw cfg.maxBytes cfg.minFree).loadSorted (b.sort.1 (s.shared.dir.seeds b)) →
      (∀ k, k ∈ c.keys ↔ dotted k = false ∧ ∃ content, s.shared.dir.lookup k = some (.file content)) ∧
      c.total = Int64.ofNat (s.shared.dir.files.map fun e => e.2.length).sum := by
  have hinv : ∀ {bs t}, exec (CacheState.step cfg) (.init cfg) bs = some t → t.Inv := fun ht =>
    exec_always CacheState.Inv (fun hs hstep => hs.step hstep) (CacheState.Inv.init cfg) ht
  have hI := hinv h
  refine ⟨fun k content hk hl => ?_, fun k hd hin => ?_, ?_, ?_⟩
  · obtain ⟨i, c, hi, hrest⟩ := hI.files hk hl
    exact ⟨c, List.mem_of_getElem? hi, hrest⟩
  · obtain ⟨i, c, hi, hl⟩ := hI.left hd hin
    exact ⟨c, List.mem_of_getElem? hi, hl⟩
  · rintro pre i a post rfl ⟨c, hc, hfail⟩ s₁ s₂ h₁ h₂ k hk
    obtain ⟨t, ht, hrest⟩ := exec_append.mp h
    rw [h₁, Option.some_inj] at ht
    subst ht
    obtain ⟨t, ht, hpost⟩ := exec_cons.mp hrest
    rw [h₂, Option.some_inj] at ht
    subst ht
    -- had the step changed a cache file, the fill would be past its rename for good
    have hnot : ¬ ∃ c, s₂.calls[i]? = some c ∧ c.stage.stored := by
      intro hst
      obtain ⟨c', hc', hst'⟩ := exec_always (fun t => ∃ c, t.calls[i]? = some c ∧ c.stage.stored)
        (fun hs hstep => CacheState.stored_step hs hstep) hst hpost
      rw [Option.mem_def.mp hc, Option.some_inj] at hc'
      subst hc'
      revert hfail hst'
      cases c.stage <;> simp [FillStage.isFailed, FillStage.stored]
    obtain ⟨c', sh', st', hi, hm, rfl⟩ := CacheState.step_call h₂
    have hmine : (s₁.calls.set i { c' with stage := st' })[i]? = some { c' with stage := st' } :=
      List.getElem?_set_self (List.getElem?_eq_some_iff.mp hi).1
    rcases hm.visible (fun tmp ht => ((hinv h₁).temp hi ht).1) with
      hsame | ⟨tmp, e, -, hst', -⟩ | ⟨victim, -, hst', -⟩
    · exact hsame hk
    · exact absurd ⟨_, hmine, by rw [hst']; rfl⟩ hnot
    · exact absurd ⟨_, hmine, by rw [hst']; rfl⟩ hnot
  · rintro b hb c rfl
    obtain ⟨hperm, htotal⟩ := seeds_tracked cfg.maxBytes cfg.minFree hb s.shared.dir
    refine ⟨fun k => ?_, htotal⟩
    rw [Lru.keys_eq_map, (hperm.map Prod.fst).mem_iff, List.map_map, List.mem_map]
    constructor
    · rintro ⟨⟨k', content⟩, hmem, rfl⟩
      exact ⟨(Dir.mem_files.mp hmem).1, content, (Dir.mem_files.mp hmem).2⟩
    · rintro ⟨hk, content, hl⟩
      exact ⟨(k, content), Dir.mem_files.mpr ⟨hk, hl⟩, rfl⟩

/-- A boot that can read and remove everything. -/
def Boot.plain : Boot where
  readable _ := true
  mtime _ := 0
  sort := Lru.stableSort
  free := none
  removes _ := true

/-- A fill killed in its write, one that cannot close, and one that succeeds, of one range. -/
def crashRun : List CacheAct :=
  [.fill [120] [49] [7, 8], .call 0 (.create (.ok [97])), .call 0 (.store 1), .restart .plain,
    .fill [120] [49] [7, 8], .call 1 (.create (.ok [98])), .call 1 (.store 2),
    .call 1 (.written none), .call 1 (.close (some [])), .call 1 (.remove true),
    .fill [120] [49] [7, 9], .call 2 (.create (.ok [98])), .call 2 (.store 2),
    .call 2 (.written none), .call 2 (.close none), .call 2 (.rename none)]

theorem cache_files_consistent_crash :
    ∃ s, exec (CacheState.step .lone) (.init .lone) crashRun = some s ∧
      s.shared.dir.file? (cacheName id [120] [49]) = some [7, 9] ∧
      tmpName (cacheName id [120] [49]) [97] ∈ s.shared.dir ∧
      ∃ c ∈ s.calls, c.name = cacheName id [120] [49] ∧ c.body = [7, 9] ∧ c.stage.stored := by
  obtain ⟨s, hs, h⟩ := exec_of_any (CacheState.step .lone) (.init .lone) crashRun
    (fun s => s.shared.dir.lookup (cacheName id [120] [49]) = some (.file [7, 9]) ∧
      tmpName (cacheName id [120] [49]) [97] ∈ s.shared.dir) (by decide +kernel)
  obtain ⟨hfile, hleft⟩ := of_decide_eq_true h
  refine ⟨s, hs, by rw [Dir.file?, hfile], hleft, ?_⟩
  exact (cache_files_consistent hs).1 _ _ (not_dotted_cacheName id [120] [49]) hfile

end XetDcCache
