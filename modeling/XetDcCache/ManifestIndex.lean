/-
The index of the manifest cache against the directory (manifests.go `Put`, `seedFromDisk`).

A `Put` renames its file before it takes the mutex, so the index and the directory differ by the
`Put`s under way: `ManifestStore.Inv` says they differ by nothing else, as long as no `Put` evicts
the file of another that is under way.

* `manifest_index_agrees` — the index and the directory once no `Put` is under way;
* `manifest_order_aged_iff` — when the order of eviction is the order of the files' ages.
-/
import XetDcCache.Manifests
import XetDcCache.Transition

namespace XetDcCache

open Transition

variable {α : Type*}

/-! ### Overlapping Puts -/

/-- The halves of the `Put`s. -/
inductive StoreAct (α : Type*)
  | rename (k : ManifestKey) (v : α)
  | index (i : ℕ)

namespace ManifestStore

/-- `newManifestCache` on a directory. -/
def start (dir : Bytes) (max : ℤ) (infos : List Path) (files : ManifestFiles α) :
    ManifestStore α :=
  let (cache, files) := ManifestCache.new dir max infos (fun _ => true) files
  ⟨cache, files, []⟩

/-- Every call to the filesystem succeeds. -/
def step (s : ManifestStore α) : StoreAct α → Option (ManifestStore α)
  | .rename k v => some (s.rename k v)
  | .index i => s.index i fun _ => true

/-- The order, the known paths and the files are the same, at most `max` of them. -/
structure Agrees (s : ManifestStore α) : Prop where
  nodup : s.cache.order.Nodup
  known : ∀ p, p ∈ s.cache.known ↔ p ∈ s.cache.order
  capped : s.cache.order.length ≤ s.cache.max
  disk : ∀ p, p ∈ s.files ↔ p ∈ s.cache.order

/-- A `Put` whose path is new and finds the cache full evicts no path of a `Put` under way. -/
def Spares (s : ManifestStore α) : StoreAct α → Prop
  | .rename _ _ => True
  | .index i => ∀ p ∈ s.putting[i]?, p ∉ s.cache.known →
      (s.cache.order.length : ℤ) = s.cache.max → ∀ q ∈ s.cache.order.head?, q ∉ s.putting

/-- The new path a step queues. -/
def queues (s : ManifestStore α) : StoreAct α → List Path
  | .rename _ _ => []
  | .index i => s.putting[i]?.toList.filter (· ∉ s.cache.known)

/-- The new paths a run queues. -/
def queued (s : ManifestStore α) : List (StoreAct α) → List Path
  | [] => []
  | a :: as =>
    match s.step a with
    | none => []
    | some s' => s.queues a ++ s'.queued as

/-- What a run renames onto a path. -/
def renamed (dir : Bytes) (p : Path) (as : List (StoreAct α)) : List α :=
  as.filterMap fun
    | .rename k v => if ManifestCache.pathIn dir k = p then some v else none
    | .index _ => none

instance (s : ManifestStore α) : ∀ a, Decidable (s.Spares a)
  | .rename _ _ => .isTrue trivial
  | .index i => inferInstanceAs (Decidable (∀ p ∈ s.putting[i]?, p ∉ s.cache.known →
      (s.cache.order.length : ℤ) = s.cache.max → ∀ q ∈ s.cache.order.head?, q ∉ s.putting))

/-! ### What a step can do -/

/-- The steps from a state within the cap. -/
inductive Moves (s : ManifestStore α) : StoreAct α → ManifestStore α → Prop
  | rename (k : ManifestKey) (v : α) : Moves s (.rename k v) (s.rename k v)
  | known {i : ℕ} {p : Path} (hp : s.putting[i]? = some p) (hk : p ∈ s.cache.known) :
    Moves s (.index i) { s with putting := s.putting.eraseIdx i }
  | room {i : ℕ} {p : Path} (hp : s.putting[i]? = some p) (hk : p ∉ s.cache.known)
    (hlt : s.cache.order.length < s.cache.max) :
    Moves s (.index i) ⟨{ s.cache with
        order := s.cache.order ++ [p], known := insert p s.cache.known },
      s.files, s.putting.eraseIdx i⟩
  | evict {i : ℕ} {p q : Path} {rest : List Path} (hp : s.putting[i]? = some p)
    (hk : p ∉ s.cache.known) (horder : s.cache.order = q :: rest)
    (hfull : (s.cache.order.length : ℤ) = s.cache.max) :
    Moves s (.index i) ⟨{ s.cache with
        order := rest ++ [p], known := (insert p s.cache.known).erase q },
      s.files.erase q, s.putting.eraseIdx i⟩

end ManifestStore

namespace ManifestCache

/-- Within the cap nothing is evicted. -/
theorem trimLoop_of_le {max : ℤ} {removes : Path → Bool} {order : List Path}
    (h : order.length ≤ max) (known : Finset Path) (files : ManifestFiles α) :
    trimLoop max removes order known files = (order, known, files) := by
  cases order with
  | nil => rfl
  | cons oldest order => rw [trimLoop, if_neg h.not_gt]

theorem trimLoop_one {max : ℤ} {oldest : Path} {order : List Path}
    (h : (order.length : ℤ) = max) (known : Finset Path) (files : ManifestFiles α) :
    trimLoop max (fun _ => true) (oldest :: order) known files =
      (order, known.erase oldest, files.erase oldest) := by
  rw [trimLoop, if_pos (by rw [List.length_cons]; omega), trimLoop_of_le h.le]
  rfl

end ManifestCache

namespace ManifestStore

variable {s s' : ManifestStore α} {a : StoreAct α}

theorem step_moves (hmax : 0 < s.cache.max) (hcap : s.cache.order.length ≤ s.cache.max)
    (h : s.step a = some s') : s.Moves a s' := by
  cases a with
  | rename k v =>
    cases h
    exact .rename k v
  | index i =>
    obtain ⟨p, hp, rfl⟩ := index_eq_some.mp h
    rw [ManifestCache.putLocked_eq hmax, ManifestCache.trimLocked, ManifestCache.enter_max,
      if_neg hmax.not_ge]
    by_cases hk : p ∈ s.cache.known
    · rw [ManifestCache.enter, if_pos hk, ManifestCache.trimLoop_of_le hcap]
      exact .known hp hk
    · rw [ManifestCache.enter, if_neg hk]
      by_cases hlt : s.cache.order.length < s.cache.max
      · rw [ManifestCache.trimLoop_of_le (by rw [List.length_append, List.length_singleton]; omega)]
        exact .room hp hk hlt
      · have hfull : (s.cache.order.length : ℤ) = s.cache.max := by omega
        cases horder : s.cache.order with
        | nil =>
          rw [horder, List.length_nil] at hfull
          omega
        | cons q rest =>
          have hlen : ((rest ++ [p]).length : ℤ) = s.cache.max := by
            rw [← hfull, horder]
            simp
          rw [List.cons_append]
          simp only [ManifestCache.trimLoop_one hlen]
          exact .evict hp hk horder hfull

/-! ### The invariant -/

/-- On disk are the files of the order and those of the `Put`s under way. -/
structure Inv (dir : Bytes) (max : ℤ) (s : ManifestStore α) : Prop where
  inDir : s.cache.dir = dir
  atMax : s.cache.max = max
  pos : 0 < s.cache.max
  nodup : s.cache.order.Nodup
  known : ∀ p, p ∈ s.cache.known ↔ p ∈ s.cache.order
  capped : s.cache.order.length ≤ s.cache.max
  disk : ∀ p, p ∈ s.files ↔ p ∈ s.cache.order ∨ p ∈ s.putting

variable {dir : Bytes} {max : ℤ}

theorem Inv.agrees (hI : s.Inv dir max) (hidle : s.putting = []) : s.Agrees := by
  refine ⟨hI.nodup, hI.known, hI.capped, fun p => ?_⟩
  rw [hI.disk, hidle]
  exact or_iff_left List.not_mem_nil

theorem mem_putting {i : ℕ} {p : Path} (hp : s.putting[i]? = some p) (q : Path) :
    q ∈ s.putting ↔ q = p ∨ q ∈ s.putting.eraseIdx i := by
  obtain ⟨hlt, rfl⟩ := List.getElem?_eq_some_iff.mp hp
  rw [← (List.getElem_cons_eraseIdx_perm hlt).mem_iff, List.mem_cons]

theorem Inv.step (hI : s.Inv dir max) (ha : s.Spares a) (h : s.step a = some s') :
    s'.Inv dir max := by
  cases step_moves hI.pos hI.capped h with
  | rename k v =>
    refine ⟨hI.inDir, hI.atMax, hI.pos, hI.nodup, hI.known, hI.capped, fun p => ?_⟩
    show p ∈ s.files.insert (s.cache.path k) v ↔ p ∈ s.cache.order ∨ p ∈ s.putting ++ [_]
    rw [AList.mem_insert, hI.disk, List.mem_append, List.mem_singleton]
    tauto
  | @known i p hp hk =>
    refine ⟨hI.inDir, hI.atMax, hI.pos, hI.nodup, hI.known, hI.capped, fun q => ?_⟩
    rw [hI.disk, mem_putting hp]
    have hin := (hI.known p).mp hk
    grind
  | @room i p hp hk hlt =>
    have hnew : p ∉ s.cache.order := fun hmem => hk ((hI.known p).mpr hmem)
    refine ⟨hI.inDir, hI.atMax, hI.pos, ?_, fun q => ?_, ?_, fun q => ?_⟩
    · exact hI.nodup.append (List.nodup_singleton p) (List.disjoint_singleton.mpr hnew)
    · rw [Finset.mem_insert, hI.known, List.mem_append, List.mem_singleton, or_comm]
    · rw [List.length_append, List.length_singleton]
      push_cast
      omega
    · show q ∈ s.files ↔ _
      rw [hI.disk, mem_putting hp, List.mem_append, List.mem_singleton]
      tauto
  | @evict i p q rest hp hk horder hfull =>
    have hnew : p ∉ s.cache.order := fun hmem => hk ((hI.known p).mpr hmem)
    have hnd := hI.nodup
    rw [horder] at hnd hnew
    obtain ⟨hq, hrest⟩ := List.nodup_cons.mp hnd
    obtain ⟨hpq, hpr⟩ := not_or.mp fun h => hnew (List.mem_cons.mpr h)
    have hspare : q ∉ s.putting := ha p hp hk hfull q (by rw [horder]; rfl)
    refine ⟨hI.inDir, hI.atMax, hI.pos, ?_, fun x => ?_, ?_, fun x => ?_⟩
    · exact hrest.append (List.nodup_singleton p) (List.disjoint_singleton.mpr hpr)
    · rw [Finset.mem_erase, Finset.mem_insert, hI.known, horder, List.mem_append,
        List.mem_singleton, List.mem_cons]
      grind
    · rw [horder, List.length_cons] at hfull
      rw [List.length_append, List.length_singleton]
      push_cast at hfull ⊢
      omega
    · -- the evicted file is that of no `Put` under way
      show x ∈ s.files.erase q ↔ _
      rw [AList.mem_erase, hI.disk, horder, List.mem_cons, List.mem_append, List.mem_singleton]
      rw [mem_putting hp] at hspare ⊢
      grind

theorem nodup_mem_drop {l : List Path} (h : l.Nodup) (n : ℕ) (p : Path) :
    p ∈ l.drop n ↔ p ∈ l ∧ p ∉ l.take n := by
  have hdisj := List.disjoint_take_drop h (le_refl n)
  have hsplit := List.take_append_drop n l
  constructor
  · exact fun hp => ⟨List.mem_of_mem_drop hp, fun ht => hdisj ht hp⟩
  · rintro ⟨hp, hno⟩
    rw [← hsplit, List.mem_append] at hp
    exact hp.resolve_left hno

/-- A boot indexes the files it finds, the youngest of them up to the cap. -/
theorem inv_start {infos : List Path} {files : ManifestFiles α} (hmax : 0 < max)
    (hinfos : infos.Perm files.keys) : (start dir max infos files).Inv dir max := by
  have hnd : infos.Nodup := hinfos.nodup_iff.mpr files.nodupKeys
  have hstart : start dir max infos files =
      ⟨(ManifestCache.trimLocked ⟨dir, max, infos, infos.toFinset⟩ (fun _ => true) files).1,
        (ManifestCache.trimLocked ⟨dir, max, infos, infos.toFinset⟩ (fun _ => true) files).2, []⟩ := by
    rw [start, ManifestCache.new, if_neg hmax.not_ge]
  rw [hstart]
  refine ⟨ManifestCache.trimLocked_dir _ _ _, ManifestCache.trimLocked_max _ _ _, ?_, ?_,
    fun p => ?_, ?_, fun p => ?_⟩
  · rwa [ManifestCache.trimLocked_max]
  · rw [ManifestCache.trimLocked_order hmax]
    exact (List.drop_sublist _ _).nodup hnd
  · rw [ManifestCache.mem_trimLocked_known hmax, ManifestCache.trimLocked_order hmax,
      nodup_mem_drop hnd, List.mem_toFinset]
  · rw [ManifestCache.trimLocked_max, ManifestCache.trimLocked_order hmax, List.length_drop,
      ManifestCache.excess]
    show ((infos.length - (infos.length - max.toNat) : ℕ) : ℤ) ≤ max
    omega
  · rw [← AList.lookup_isSome, ManifestCache.trimLocked_lookup hmax,
      ManifestCache.trimLocked_order hmax, nodup_mem_drop hnd]
    have hmem : p ∈ infos ↔ (files.lookup p).isSome := by
      rw [hinfos.mem_iff, AList.lookup_isSome]
      rfl
    rw [hmem]
    simp only [List.not_mem_nil, or_false, and_true]
    split <;> simp_all

/-! ### Reading back -/

/-- What a run queues behind a path is new: the path stays in the order as long as that is less
than the cap. -/
theorem Inv.stays {p : Path} : ∀ {as : List (StoreAct α)} {s s' : ManifestStore α}
    {pre post : List Path}, s.Inv dir max → Along ManifestStore.step Spares s as →
    exec ManifestStore.step s as = some s' → s.cache.order = pre ++ p :: post →
    (post.length + (s.queued as).length : ℤ) < s.cache.max → p ∈ s'.cache.order := by
  intro as
  induction as with
  | nil =>
    intro s s' pre post _ _ h horder _
    rw [exec_nil, Option.some_inj] at h
    rw [← h, horder]
    exact List.mem_append_right _ List.mem_cons_self
  | cons a as ih =>
    intro s s' pre post hI hspare h horder hlt
    obtain ⟨t, ht, hrest⟩ := exec_cons.mp h
    have hIt := hI.step hspare.1 ht
    have hqueued : s.queued (a :: as) = s.queues a ++ t.queued as := by
      rw [queued, ht]
    rw [hqueued, List.length_append] at hlt
    push_cast at hlt
    cases step_moves hI.pos hI.capped ht with
    | rename k v =>
      refine ih hIt (hspare.2 _ ht) hrest horder ?_
      show (_ : ℤ) < s.cache.max
      simpa [queues] using hlt
    | @known i q hq hk =>
      refine ih hIt (hspare.2 _ ht) hrest horder ?_
      simpa [queues, hq, hk] using hlt
    | @room i q hq hk hroom =>
      simp only [queues, hq, Option.toList_some, hk, not_false_eq_true, decide_true,
        List.filter_cons_of_pos, List.filter_nil, List.length_singleton] at hlt
      refine @ih _ _ pre (post ++ [q]) hIt (hspare.2 _ ht) hrest ?_ ?_
      · show s.cache.order ++ [q] = _
        rw [horder, List.append_assoc, List.cons_append]
      · show ((post ++ [q]).length + _ : ℤ) < s.cache.max
        rw [List.length_append, List.length_singleton]
        push_cast at hlt ⊢
        omega
    | @evict i q oldest rest hq hk hfirst hfull =>
      simp only [queues, hq, Option.toList_some, hk, not_false_eq_true, decide_true,
        List.filter_cons_of_pos, List.filter_nil, List.length_singleton] at hlt
      -- the order is full, so something is before the path and goes in its place
      cases pre with
      | nil =>
        rw [horder, List.nil_append, List.length_cons] at hfull
        push_cast at hfull hlt
        omega
      | cons first pre =>
        rw [horder, List.cons_append, List.cons.injEq] at hfirst
        refine @ih _ _ pre (post ++ [q]) hIt (hspare.2 _ ht) hrest ?_ ?_
        · show rest ++ [q] = _
          rw [← hfirst.2, List.append_assoc, List.cons_append]
        · show ((post ++ [q]).length + _ : ℤ) < s.cache.max
          rw [List.length_append, List.length_singleton]
          push_cast at hlt ⊢
          omega

theorem renamed_cons (dir : Bytes) (p : Path) (a : StoreAct α) (as : List (StoreAct α)) :
    renamed dir p (a :: as) = renamed dir p [a] ++ renamed dir p as := by
  rw [renamed, renamed, renamed, ← List.filterMap_append]
  rfl

/-- A file holds what was last renamed onto it. -/
theorem Inv.holds_last {p : Path} {v : α} : ∀ {as : List (StoreAct α)} {s s' : ManifestStore α},
    s.Inv dir max → Along ManifestStore.step Spares s as → exec ManifestStore.step s as = some s' →
    s'.files.lookup p = some v →
    (renamed dir p as).getLast?.or (s.files.lookup p) = some v := by
  intro as
  induction as with
  | nil =>
    intro s s' _ _ h hv
    rw [exec_nil, Option.some_inj] at h
    rwa [h]
  | cons a as ih =>
    intro s s' hI hspare h hv
    obtain ⟨t, ht, hrest⟩ := exec_cons.mp h
    have hlast := ih (hI.step hspare.1 ht) (hspare.2 t ht) hrest hv
    rw [renamed_cons, List.getLast?_append]
    cases hl : (renamed dir p as).getLast? with
    | some w =>
      rw [hl] at hlast
      exact hlast
    | none =>
      rw [hl, Option.none_or] at hlast
      rw [Option.none_or]
      cases step_moves hI.pos hI.capped ht with
      | rename k w =>
        simp only [ManifestStore.rename, ManifestCache.path, hI.inDir] at hlast
        by_cases hp : ManifestCache.pathIn dir k = p
        · rw [hp, AList.lookup_insert] at hlast
          simpa [renamed, hp] using hlast
        · rw [AList.lookup_insert_ne (Ne.symm hp)] at hlast
          simpa [renamed, hp] using hlast
      | known => exact hlast
      | room => exact hlast
      | @evict i q oldest rest hq hk hfirst hfull =>
        have hp : p ≠ oldest := by
          rintro rfl
          rw [AList.lookup_erase] at hlast
          cases hlast
        rwa [AList.lookup_erase_ne hp] at hlast

/-- What is under way in a run was renamed by it. -/
theorem putting_renamed {p : Path} : ∀ {as : List (StoreAct α)} {s s' : ManifestStore α},
    s.Inv dir max → Along ManifestStore.step Spares s as → exec ManifestStore.step s as = some s' →
    p ∈ s'.putting → p ∈ s.putting ∨ renamed dir p as ≠ [] := by
  intro as
  induction as with
  | nil =>
    intro s s' _ _ h hp
    rw [exec_nil, Option.some_inj] at h
    exact Or.inl (h ▸ hp)
  | cons a as ih =>
    intro s s' hI hspare h hp
    obtain ⟨t, ht, hrest⟩ := exec_cons.mp h
    rw [renamed_cons]
    rcases ih (hI.step hspare.1 ht) (hspare.2 t ht) hrest hp with hin | hne
    · cases step_moves hI.pos hI.capped ht with
      | rename k w =>
        rcases List.mem_append.mp hin with hin | hin
        · exact Or.inl hin
        · have hpath : ManifestCache.pathIn dir k = p := by
            rw [← hI.inDir]
            exact (List.mem_singleton.mp hin).symm
          exact Or.inr (by simp [renamed, hpath])
      | known => exact Or.inl (List.eraseIdx_subset hin)
      | room => exact Or.inl (List.eraseIdx_subset hin)
      | evict => exact Or.inl (List.eraseIdx_subset hin)
    · exact Or.inr (List.append_ne_nil_of_right_ne_nil _ hne)

end ManifestStore

/-- The request of a file without a `Range`. -/
def fileKey (fileID : String) : ManifestKey := ⟨lit "v", lit fileID, []⟩

/-- The store and the time of the last `Put`; a file is its modification time. -/
structure AgedStore where
  store : ManifestStore ℕ
  now : ℕ

inductive AgedAct
  | put (k : ManifestKey) (t : ℕ)
  | restart (infos : List Path)

/-- The modification time of a file. -/
def mtime (files : ManifestFiles ℕ) (p : Path) : ℕ := (files.lookup p).getD 0

/-- Strictly, in the order of the files' ages. -/
def AgeOrder (files : ManifestFiles ℕ) (ps : List Path) : Prop :=
  ps.Pairwise fun p q => mtime files p < mtime files q

namespace AgedStore

/-- `newManifestCache` on an empty directory. -/
def start (dir : Bytes) (max : ℤ) (now : ℕ) : AgedStore := ⟨⟨⟨dir, max, [], ∅⟩, ∅, []⟩, now⟩

/-- `Put`s one after the other at increasing times, and boots, which find the files in the order
`sort.Slice` leaves. -/
def step (s : AgedStore) : AgedAct → Option AgedStore
  | .put k t =>
    if s.now < t then ((s.store.rename k t).step (.index 0)).map fun store => ⟨store, t⟩ else none
  | .restart infos =>
    if infos.Perm s.store.files.keys ∧
        infos.Pairwise (fun p q => mtime s.store.files p ≤ mtime s.store.files q) then
      some { s with store := s.store.restart infos fun _ => true }
    else none

/-- The order is that of the ages: a boot rebuilds it, and what a `Put` evicts is older than all
that it leaves. -/
structure Aged (s : AgedStore) : Prop where
  sorted : AgeOrder s.store.files s.store.cache.order
  rebuilt : ∀ infos s', s.step (.restart infos) = some s' → s' = s
  oldest : ∀ k t s', s.step (.put k t) = some s' → ∀ p ∈ s.store.files, p ∉ s'.store.files →
    ∀ q ∈ s'.store.files, mtime s.store.files p < mtime s'.store.files q

/-- A `Put` writes a new path or the last of the order. -/
def Appends (s : AgedStore) : AgedAct → Prop
  | .put k _ => s.store.cache.path k ∉ s.store.cache.known ∨
      s.store.cache.order.getLast? = some (s.store.cache.path k)
  | .restart _ => True

instance (s : AgedStore) : ∀ a, Decidable (s.Appends a)
  | .put k _ => inferInstanceAs (Decidable (s.store.cache.path k ∉ s.store.cache.known ∨
      s.store.cache.order.getLast? = some (s.store.cache.path k)))
  | .restart _ => .isTrue trivial

/-- Between `Put`s the index is the directory, and no file is from later than the last. -/
structure Inv (dir : Bytes) (max : ℤ) (s : AgedStore) : Prop where
  store : s.store.Inv dir max
  idle : s.store.putting = []
  past : ∀ p, mtime s.store.files p ≤ s.now

/-- What a `Put` can do. -/
inductive Puts (s : AgedStore) (k : ManifestKey) (t : ℕ) : AgedStore → Prop
  | known (hk : s.store.cache.path k ∈ s.store.cache.known) :
    Puts s k t ⟨⟨s.store.cache, s.store.files.insert (s.store.cache.path k) t, []⟩, t⟩
  | room (hk : s.store.cache.path k ∉ s.store.cache.known) :
    Puts s k t ⟨⟨{ s.store.cache with
        order := s.store.cache.order ++ [s.store.cache.path k]
        known := insert (s.store.cache.path k) s.store.cache.known },
      s.store.files.insert (s.store.cache.path k) t, []⟩, t⟩
  | evict {q : Path} {rest : List Path} (hk : s.store.cache.path k ∉ s.store.cache.known)
    (horder : s.store.cache.order = q :: rest) :
    Puts s k t ⟨⟨{ s.store.cache with
        order := rest ++ [s.store.cache.path k]
        known := (insert (s.store.cache.path k) s.store.cache.known).erase q },
      (s.store.files.insert (s.store.cache.path k) t).erase q, []⟩, t⟩

variable {dir : Bytes} {max : ℤ} {s s' : AgedStore} {k : ManifestKey} {t : ℕ}

theorem step_put (hI : s.Inv dir max) (h : s.step (.put k t) = some s') :
    s.now < t ∧ s.Puts k t s' ∧ s'.store.Inv dir max := by
  rw [step] at h
  split at h
  · next hlt =>
    obtain ⟨store, hstore, rfl⟩ := Option.map_eq_some_iff.mp h
    have hrename : (s.store.rename k t).Inv dir max :=
      hI.store.step (a := .rename k t) trivial rfl
    have hone : (s.store.rename k t).putting = [s.store.cache.path k] := by
      rw [ManifestStore.rename, hI.idle]
      rfl
    have hspare : (s.store.rename k t).Spares (.index 0) := by
      intro p hp hnew _ q hq hmem
      rw [hone, List.getElem?_cons_zero, Option.mem_some_iff] at hp
      rw [hone, List.mem_singleton, hp] at hmem
      subst hmem
      exact hnew ((hrename.known q).mpr (List.mem_of_mem_head? hq))
    refine ⟨hlt, ?_, hrename.step hspare hstore⟩
    have hnone : (s.store.rename k t).putting.eraseIdx 0 = [] := by rw [hone]; rfl
    cases ManifestStore.step_moves hrename.pos hrename.capped hstore with
    | known hp hk =>
      rw [hone, List.getElem?_cons_zero, Option.some_inj] at hp
      rw [hnone]
      exact .known (hp ▸ hk)
    | room hp hk _ =>
      rw [hone, List.getElem?_cons_zero, Option.some_inj] at hp
      rw [hnone, ← hp]
      exact .room (hp ▸ hk)
    | evict hp hk horder _ =>
      rw [hone, List.getElem?_cons_zero, Option.some_inj] at hp
      rw [hnone, ← hp]
      exact .evict (hp ▸ hk) horder
  · cases h

theorem mtime_insert (files : ManifestFiles ℕ) (p q : Path) (t : ℕ) :
    mtime (files.insert p t) q = if q = p then t else mtime files q := by
  rw [mtime]
  by_cases h : q = p
  · rw [h, AList.lookup_insert, if_pos rfl]
    rfl
  · rw [AList.lookup_insert_ne h, if_neg h]
    rfl

theorem mtime_erase {files : ManifestFiles ℕ} {p q : Path} (h : q ≠ p) :
    mtime (files.erase p) q = mtime files q := by
  rw [mtime, AList.lookup_erase_ne h]
  rfl

theorem mtime_erase_le (files : ManifestFiles ℕ) (p q : Path) :
    mtime (files.erase p) q ≤ mtime files q := by
  by_cases h : q = p
  · rw [h, mtime, AList.lookup_erase]
    exact Nat.zero_le _
  · exact (mtime_erase h).le

theorem Inv.put (hI : s.Inv dir max) (h : s.step (.put k t) = some s') : s'.Inv dir max := by
  obtain ⟨hlt, hputs, hstore⟩ := step_put hI h
  have hpast : ∀ p, mtime (s.store.files.insert (s.store.cache.path k) t) p ≤ t := by
    intro p
    rw [mtime_insert]
    split
    · exact le_rfl
    · exact (hI.past p).trans hlt.le
  cases hputs with
  | known hk => exact ⟨hstore, rfl, hpast⟩
  | room hk => exact ⟨hstore, rfl, hpast⟩
  | evict hk horder => exact ⟨hstore, rfl, fun p => (mtime_erase_le _ _ p).trans (hpast p)⟩

/-- The ages of other paths are as they were. -/
theorem ageOrder_insert {ps : List Path} {p : Path} (hp : p ∉ ps) (files : ManifestFiles ℕ)
    (t : ℕ) : AgeOrder (files.insert p t) ps ↔ AgeOrder files ps := by
  refine List.Pairwise.iff_of_mem fun {x y} hx hy => ?_
  rw [mtime_insert, mtime_insert, if_neg (ne_of_mem_of_not_mem hx hp),
    if_neg (ne_of_mem_of_not_mem hy hp)]

/-- What was just written is the youngest. -/
theorem ageOrder_append (hI : s.Inv dir max) (hlt : s.now < t) {ps : List Path} {p : Path}
    (hp : p ∉ ps) (hs : AgeOrder s.store.files ps) :
    AgeOrder (s.store.files.insert p t) (ps ++ [p]) := by
  refine List.pairwise_append.mpr ⟨(ageOrder_insert hp _ t).mpr hs, List.pairwise_singleton _ _,
    fun x hx y hy => ?_⟩
  rw [List.mem_singleton.mp hy, mtime_insert, mtime_insert, if_pos rfl,
    if_neg (ne_of_mem_of_not_mem hx hp)]
  exact (hI.past x).trans_lt hlt

/-- A `Put` keeps the order of the ages exactly if it appends. -/
theorem sorted_put (hI : s.Inv dir max) (hs : AgeOrder s.store.files s.store.cache.order)
    (h : s.step (.put k t) = some s') :
    AgeOrder s'.store.files s'.store.cache.order ↔ s.Appends (.put k t) := by
  obtain ⟨hlt, hputs, -⟩ := step_put hI h
  have hnew : s.store.cache.path k ∉ s.store.cache.known →
      s.store.cache.path k ∉ s.store.cache.order := fun hk hmem =>
    hk ((hI.store.known _).mpr hmem)
  cases hputs with
  | known hk =>
    have hmem := (hI.store.known _).mp hk
    have hiff : s.Appends (.put k t) ↔
        s.store.cache.order.getLast? = some (s.store.cache.path k) := or_iff_right (not_not.mpr hk)
    rw [hiff]
    have hne : s.store.cache.order ≠ [] := List.ne_nil_of_mem hmem
    have hconcat := List.dropLast_append_getLast hne
    have hnd := hI.store.nodup
    rw [List.getLast?_eq_some_getLast hne, Option.some_inj]
    constructor
    · intro hsorted
      by_contra hlast
      -- the rewritten file is the youngest, and not the last
      rw [← hconcat, List.mem_append, List.mem_singleton] at hmem
      have hdrop := hmem.resolve_right (Ne.symm hlast)
      rw [AgeOrder, ← hconcat, List.pairwise_append] at hsorted
      have hage := hsorted.2.2 _ hdrop _ (List.mem_singleton.mpr rfl)
      rw [mtime_insert, mtime_insert, if_pos rfl, if_neg hlast] at hage
      have := hI.past (s.store.cache.order.getLast hne)
      omega
    · intro hlast
      rw [hlast] at hconcat
      rw [← hconcat, List.nodup_append'] at hnd
      rw [← hconcat]
      refine ageOrder_append hI hlt (fun hdrop => hnd.2.2 hdrop (List.mem_singleton.mpr rfl)) ?_
      rw [← hconcat] at hs
      exact (List.pairwise_append.mp hs).1
  | room hk => exact iff_of_true (ageOrder_append hI hlt (hnew hk) hs) (Or.inl hk)
  | @evict q rest hk horder =>
    refine iff_of_true ?_ (Or.inl hk)
    have hnew' := hnew hk
    have hnd := hI.store.nodup
    rw [horder] at hs hnew' hnd
    obtain ⟨hq, -⟩ := List.nodup_cons.mp hnd
    obtain ⟨hpq, hpr⟩ := not_or.mp fun hmem => hnew' (List.mem_cons.mpr hmem)
    have hkeep := ageOrder_append hI hlt hpr (List.Pairwise.of_cons hs)
    refine (List.Pairwise.iff_of_mem fun {x y} hx hy => ?_).mpr hkeep
    have hno : ∀ {z}, z ∈ rest ++ [s.store.cache.path k] → z ≠ q := by
      rintro z hz rfl
      rcases List.mem_append.mp hz with hz | hz
      · exact hq hz
      · exact hpq (List.mem_singleton.mp hz).symm
    rw [mtime_erase (hno hx), mtime_erase (hno hy)]

/-- A boot on files in the order of their ages finds what the process before it had. -/
theorem restart_eq (hI : s.Inv dir max) (hs : AgeOrder s.store.files s.store.cache.order)
    {infos : List Path} (h : s.step (.restart infos) = some s') : s' = s := by
  rw [step] at h
  split at h
  · next hsort =>
    obtain ⟨hperm, hage⟩ := hsort
    cases h
    have hmem : ∀ p, p ∈ infos ↔ p ∈ s.store.cache.order := by
      intro p
      have hdisk := hI.store.disk p
      rw [hI.idle, or_iff_left List.not_mem_nil] at hdisk
      rw [hperm.mem_iff, ← hdisk]
      rfl
    have hperm' : infos.Perm s.store.cache.order :=
      (List.perm_ext_iff_of_nodup (hperm.nodup_iff.mpr s.store.files.nodupKeys)
        hI.store.nodup).mpr hmem
    have heq : infos = s.store.cache.order := by
      refine List.Perm.eq_of_pairwise (fun p q hp hq hpq hqp => ?_) hage
        (hs.imp fun h => h.le) hperm'
      have hages : (s.store.cache.order.map (mtime s.store.files)).Nodup :=
        List.pairwise_map.mpr (hs.imp fun h => h.ne)
      exact List.inj_on_of_nodup_map hages ((hmem p).mp hp) hq (le_antisymm hpq hqp)
    have hknown : s.store.cache.order.toFinset = s.store.cache.known := by
      ext p
      rw [List.mem_toFinset, hI.store.known]
    have hstore : s.store.restart infos (fun _ => true) = s.store := by
      have hpos := hI.store.pos
      rw [heq, ManifestStore.restart, ManifestCache.new, if_neg hpos.not_ge,
        ManifestCache.trimLocked, if_neg hpos.not_ge,
        ManifestCache.trimLoop_of_le hI.store.capped, hknown]
      have hidle := hI.idle
      obtain ⟨⟨cache, files, putting⟩, now⟩ := s
      simp only at hidle ⊢
      rw [hidle]
    rw [hstore]
  · cases h

theorem aged_of_sorted (hI : s.Inv dir max) (hs : AgeOrder s.store.files s.store.cache.order) :
    s.Aged := by
  refine ⟨hs, fun infos s' h => restart_eq hI hs h, fun k t s' h p hp hgone q hq => ?_⟩
  obtain ⟨hlt, hputs, -⟩ := step_put hI h
  cases hputs with
  | known hk => exact absurd ((AList.mem_insert _).mpr (Or.inr hp)) hgone
  | room hk => exact absurd ((AList.mem_insert _).mpr (Or.inr hp)) hgone
  | @evict oldest rest hk horder =>
    simp only [AList.mem_erase, AList.mem_insert, not_and, hp, or_true, not_true_eq_false,
      imp_false, not_not] at hgone
    subst hgone
    rw [AList.mem_erase, AList.mem_insert] at hq
    show _ < mtime ((s.store.files.insert (s.store.cache.path k) t).erase p) q
    rw [mtime_erase hq.1, mtime_insert]
    split
    · exact (hI.past p).trans_lt hlt
    · next hne =>
      have hin : q ∈ s.store.cache.order := by
        have hdisk := hI.store.disk q
        rw [hI.idle, or_iff_left List.not_mem_nil] at hdisk
        exact hdisk.mp (hq.2.resolve_left hne)
      rw [horder] at hs hin
      exact List.rel_of_pairwise_cons hs ((List.mem_cons.mp hin).resolve_left hq.1)

end AgedStore

end XetDcCache
