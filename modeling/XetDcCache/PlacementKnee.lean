/-
Hit rate against cache size (placement_locality_sim.py).

`simulate` and `simulateTier2` replay an event log through one cache a node.
`Within small big` relates the caches of two replays: the smaller one holds the young end
of the bigger one.  An access keeps it unless its key fits the bigger cache only
(`Within.access`), so with no such key a bigger cache never hits less (`bigger_never_hits_less`).
-/
import XetDcCache.PlacementSim
import Mathlib.Logic.Function.Basic

namespace XetDcCache

namespace Study

open Recency

variable {κ τ : Type*} [DecidableEq κ]

/-! ### The replays -/

inductive Scope
  | host
  | rack
  | datacenter
deriving DecidableEq, Repr

/-- A row of the event log; `rackId` is `none` if the log has no such column. -/
structure WorkerStart (τ : Type*) where
  ts : τ
  repoId : String
  revision : String
  hostId : String
  gpuType : String
  datacenter : String
  modelSizeBytes : ℕ
  rackId : Option String

def scopeKey (row : WorkerStart τ) : Scope → String
  | .host => row.hostId
  | .rack => row.rackId.getD row.hostId
  | .datacenter => row.datacenter

section Replays

variable [Sub τ] [LT τ] [DecidableLT τ]

/-- `get`, then `put`. -/
def LruCache.access (c : LruCache κ τ) (key : κ) (size : ℕ) (now : τ) :
    Option (Bool × LruCache κ τ) :=
  match c.get key now with
  | none => none
  | some (hit, c') => (c'.put key size now).map (hit, ·)

/-- The caches by node; a node that has none yet gets a new one. -/
abbrev Caches (κ τ : Type*) := String → LruCache κ τ

/-- An access to the cache of a node. -/
def Caches.access (cs : Caches κ τ) (node : String) (key : κ) (size : ℕ) (now : τ) :
    Option (Bool × Caches κ τ) :=
  ((cs node).access key size now).map fun r => (r.1, Function.update cs node r.2)

/-- The body of the loop of `simulate`. -/
def simulateStep (scope : Scope) (cs : Caches (String × String) τ) (row : WorkerStart τ) :
    Option (Bool × Caches (String × String) τ) :=
  cs.access (row.gpuType ++ "::" ++ scopeKey row scope) (row.repoId, row.revision)
    row.modelSizeBytes row.ts

/-- The inner loop of `simulate_tier2`: the bytes that hit. -/
def fetchXorbs (node : String) (now : τ) :
    List (String × ℕ) → Caches String τ → ℕ → Option (ℕ × Caches String τ)
  | [], cs, hitBytes => some (hitBytes, cs)
  | (hash, size) :: rest, cs, hitBytes =>
    match cs.access node hash size now with
    | none => none
    | some (hit, cs') => fetchXorbs node now rest cs' (if hit then hitBytes + size else hitBytes)

/-- The body of the loop of `simulate_tier2`. -/
def tier2Step (scope : Scope) (xorbMap : String × String → List (String × ℕ))
    (cs : Caches String τ) (row : WorkerStart τ) : Option (ℕ × Caches String τ) :=
  fetchXorbs (scopeKey row scope) row.ts (xorbMap (row.repoId, row.revision)) cs 0

/-- A loop over the rows that collects a column. -/
def replay {σ β : Type*} (step : σ → WorkerStart τ → Option (β × σ)) :
    σ → List (WorkerStart τ) → Option (List β)
  | _, [] => some []
  | s, row :: rows =>
    match step s row with
    | none => none
    | some (x, s') => (replay step s' rows).map (x :: ·)

/-- The `hit` column. -/
def simulate (events : List (WorkerStart τ)) (scope : Scope) (capacityBytes : ℕ)
    (ttlSeconds : Option τ) : Option (List Bool) :=
  replay (simulateStep scope) (fun _ => .new capacityBytes ttlSeconds) events

/-- The `hit_bytes` column. -/
def simulateTier2 (events : List (WorkerStart τ)) (xorbMap : String × String → List (String × ℕ))
    (scope : Scope) (capacityBytes : ℕ) (ttlSeconds : Option τ) : Option (List ℕ) :=
  replay (tier2Step scope xorbMap) (fun _ => .new capacityBytes ttlSeconds) events

end Replays

/-! ### One access -/

/-- A cache whose accounting is sound and whose entries have the sizes of their keys. -/
structure LruCache.Sized (size : κ → ℕ) (c : LruCache κ τ) : Prop where
  sound : c.Sound
  sizes : ∀ e ∈ c.entries.items, e.2.1 = size e.1

/-- The entries without one key. -/
def LruCache.others (c : LruCache κ τ) (key : κ) : List (κ × ℕ × τ) :=
  c.entries.items.filter (·.1 ≠ key)

theorem others_of_notMem {c : LruCache κ τ} {key : κ} (h : key ∉ c.entries.keys) :
    c.others key = c.entries.items := by
  refine List.filter_eq_self.mpr fun e he => ?_
  have hne : e.1 ≠ key := fun hk => h (hk ▸ List.mem_map.mpr ⟨e, he, rfl⟩)
  simpa using hne

theorem notMem_others {c : LruCache κ τ} {key : κ} : key ∉ (c.others key).map Prod.fst := by
  intro h
  obtain ⟨e, he, hk⟩ := List.mem_map.mp h
  exact of_decide_eq_true (List.mem_filter.mp he).2 hk

variable [Sub τ] [LT τ] [DecidableLT τ]

/-- The cache holds the key, and not for too long. -/
def LruCache.Fresh (c : LruCache κ τ) (key : κ) (now : τ) : Prop :=
  ∃ v, (key, v) ∈ c.entries.items ∧ c.expired now v.2 = false

/-- What an access leaves: the key is the youngest, after a miss behind the longest young part
of the others that leaves it room; a key that can never fit is not stored. -/
structure Accessed (c : LruCache κ τ) (key : κ) (size : ℕ) (now : τ) (hit : Bool)
    (c' : LruCache κ τ) : Prop where
  capacity : c'.capacityBytes = c.capacityBytes
  ttl : c'.ttlSeconds = c.ttlSeconds
  hit_iff : hit = true ↔ c.Fresh key now
  hit_items : hit = true → c'.entries.items = c.others key ++ [(key, size, now)]
  skip_items : hit = false → c.capacityBytes < size → c'.entries.items = c.others key
  miss_items : hit = false → size ≤ c.capacityBytes → ∃ young,
    c'.entries.items = young ++ [(key, size, now)] ∧
    LongestSuffix (fun es => stored es + size ≤ c.capacityBytes) (c.others key) young

/-- A miss: the key is not there, or no longer. -/
theorem put_accessed {c c₁ : LruCache κ τ} {key : κ} {size : ℕ} {now : τ} (h : c₁.Sound)
    (hitems : c₁.entries.items = c.others key) (hcap : c₁.capacityBytes = c.capacityBytes)
    (httl : c₁.ttlSeconds = c.ttlSeconds) (hmiss : ¬ c.Fresh key now) :
    ∃ c', c₁.put key size now = some c' ∧ c'.Sound ∧ Accessed c key size now false c' := by
  have hk : key ∉ c₁.entries.keys := by
    rw [OrderedDict.keys, hitems]
    exact notMem_others
  have hsound : ∀ {c'}, c₁.put key size now = some c' → c'.Sound := by
    intro c' hput
    obtain ⟨d, hd, hiff⟩ := h.put key size now
    rw [hput, Option.some_inj] at hd
    rw [hd, hiff, OrderedDict.get?_eq_none.mpr hk]
    simp
  rcases Nat.lt_or_ge c₁.capacityBytes size with hsize | hsize
  · have hput := put_oversized hk hsize now
    exact ⟨c₁, hput, h, hcap, httl, by simp [hmiss], by rintro ⟨⟩, fun _ _ => hitems,
      fun _ hle => absurd hsize (not_lt.mpr (hcap ▸ hle))⟩
  · obtain ⟨c', young, hput, hcap', httl', -, hnew, hlong⟩ := put_absent h.total hk hsize now
    refine ⟨c', hput, hsound hput, hcap'.trans hcap, httl'.trans httl, by simp [hmiss], by rintro ⟨⟩,
      fun _ hlt => absurd (hcap ▸ hsize) (not_le.mpr hlt), fun _ _ => ⟨young, hnew, ?_⟩⟩
    rwa [← hitems, ← hcap]

/-- An access never raises on a sound cache whose key keeps its size. -/
theorem access_accessed {size : κ → ℕ} {c : LruCache κ τ} (h : c.Sized size) (key : κ) (now : τ) :
    ∃ hit c', c.access key (size key) now = some (hit, c') ∧ c'.Sized size ∧
      Accessed c key (size key) now hit c' := by
  have hothers : ∀ e ∈ c.others key, e.2.1 = size e.1 := fun e he =>
    h.sizes e (List.mem_of_mem_filter he)
  have hsized : ∀ {hit c'}, c'.Sound → Accessed c key (size key) now hit c' → c'.Sized size := by
    intro hit c' hsound hacc
    refine ⟨hsound, fun e he => ?_⟩
    cases hit with
    | true =>
      rw [hacc.hit_items rfl, List.mem_append, List.mem_singleton] at he
      rcases he with he | rfl
      · exact hothers e he
      · rfl
    | false =>
      rcases Nat.lt_or_ge c.capacityBytes (size key) with hlt | hle
      · rw [hacc.skip_items rfl hlt] at he
        exact hothers e he
      · obtain ⟨young, hnew, hlong⟩ := hacc.miss_items rfl hle
        rw [hnew, List.mem_append, List.mem_singleton] at he
        rcases he with he | rfl
        · exact hothers e (hlong.1.subset he)
        · rfl
  rw [LruCache.access, LruCache.get]
  cases hg : c.entries.get? key with
  | none =>
    have hk := OrderedDict.get?_eq_none.mp hg
    have hmiss : ¬ c.Fresh key now := by
      rintro ⟨v, hv, -⟩
      exact hk (OrderedDict.mem_keys.mpr ⟨v, hv⟩)
    obtain ⟨c', hput, hsound, hacc⟩ :=
      put_accessed h.sound (others_of_notMem hk).symm rfl rfl hmiss
    exact ⟨false, c', by simp [hput], hsized hsound hacc, hacc⟩
  | some v =>
    obtain ⟨old, last⟩ := v
    have hmem := OrderedDict.get?_eq_some.mp hg
    have hone : ∀ v, (key, v) ∈ c.entries.items → v = (old, last) := by
      intro v hv
      have := (OrderedDict.get?_eq_some.mpr hv).symm.trans hg
      exact Option.some_inj.mp this
    obtain ⟨hit, c₁, hget, hsound₁⟩ := h.sound.get key now
    rw [LruCache.get, hg] at hget
    by_cases hexp : c.expired now last
    · have hmiss : ¬ c.Fresh key now := by
        rintro ⟨v, hv, hfresh⟩
        rw [hone v hv, hexp] at hfresh
        cases hfresh
      simp only [hexp, if_true, evict_spec hmem, Option.map_some, Option.some_inj,
        Prod.mk.injEq] at hget ⊢
      obtain ⟨-, rfl⟩ := hget
      obtain ⟨c', hput, hsound, hacc⟩ := put_accessed hsound₁ rfl rfl rfl hmiss
      exact ⟨false, c', by rw [hput]; rfl, hsized hsound hacc, hacc⟩
    · rw [Bool.not_eq_true] at hexp
      have hfresh : c.Fresh key now := ⟨(old, last), hmem, hexp⟩
      simp only [hexp, Bool.false_eq_true, if_false, Option.some_inj, Prod.mk.injEq] at hget ⊢
      obtain ⟨-, rfl⟩ := hget
      -- the key is there, so `put` gives it the size it has
      have hk : key ∈ (c.entries.moveToEnd key).keys := by
        rw [OrderedDict.keys, OrderedDict.moveToEnd_items hmem]
        simp
      obtain ⟨c', hput, hiff⟩ := hsound₁.put key (size key) now
      have hkeep : (OrderedDict.get? (c.entries.moveToEnd key) key) = some (old, last) := by
        rw [OrderedDict.get?_eq_some, OrderedDict.moveToEnd_items hmem]
        simp
      have hsound : c'.Sound := by
        rw [hiff, hkeep]
        rintro v hv
        rw [Option.mem_some_iff] at hv
        rw [← hv]
        exact h.sizes _ hmem
      have hacc : Accessed c key (size key) now true c' := by
        have hput' := hput.symm.trans (put_present hk (size key) now)
        rw [Option.some_inj] at hput'
        subst hput'
        refine ⟨rfl, rfl, by simp [hfresh], fun _ => ?_, by rintro ⟨⟩, by rintro ⟨⟩⟩
        show (((c.entries.moveToEnd key).moveToEnd key).set key (size key, now)).items = _
        rw [OrderedDict.moveToEnd_set_items hk, OrderedDict.moveToEnd_items hmem,
          List.filter_append, List.filter_filter]
        simp [LruCache.others]
      exact ⟨true, c', by rw [hput]; rfl, hsized hsound hacc, hacc⟩

/-! ### Two caches -/

/-- The cache of capacity `small` holds the young end of the one of capacity `big`. -/
structure Within (size : κ → ℕ) (small big : ℕ) (c c' : LruCache κ τ) : Prop where
  sized : c.Sized size
  sized' : c'.Sized size
  capacity : c.capacityBytes = small
  capacity' : c'.capacityBytes = big
  ttl : c.ttlSeconds = c'.ttlSeconds
  young : c.entries.items <:+ c'.entries.items

variable {size : κ → ℕ} {small big : ℕ}

omit [Sub τ] [LT τ] [DecidableLT τ] in
theorem Within.others {c c' : LruCache κ τ} (h : Within size small big c c') (key : κ) :
    c.others key <:+ c'.others key := by
  obtain ⟨pre, hpre⟩ := h.young
  exact ⟨pre.filter (·.1 ≠ key), by
    rw [LruCache.others, LruCache.others, ← hpre, List.filter_append]⟩

omit [DecidableEq κ] [Sub τ] [LT τ] [DecidableLT τ] in
theorem within_new (size : κ → ℕ) (small big : ℕ) (ttl : Option τ) :
    Within size small big (.new small ttl) (.new big ttl) :=
  ⟨⟨new_sound small ttl, nofun⟩, ⟨new_sound big ttl, nofun⟩, rfl, rfl, rfl, List.suffix_rfl⟩

/-- An access to both caches: a hit in the smaller one is a hit in the bigger one, and the
smaller one still holds the young end, unless the key fits the bigger one only. -/
theorem Within.access (hle : small ≤ big) {c c' : LruCache κ τ} (h : Within size small big c c')
    {key : κ} (hsize : size key ≤ small ∨ big < size key) (now : τ) :
    ∃ hit d hit' d', c.access key (size key) now = some (hit, d) ∧
      c'.access key (size key) now = some (hit', d') ∧ (hit → hit') ∧ Within size small big d d' := by
  obtain ⟨hit, d, hd, hsized, hacc⟩ := access_accessed h.sized key now
  obtain ⟨hit', d', hd', hsized', hacc'⟩ := access_accessed h.sized' key now
  have hothers := h.others key
  have himp : hit = true → hit' = true := by
    intro hhit
    obtain ⟨v, hv, hfresh⟩ := hacc.hit_iff.mp hhit
    refine hacc'.hit_iff.mpr ⟨v, h.young.subset hv, ?_⟩
    rw [LruCache.expired, h.ttl] at hfresh
    exact hfresh
  have hyoung : d.entries.items <:+ d'.entries.items := by
    cases hh' : hit' with
    | true =>
      rw [hacc'.hit_items hh']
      cases hh : hit with
      | true =>
        rw [hacc.hit_items hh]
        exact List.suffix_append_self_iff.mpr hothers
      | false =>
        -- a key the bigger cache holds fits it, so it fits the smaller one
        obtain ⟨v, hv, -⟩ := hacc'.hit_iff.mp hh'
        have hfits : size key ≤ big := by
          have hstored := le_stored hv
          have hbounded := h.sized'.sound.bounded
          rw [h.sized'.sound.total, h.capacity'] at hbounded
          rw [h.sized'.sizes _ hv] at hstored
          exact_mod_cast hstored.trans hbounded
        have hsmall := hsize.resolve_right (not_lt.mpr hfits)
        obtain ⟨young, hitems, hlong⟩ := hacc.miss_items hh (h.capacity ▸ hsmall)
        rw [hitems]
        exact List.suffix_append_self_iff.mpr (hlong.1.trans hothers)
    | false =>
      have hh : hit = false := by
        rw [← Bool.not_eq_true]
        intro hhit
        rw [himp hhit] at hh'
        cases hh'
      rcases hsize with hfits | hlt
      · obtain ⟨young, hitems, hlong⟩ := hacc.miss_items hh (h.capacity ▸ hfits)
        obtain ⟨young', hitems', hlong'⟩ :=
          hacc'.miss_items hh' (h.capacity' ▸ hfits.trans hle)
        rw [hitems, hitems']
        refine List.suffix_append_self_iff.mpr (hlong.mono hlong' hothers fun hfit => ?_)
        rw [h.capacity] at hfit
        rw [h.capacity']
        omega
      · rw [hacc.skip_items hh (h.capacity ▸ lt_of_le_of_lt hle hlt),
          hacc'.skip_items hh' (h.capacity' ▸ hlt)]
        exact hothers
  exact ⟨hit, d, hit', d', hd, hd', himp, hsized, hsized', hacc.capacity.trans h.capacity,
    hacc'.capacity.trans h.capacity', (hacc.ttl.trans h.ttl).trans hacc'.ttl.symm, hyoung⟩

/-! ### Two replays -/

/-- The caches of two replays, node by node. -/
def Caches.Within (size : κ → ℕ) (small big : ℕ) (cs cs' : Caches κ τ) : Prop :=
  ∀ node, Study.Within size small big (cs node) (cs' node)

theorem Caches.Within.access (hle : small ≤ big) {cs cs' : Caches κ τ}
    (h : cs.Within size small big cs') (node : String) {key : κ}
    (hsize : size key ≤ small ∨ big < size key) (now : τ) :
    ∃ hit ds hit' ds', cs.access node key (size key) now = some (hit, ds) ∧
      cs'.access node key (size key) now = some (hit', ds') ∧ (hit → hit') ∧
      ds.Within size small big ds' := by
  obtain ⟨hit, d, hit', d', hd, hd', himp, hw⟩ := (h node).access hle hsize now
  refine ⟨hit, Function.update cs node d, hit', Function.update cs' node d', ?_, ?_, himp, ?_⟩
  · rw [Caches.access, hd, Option.map_some]
  · rw [Caches.access, hd', Option.map_some]
  · intro u
    by_cases hu : u = node
    · subst hu
      rw [Function.update_self, Function.update_self]
      exact hw
    · rw [Function.update_of_ne hu, Function.update_of_ne hu]
      exact h u

/-- The xorbs of a start: the bigger caches hit at least as many bytes. -/
theorem fetchXorbs_related (hle : small ≤ big) {size : String → ℕ} (node : String) (now : τ) :
    ∀ {xorbs : List (String × ℕ)} {cs cs' : Caches String τ} {n n' : ℕ},
    (∀ x ∈ xorbs, x.2 = size x.1 ∧ (x.2 ≤ small ∨ big < x.2)) → cs.Within size small big cs' →
    n ≤ n' → ∃ m ds m' ds', fetchXorbs node now xorbs cs n = some (m, ds) ∧
      fetchXorbs node now xorbs cs' n' = some (m', ds') ∧ m ≤ m' ∧ ds.Within size small big ds' := by
  intro xorbs
  induction xorbs with
  | nil =>
    intro cs cs' n n' _ hw hn
    exact ⟨n, cs, n', cs', rfl, rfl, hn, hw⟩
  | cons x xorbs ih =>
    intro cs cs' n n' hx hw hn
    obtain ⟨hash, bytes⟩ := x
    obtain ⟨hbytes, hfit⟩ := hx (hash, bytes) List.mem_cons_self
    have hbytes' : bytes = size hash := hbytes
    subst hbytes'
    obtain ⟨hit, ds, hit', ds', hd, hd', himp, hw'⟩ := hw.access hle node hfit now
    have hrest : ∀ x ∈ xorbs, x.2 = size x.1 ∧ (x.2 ≤ small ∨ big < x.2) :=
      fun x hm => hx x (List.mem_cons_of_mem _ hm)
    have hcount : (if hit then n + size hash else n) ≤ if hit' then n' + size hash else n' := by
      cases hit with
      | true =>
        rw [himp rfl]
        simpa using hn
      | false =>
        cases hit'
        · exact hn
        · exact hn.trans (Nat.le_add_right _ _)
    simp only [fetchXorbs, hd, hd']
    exact ih hrest hw' hcount

omit [Sub τ] [LT τ] [DecidableLT τ] in
/-- Replays whose steps keep two states related have related columns. -/
theorem replay_related {σ β : Type*} {step : σ → WorkerStart τ → Option (β × σ)}
    {R : σ → σ → Prop} {le : β → β → Prop} : ∀ {rows : List (WorkerStart τ)} {s s' : σ},
    (∀ row ∈ rows, ∀ {s s'}, R s s' → ∃ x t x' t', step s row = some (x, t) ∧
      step s' row = some (x', t') ∧ le x x' ∧ R t t') → R s s' →
    ∃ xs xs', replay step s rows = some xs ∧ replay step s' rows = some xs' ∧
      List.Forall₂ le xs xs' := by
  intro rows
  induction rows with
  | nil =>
    intro s s' _ _
    exact ⟨[], [], rfl, rfl, .nil⟩
  | cons row rows ih =>
    intro s s' hstep hR
    obtain ⟨x, t, x', t', hx, hx', hle, hR'⟩ := hstep row List.mem_cons_self hR
    obtain ⟨xs, xs', hxs, hxs', hall⟩ :=
      ih (fun r hr => hstep r (List.mem_cons_of_mem _ hr)) hR'
    refine ⟨x :: xs, x' :: xs', ?_, ?_, .cons hle hall⟩
    · simp only [replay, hx, hxs, Option.map_some]
    · simp only [replay, hx', hxs', Option.map_some]

/-- **A bigger simulated cache never hits less**, where no model (in tier 2: no xorb) fits the
bigger cache only.  Neither replay raises. -/
theorem bigger_never_hits_less (hle : small ≤ big) (events : List (WorkerStart τ)) (scope : Scope)
    (ttlSeconds : Option τ) :
    (∀ size : String × String → ℕ,
      (∀ row ∈ events, row.modelSizeBytes = size (row.repoId, row.revision) ∧
        (row.modelSizeBytes ≤ small ∨ big < row.modelSizeBytes)) →
      ∃ hits hits', simulate events scope small ttlSeconds = some hits ∧
        simulate events scope big ttlSeconds = some hits' ∧
        List.Forall₂ (fun hit hit' => hit = true → hit' = true) hits hits') ∧
    ∀ (xorbMap : String × String → List (String × ℕ)) (size : String → ℕ),
      (∀ row ∈ events, ∀ x ∈ xorbMap (row.repoId, row.revision),
        x.2 = size x.1 ∧ (x.2 ≤ small ∨ big < x.2)) →
      ∃ bytes bytes', simulateTier2 events xorbMap scope small ttlSeconds = some bytes ∧
        simulateTier2 events xorbMap scope big ttlSeconds = some bytes' ∧
        List.Forall₂ (· ≤ ·) bytes bytes' := by
  constructor
  · intro size hsize
    have hnew : Caches.Within size small big (fun _ => .new small ttlSeconds)
        (fun _ => .new big ttlSeconds) := fun _ => within_new size small big ttlSeconds
    refine replay_related (fun row hrow {cs cs'} hw => ?_) hnew
    obtain ⟨hmodel, hfit⟩ := hsize row hrow
    rw [hmodel] at hfit
    rw [simulateStep, simulateStep, hmodel]
    exact hw.access hle _ hfit row.ts
  · intro xorbMap size hsize
    have hnew : Caches.Within size small big (fun _ => .new small ttlSeconds)
        (fun _ => .new big ttlSeconds) := fun _ => within_new size small big ttlSeconds
    exact replay_related (fun row hrow {cs cs'} hw =>
      fetchXorbs_related hle _ row.ts (hsize row hrow) hw le_rfl) hnew

/-- The start of a worker that loads a model of a size. -/
def WorkerStart.loading (ts : ℕ) (repoId : String) (modelSizeBytes : ℕ) : WorkerStart ℕ :=
  ⟨ts, repoId, "main", "h", "g", "d", modelSizeBytes, none⟩

theorem bigger_never_hits_less_pair :
    ∃ hits hits', simulate [.loading 0 "a" 1, .loading 1 "a" 1] .host 1 none = some hits ∧
      simulate [.loading 0 "a" 1, .loading 1 "a" 1] .host 2 none = some hits' ∧
      List.Forall₂ (fun hit hit' => hit = true → hit' = true) hits hits' := by
  refine (bigger_never_hits_less (by omega) _ _ _).1 (fun _ => 1) ?_
  simp [WorkerStart.loading]

/-- A model that fits the bigger cache only pushes out one that the smaller cache keeps. -/
theorem bigger_cache_hits_less :
    simulate [.loading 0 "a" 1, .loading 1 "b" 2, .loading 2 "a" 1] .host 1 none =
        some [false, false, true] ∧
      simulate [.loading 0 "a" 1, .loading 1 "b" 2, .loading 2 "a" 1] .host 2 none =
        some [false, false, false] := by
  decide +kernel

end Study

end XetDcCache
