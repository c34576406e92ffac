/-
The cache of the placement study (placement_locality_sim.py).

`LruCache` is the simulator's cache: an ordered dictionary of sizes and times with a
running total beside it.  `none` is a Python exception.  The total is the sum of the
stored sizes as long as no `put` gives a key that is there another size:

* `makeRoom_spec` — the eviction loop leaves the longest young part that fits;
* `get_spec`, `put_spec` — what `get` and `put` leave, on a cache whose total is right;
* `accounting_sound_iff` — when the accounting is sound after every call.
-/
import XetDcCache.OrderedDict
import XetDcCache.Recency
import XetDcCache.Transition
import Mathlib.Algebra.BigOperators.Group.List.Basic
import Mathlib.Algebra.Order.BigOperators.Group.List
import Mathlib.Data.Int.Order.Basic
import Mathlib.Tactic.Linarith

namespace XetDcCache

namespace Study

open Recency Transition

variable {κ τ : Type*}

/-- A size-bounded LRU with an optional TTL; the entries are `(size, last_ts)`. -/
structure LruCache (κ τ : Type*) where
  capacityBytes : ℕ
  ttlSeconds : Option τ
  entries : OrderedDict κ (ℕ × τ)
  usedBytes : ℤ

/-- The sum of the sizes of some entries. -/
def stored (items : List (κ × ℕ × τ)) : ℤ := (items.map fun e => (e.2.1 : ℤ)).sum

namespace LruCache

def new (capacityBytes : ℕ) (ttlSeconds : Option τ) : LruCache κ τ :=
  ⟨capacityBytes, ttlSeconds, .empty, 0⟩

variable [DecidableEq κ]

/-- `_evict`; `pop` raises on a key that is not there. -/
def evict (c : LruCache κ τ) (key : κ) : Option (LruCache κ τ) :=
  match c.entries.get? key with
  | none => none
  | some (size, _) =>
    some { c with entries := c.entries.pop key, usedBytes := c.usedBytes - size }

/-- The loop of `put`; `next` raises on an empty cache.  Each turn removes an entry, so
as many turns as there are entries are enough. -/
def makeRoom (size : ℕ) : ℕ → LruCache κ τ → Option (LruCache κ τ)
  | 0, c => if c.capacityBytes < c.usedBytes + size then none else some c
  | turns + 1, c =>
    if c.capacityBytes < c.usedBytes + size then
      match c.entries.first? with
      | none => none
      | some key => (c.evict key).bind (makeRoom size turns)
    else some c

def put (c : LruCache κ τ) (key : κ) (size : ℕ) (now : τ) : Option (LruCache κ τ) :=
  if key ∈ c.entries.keys then
    some { c with entries := (c.entries.moveToEnd key).set key (size, now) }
  else if c.capacityBytes < size then some c
  else
    (c.makeRoom size c.entries.items.length).map fun c =>
      { c with entries := c.entries.set key (size, now), usedBytes := c.usedBytes + size }

variable [Sub τ] [LT τ] [DecidableLT τ]

/-- The entry of `last` has outlived the TTL. -/
def expired (c : LruCache κ τ) (now last : τ) : Bool :=
  match c.ttlSeconds with
  | none => false
  | some ttl => ttl < now - last

def get (c : LruCache κ τ) (key : κ) (now : τ) : Option (Bool × LruCache κ τ) :=
  match c.entries.get? key with
  | none => some (false, c)
  | some (_, last) =>
    if c.expired now last then (c.evict key).map (false, ·)
    else some (true, { c with entries := c.entries.moveToEnd key })

end LruCache

/-- A call of the simulator. -/
inductive Call (κ τ : Type*)
  | get (key : κ) (now : τ)
  | put (key : κ) (size : ℕ) (now : τ)

/-- Run a call. -/
def LruCache.call [DecidableEq κ] [Sub τ] [LT τ] [DecidableLT τ] (c : LruCache κ τ) :
    Call κ τ → Option (LruCache κ τ)
  | .get key now => (c.get key now).map Prod.snd
  | .put key size now => c.put key size now

/-! ### The running total -/

/-- The running total is the sum of the stored sizes, and within the capacity. -/
structure LruCache.Sound (c : LruCache κ τ) : Prop where
  total : c.usedBytes = stored c.entries.items
  bounded : c.usedBytes ≤ c.capacityBytes

theorem new_sound (capacityBytes : ℕ) (ttlSeconds : Option τ) :
    (LruCache.new capacityBytes ttlSeconds : LruCache κ τ).Sound :=
  ⟨rfl, Int.natCast_nonneg _⟩

theorem stored_append (xs ys : List (κ × ℕ × τ)) : stored (xs ++ ys) = stored xs + stored ys := by
  rw [stored, List.map_append, List.sum_append]
  rfl

theorem stored_cons (e : κ × ℕ × τ) (es : List (κ × ℕ × τ)) :
    stored (e :: es) = e.2.1 + stored es := by
  rw [stored, List.map_cons, List.sum_cons]
  rfl

theorem stored_nonneg (es : List (κ × ℕ × τ)) : 0 ≤ stored es := by
  refine List.sum_nonneg fun n hn => ?_
  obtain ⟨e, -, rfl⟩ := List.mem_map.mp hn
  exact Int.natCast_nonneg _

theorem stored_filter [DecidableEq κ] {d : OrderedDict κ (ℕ × τ)} {key : κ} {v : ℕ × τ}
    (h : (key, v) ∈ d.items) : stored (d.items.filter (·.1 ≠ key)) = stored d.items - v.1 := by
  have hperm : (d.items.filter (·.1 ≠ key) ++ [(key, v)]).Perm d.items := by
    rw [← OrderedDict.filter_eq_key h]
    simpa using List.filter_append_perm (fun e : κ × ℕ × τ => e.1 ≠ key) d.items
  have hsum := (hperm.map fun e => (e.2.1 : ℤ)).sum_eq
  rw [List.map_append, List.sum_append] at hsum
  have hall : stored (d.items.filter (·.1 ≠ key)) + v.1 = stored d.items := by
    simpa [stored] using hsum
  linarith

/-- An entry is no larger than all of them. -/
theorem le_stored {es : List (κ × ℕ × τ)} {e : κ × ℕ × τ} (h : e ∈ es) :
    (e.2.1 : ℤ) ≤ stored es := by
  obtain ⟨xs, ys, rfl⟩ := List.append_of_mem h
  rw [stored_append, stored_cons]
  have := stored_nonneg xs
  have := stored_nonneg ys
  linarith

section Operations

variable [DecidableEq κ] {c : LruCache κ τ} {key : κ}

theorem evict_spec {v : ℕ × τ} (h : (key, v) ∈ c.entries.items) :
    c.evict key = some { c with
      entries := c.entries.pop key
      usedBytes := c.usedBytes - v.1 } := by
  rw [LruCache.evict, OrderedDict.get?_eq_some.mpr h]

/-- The eviction loop ends, and leaves the longest young part that fits. -/
theorem makeRoom_spec {size : ℕ} : ∀ {turns : ℕ} {c : LruCache κ τ},
    c.usedBytes = stored c.entries.items → size ≤ c.capacityBytes →
    c.entries.items.length ≤ turns → ∃ d usedBytes,
      c.makeRoom size turns = some { c with entries := d, usedBytes := usedBytes } ∧
      usedBytes = stored d.items ∧
      LongestSuffix (fun es => stored es + size ≤ c.capacityBytes) c.entries.items d.items := by
  intro turns
  induction turns with
  | zero =>
    intro c htotal hsize hlen
    have hnil : c.entries.items = [] := List.length_eq_zero_iff.mp (Nat.le_zero.mp hlen)
    have hfits : stored c.entries.items + size ≤ c.capacityBytes := by
      rw [hnil]
      simpa [stored] using hsize
    refine ⟨c.entries, c.usedBytes, ?_, htotal, .refl hfits⟩
    rw [LruCache.makeRoom, if_neg (by rw [htotal]; exact not_lt.mpr hfits)]
  | succ turns ih =>
    intro c htotal hsize hlen
    rw [LruCache.makeRoom]
    by_cases hover : (c.capacityBytes : ℤ) < c.usedBytes + size
    · rw [if_pos hover]
      cases hitems : c.entries.items with
      | nil =>
        -- an empty cache has room for whatever is within the capacity
        rw [htotal, hitems] at hover
        have hzero : stored ([] : List (κ × ℕ × τ)) = 0 := rfl
        omega
      | cons e rest =>
        obtain ⟨k, v⟩ := e
        have hmem : (k, v) ∈ c.entries.items := hitems ▸ List.mem_cons_self
        have hfirst : c.entries.first? = some k := by rw [OrderedDict.first?, hitems]; rfl
        have hnd := c.entries.nodup
        rw [hitems, List.map_cons, List.nodup_cons] at hnd
        have hrest : (c.entries.pop k).items = rest := by
          rw [OrderedDict.pop_items, hitems, List.filter_cons_of_neg (by simp)]
          refine List.filter_eq_self.mpr fun x hx => ?_
          have hne : x.1 ≠ k := fun h => hnd.1 (h ▸ List.mem_map.mpr ⟨x, hx, rfl⟩)
          simpa using hne
        have hstored : c.usedBytes - v.1 = stored rest := by
          have hcons : stored ((k, v) :: rest) = v.1 + stored rest := stored_cons _ _
          rw [htotal, hitems, hcons]
          omega
        obtain ⟨d, usedBytes, hloop, hused, hlong⟩ := @ih
          { c with entries := c.entries.pop k, usedBytes := c.usedBytes - v.1 }
          (by rw [hstored, hrest]) hsize (by rw [hrest]; rw [hitems] at hlen; simpa using hlen)
        rw [hrest] at hlong
        refine ⟨d, usedBytes, ?_, hused, hlong.cons ?_⟩
        · simp only [hfirst, evict_spec hmem, Option.bind_some, hloop]
        · rw [← hitems, ← htotal]
          exact not_le.mpr hover
    · rw [if_neg hover]
      exact ⟨c.entries, c.usedBytes, rfl, htotal, .refl (htotal ▸ not_lt.mp hover)⟩

theorem put_present (hk : key ∈ c.entries.keys) (size : ℕ) (now : τ) :
    c.put key size now =
      some { c with entries := (c.entries.moveToEnd key).set key (size, now) } := by
  rw [LruCache.put, if_pos hk]

theorem put_oversized (hk : key ∉ c.entries.keys) {size : ℕ} (hsize : c.capacityBytes < size)
    (now : τ) : c.put key size now = some c := by
  rw [LruCache.put, if_neg hk, if_pos hsize]

/-- A key that is not there and can fit is stored behind the longest young part of the
others that leaves it room. -/
theorem put_absent (htotal : c.usedBytes = stored c.entries.items) (hk : key ∉ c.entries.keys)
    {size : ℕ} (hsize : size ≤ c.capacityBytes) (now : τ) : ∃ c' young,
    c.put key size now = some c' ∧ c'.capacityBytes = c.capacityBytes ∧
      c'.ttlSeconds = c.ttlSeconds ∧ c'.usedBytes = stored c'.entries.items ∧
      c'.entries.items = young ++ [(key, size, now)] ∧
      LongestSuffix (fun es => stored es + size ≤ c.capacityBytes) c.entries.items young := by
  obtain ⟨d, usedBytes, hroom, hused, hlong⟩ := makeRoom_spec htotal hsize le_rfl
  have hd : key ∉ d.keys := fun hmem => hk ((hlong.1.sublist.map Prod.fst).subset hmem)
  have hset := OrderedDict.set_items_new hd (size, now)
  refine ⟨{ c with entries := d.set key (size, now), usedBytes := usedBytes + size }, d.items, ?_,
    rfl, rfl, ?_, hset, hlong⟩
  · rw [LruCache.put, if_neg hk, if_neg (not_lt.mpr hsize), hroom]
    rfl
  · show usedBytes + size = stored (d.set key (size, now)).items
    rw [hset, stored_append, hused]
    simp [stored]

end Operations

/-! ### When the accounting is sound -/

/-- A `put` of a key that is there gives it the size it has. -/
def LruCache.KeepsSize [DecidableEq κ] (c : LruCache κ τ) : Call κ τ → Prop
  | .get _ _ => True
  | .put key size _ => ∀ v ∈ c.entries.get? key, v.1 = size

section Accounting

variable [DecidableEq κ] {c : LruCache κ τ} {key : κ}

/-- `put` never raises on a sound cache. -/
theorem LruCache.Sound.put (h : c.Sound) (key : κ) (size : ℕ) (now : τ) :
    ∃ c', c.put key size now = some c' ∧
      (c'.Sound ↔ ∀ v ∈ c.entries.get? key, v.1 = size) := by
  by_cases hk : key ∈ c.entries.keys
  · obtain ⟨v, hv⟩ := OrderedDict.mem_keys.mp hk
    refine ⟨_, put_present hk size now, ?_⟩
    have hsum : stored ((c.entries.moveToEnd key).set key (size, now)).items =
        c.usedBytes - v.1 + size := by
      rw [OrderedDict.moveToEnd_set_items hk, stored_append, stored_filter hv, h.total]
      simp [stored]
    rw [OrderedDict.get?_eq_some.mpr hv]
    constructor
    · rintro ⟨htotal, -⟩ w hw
      rw [Option.mem_some_iff] at hw
      subst hw
      have htotal' : c.usedBytes = c.usedBytes - v.1 + size := htotal.trans hsum
      omega
    · intro hsize
      refine ⟨?_, h.bounded⟩
      show c.usedBytes = stored ((c.entries.moveToEnd key).set key (size, now)).items
      rw [hsum, hsize v rfl]
      omega
  · have hnone := OrderedDict.get?_eq_none.mpr hk
    rcases Nat.lt_or_ge c.capacityBytes size with hsize | hsize
    · exact ⟨c, put_oversized hk hsize now, by simp [hnone, h]⟩
    · obtain ⟨c', young, hput, hcap, -, hused, hitems, hlong⟩ := put_absent h.total hk hsize now
      refine ⟨c', hput, ?_⟩
      have hsound : c'.Sound := by
        refine ⟨hused, ?_⟩
        rw [hused, hitems, stored_append, hcap]
        simpa [stored] using hlong.2.1
      simp [hnone, hsound]

variable [Sub τ] [LT τ] [DecidableLT τ]

/-- `get` never raises, and keeps the accounting sound. -/
theorem LruCache.Sound.get (h : c.Sound) (key : κ) (now : τ) :
    ∃ hit c', c.get key now = some (hit, c') ∧ c'.Sound := by
  rw [LruCache.get]
  cases hg : c.entries.get? key with
  | none => exact ⟨false, c, rfl, h⟩
  | some v =>
    obtain ⟨size, last⟩ := v
    have hmem := OrderedDict.get?_eq_some.mp hg
    by_cases hexp : c.expired now last
    · refine ⟨false, { c with
        entries := c.entries.pop key
        usedBytes := c.usedBytes - size }, by simp [hexp, evict_spec hmem], ?_, ?_⟩
      · show c.usedBytes - size = stored (c.entries.items.filter (·.1 ≠ key))
        rw [stored_filter hmem, h.total]
      · have := h.bounded
        show c.usedBytes - size ≤ c.capacityBytes
        omega
    · refine ⟨true, { c with entries := c.entries.moveToEnd key }, by simp [hexp], ?_, h.bounded⟩
      have hmove := stored_filter hmem
      show c.usedBytes = stored (c.entries.moveToEnd key).items
      rw [OrderedDict.moveToEnd_items hmem, stored_append, hmove, h.total]
      simp [stored]

/-- A call on a sound cache does not raise, and leaves it sound exactly if it keeps the size
of the key. -/
theorem LruCache.Sound.call (h : c.Sound) (a : Call κ τ) :
    ∃ c', c.call a = some c' ∧ (c'.Sound ↔ c.KeepsSize a) := by
  cases a with
  | get key now =>
    obtain ⟨hit, c', hget, hsound⟩ := h.get key now
    exact ⟨c', by rw [LruCache.call, hget]; rfl, by simp [hsound, LruCache.KeepsSize]⟩
  | put key size now => exact h.put key size now

/-- **The simulator's accounting** is sound after every call, and no call raises, exactly if
no `put` gives a key that is there a size other than the one it has. -/
theorem accounting_sound_iff (capacityBytes : ℕ) (ttlSeconds : Option τ) (calls : List (Call κ τ)) :
    (∀ pre, pre <+: calls → ∃ c,
      exec LruCache.call (LruCache.new capacityBytes ttlSeconds) pre = some c ∧ c.Sound) ↔
    Along LruCache.call LruCache.KeepsSize (LruCache.new capacityBytes ttlSeconds) calls := by
  refine prefixes_iff_along id ?_ (new_sound capacityBytes ttlSeconds)
  intro c a hc
  obtain ⟨c', hcall, hiff⟩ := hc.call a
  exact ⟨c', hcall, hiff.mpr, hiff.mp⟩

/-- A key whose size drops to 0 leaves its old size in the total, and the next `put` evicts
all there is and raises. -/
theorem resized_key_raises :
    exec LruCache.call (LruCache.new 1 none : LruCache ℕ ℕ)
      [.put 0 1 0, .put 0 0 1, .put 1 1 2] = none := by
  decide

end Accounting

end Study

end XetDcCache
