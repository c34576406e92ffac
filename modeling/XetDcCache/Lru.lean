/-
The LRU accountant (lru.go).

`Raw` is the `lruCache` struct with its two representations of the same keys:
`order` is the `container/list` (front = LRU, back = MRU), each element a heap
cell with its own address, and `items` maps a key to the address of its
element.  `Raw.Wf` is the representation invariant; every operation keeps it,
so `LruCache` bundles the two.  Over `entries`, the `(key, size)` pairs in order, each
operation has one equation (`touch_entries`, `recordEntry_entries`, ...), and
`evictLocked_spec` is the loop of `evictLocked`: it deletes a prefix, one entry a
turn, each while a limit is exceeded, and stops as soon as none is.

Sizes and the running total are `int64`, as in the source.
-/
import Mathlib
import XetDcCache.Recency

namespace XetDcCache

variable {κ : Type*}

/-- A `list.Element` at address `addr` that holds an `lruEntry`. -/
structure LruElem (κ : Type*) where
  addr : ℕ
  key : κ
  size : Int64
deriving DecidableEq, Repr

/-- An `lruSeed`: a file found at boot. -/
structure LruSeed (κ : Type*) where
  key : κ
  size : Int64
  mtime : ℤ

namespace Lru

/-- The fields of `lruCache`; `next` is the next free element address. -/
structure Raw (κ : Type*) where
  max : Int64
  minFree : Int64
  order : List (LruElem κ)
  items : AList fun _ : κ => ℕ
  total : Int64
  next : ℕ

/-- The `(key, size)` pairs, least recently used first. -/
def Raw.entries (c : Raw κ) : List (κ × Int64) := c.order.map fun e => (e.key, e.size)

/-- The keys, least recently used first. -/
def Raw.keys (c : Raw κ) : List κ := c.order.map LruElem.key

/-- Which element a key has. -/
def cells (l : List (LruElem κ)) : List (κ × ℕ) := l.map fun e => (e.key, e.addr)

/-- The sum of sizes, as an integer. -/
def bytes (es : List (κ × Int64)) : ℤ := (es.map fun e => e.2.toInt).sum

/-- An `int64` holds a sum below `2^63` exactly. -/
theorem ofInt_toInt_of_lt {n : ℤ} (h0 : 0 ≤ n) (h : n < 2 ^ 63) : (Int64.ofInt n).toInt = n := by
  rw [Int64.toInt_ofInt]
  refine Int.bmod_eq_of_le ?_ ?_ <;> simp only [Int64.size] <;> omega

/-! ### The elements of `order` -/

/-- `list.MoveToBack`. -/
def moveToBack (l : List (LruElem κ)) (a : ℕ) : List (LruElem κ) :=
  match l.find? (·.addr = a) with
  | none => l
  | some e => l.filter (·.addr ≠ a) ++ [e]

/-- The size stored in the element at `a`. -/
def sizeAt (l : List (LruElem κ)) (a : ℕ) : Int64 :=
  match l.find? (·.addr = a) with
  | none => 0
  | some e => e.size

/-- Overwrite the size of the element at `a`. -/
def setSize (l : List (LruElem κ)) (a : ℕ) (size : Int64) : List (LruElem κ) :=
  l.map fun e => if e.addr = a then { e with size := size } else e

theorem bytes_append (es fs : List (κ × Int64)) : bytes (es ++ fs) = bytes es + bytes fs := by
  simp [bytes]

theorem bytes_perm {es fs : List (κ × Int64)} (h : es.Perm fs) : bytes es = bytes fs :=
  (h.map _).sum_eq

theorem mem_cells {l : List (LruElem κ)} {k : κ} {a : ℕ} :
    (k, a) ∈ cells l ↔ ∃ e ∈ l, e.key = k ∧ e.addr = a := by
  simp [cells]

theorem eq_of_addr {l : List (LruElem κ)} (h : (l.map LruElem.addr).Nodup)
    {e f : LruElem κ} (he : e ∈ l) (hf : f ∈ l) (ha : e.addr = f.addr) : e = f :=
  List.inj_on_of_nodup_map h he hf ha

theorem find_addr {l : List (LruElem κ)} (h : (l.map LruElem.addr).Nodup)
    {e : LruElem κ} (he : e ∈ l) : l.find? (·.addr = e.addr) = some e := by
  cases hf : l.find? (·.addr = e.addr) with
  | none =>
    have := List.find?_eq_none.mp hf e he
    simp at this
  | some f =>
    have hmem := List.mem_of_find?_eq_some hf
    have haddr := List.find?_some hf
    rw [eq_of_addr h hmem he (by simpa using haddr)]

/-- The addresses are distinct, so one element has each address. -/
theorem filter_addr {l : List (LruElem κ)} (h : (l.map LruElem.addr).Nodup)
    {e : LruElem κ} (he : e ∈ l) : l.filter (·.addr = e.addr) = [e] := by
  induction l with
  | nil => cases he
  | cons f l ih =>
    obtain ⟨hf, hl⟩ := List.nodup_cons.mp h
    rcases List.mem_cons.mp he with rfl | he
    · rw [List.filter_cons_of_pos (by simp), List.filter_eq_nil_iff.mpr]
      intro x hx hxe
      exact hf (List.mem_map.mpr ⟨x, hx, by simpa using hxe⟩)
    · have hne : f.addr ≠ e.addr := fun hfe => hf (List.mem_map.mpr ⟨e, he, hfe.symm⟩)
      rw [List.filter_cons_of_neg (by simpa using hne), ih hl he]

theorem moveToBack_eq {l : List (LruElem κ)} (h : (l.map LruElem.addr).Nodup)
    {e : LruElem κ} (he : e ∈ l) :
    moveToBack l e.addr = l.filter (·.addr ≠ e.addr) ++ l.filter (·.addr = e.addr) := by
  rw [moveToBack, find_addr h he, filter_addr h he]

theorem moveToBack_perm {l : List (LruElem κ)} (h : (l.map LruElem.addr).Nodup)
    {e : LruElem κ} (he : e ∈ l) : (moveToBack l e.addr).Perm l := by
  rw [moveToBack_eq h he]
  have hp := List.filter_append_perm (fun x : LruElem κ => decide (x.addr ≠ e.addr)) l
  have hcongr : l.filter (fun x => !decide (x.addr ≠ e.addr)) = l.filter (·.addr = e.addr) :=
    List.filter_congr fun x _ => by simp
  rwa [hcongr] at hp

@[simp] theorem setSize_cells (l : List (LruElem κ)) (a : ℕ) (size : Int64) :
    cells (setSize l a size) = cells l := by
  rw [cells, cells, setSize, List.map_map]
  refine List.map_congr_left fun e _ => ?_
  by_cases h : e.addr = a <;> simp [h]

@[simp] theorem setSize_addrs (l : List (LruElem κ)) (a : ℕ) (size : Int64) :
    (setSize l a size).map LruElem.addr = l.map LruElem.addr := by
  rw [setSize, List.map_map]
  refine List.map_congr_left fun e _ => ?_
  by_cases h : e.addr = a <;> simp [h]

theorem setSize_bytes {l : List (LruElem κ)} (h : (l.map LruElem.addr).Nodup)
    {e : LruElem κ} (he : e ∈ l) (size : Int64) :
    bytes ((setSize l e.addr size).map fun e => (e.key, e.size)) =
      bytes (l.map fun e => (e.key, e.size)) - e.size.toInt + size.toInt := by
  induction l with
  | nil => cases he
  | cons f l ih =>
    obtain ⟨hf, hl⟩ := List.nodup_cons.mp h
    rcases List.mem_cons.mp he with rfl | he
    · have hrest : setSize l e.addr size = l := by
        rw [setSize]
        refine (List.map_congr_left fun x hx => ?_).trans (List.map_id l)
        have hne : x.addr ≠ e.addr := fun hxe => hf (List.mem_map.mpr ⟨x, hx, hxe⟩)
        simp [hne]
      have hcons :
          setSize (e :: l) e.addr size = { e with size := size } :: setSize l e.addr size := by
        simp [setSize]
      rw [hcons, hrest]
      simp only [bytes, List.map_cons, List.sum_cons]
      omega
    · have hne : f.addr ≠ e.addr := fun hfe => hf (List.mem_map.mpr ⟨e, he, hfe.symm⟩)
      have hcons : setSize (f :: l) e.addr size = f :: setSize l e.addr size := by
        simp [setSize, hne]
      have := ih hl he
      rw [hcons]
      simp only [bytes, List.map_cons, List.sum_cons] at this ⊢
      omega

theorem sizeAt_eq {l : List (LruElem κ)} (h : (l.map LruElem.addr).Nodup)
    {e : LruElem κ} (he : e ∈ l) : sizeAt l e.addr = e.size := by
  rw [sizeAt, find_addr h he]

theorem keys_eq_map (c : Raw κ) : c.keys = c.entries.map Prod.fst := by
  simp [Raw.keys, Raw.entries]

variable [DecidableEq κ]

theorem filter_ne_of_notMem {es : List (κ × Int64)} {k : κ} (h : k ∉ es.map Prod.fst) :
    es.filter (·.1 ≠ k) = es := by
  refine List.filter_eq_self.mpr fun e he => ?_
  have hne : e.1 ≠ k := fun hk => h (List.mem_map.mpr ⟨e, he, hk⟩)
  simpa using hne

theorem filter_eq_of_notMem {es : List (κ × Int64)} {k : κ} (h : k ∉ es.map Prod.fst) :
    es.filter (·.1 = k) = [] := by
  refine List.filter_eq_nil_iff.mpr fun e he hek => ?_
  exact h (List.mem_map.mpr ⟨e, he, by simpa using hek⟩)

/-! ### Operations -/

/-- `newLRU`. -/
def newRaw (max minFree : Int64) : Raw κ :=
  { max := max, minFree := minFree, order := [], items := ∅, total := 0, next := 0 }

/-- `items[key] = order.PushBack(...)`. -/
def Raw.pushBack (c : Raw κ) (key : κ) (size : Int64) : Raw κ :=
  { c with
    order := c.order ++ [⟨c.next, key, size⟩]
    items := c.items.insert key c.next
    next := c.next + 1 }

def Raw.touch (c : Raw κ) (key : κ) : Raw κ :=
  match c.items.lookup key with
  | none => c
  | some el => { c with order := moveToBack c.order el }

/-- `Record` up to its call of `evictLocked`. -/
def Raw.recordEntry (c : Raw κ) (key : κ) (size : Int64) : Raw κ :=
  let c' :=
    match c.items.lookup key with
    | none => c.pushBack key size
    | some el =>
      { c with
        total := c.total - sizeAt c.order el
        order := moveToBack (setSize c.order el size) el }
  { c' with total := c'.total + size }

def Raw.forget (c : Raw κ) (key : κ) : Raw κ :=
  match c.items.lookup key with
  | none => c
  | some el =>
    { c with
      total := c.total - sizeAt c.order el
      order := c.order.filter (·.addr ≠ el)
      items := c.items.erase key }

/-- `Load` up to its call of `evictLocked`, on the sorted seeds. -/
def Raw.loadSorted (c : Raw κ) : List (LruSeed κ) → Raw κ
  | [] => c
  | e :: es =>
    if (c.items.lookup e.key).isSome then c.loadSorted es
    else
      let c' := c.pushBack e.key e.size
      { c' with total := c'.total + e.size }.loadSorted es

/-- The disk-free watermark is breached; `free` is the answer of `freeFn`, `none`
when `freeFn` is nil. -/
def belowFloor (minFree : Int64) : Option Int64 → Bool
  | none => false
  | some f => 0 < minFree && f < minFree

/-- `overLimitLocked` for a total. -/
def overLimit (max minFree total : Int64) (free : Option Int64) : Bool :=
  (0 < max && max < total) || belowFloor minFree free

/-- The body of the loop in `evictLocked`, up to the delete callback. -/
def Raw.popFront (c : Raw κ) : Option (κ × Raw κ) :=
  match c.order with
  | [] => none
  | e :: rest =>
    some (e.key,
      { c with total := c.total - e.size, order := rest, items := c.items.erase e.key })

/-- The loop of `evictLocked`; `free i` is what `freeFn` answers after `i`
deletions.  Returns the deleted keys. -/
def Raw.evictLoop (free : Option (ℕ → Int64)) : ℕ → ℕ → Raw κ → List κ × Raw κ
  | 0, _, c => ([], c)
  | fuel + 1, i, c =>
    match c.popFront with
    | none => ([], c)
    | some (k, c') =>
      if overLimit c.max c.minFree c.total (free.map (· i)) then
        let r := evictLoop free fuel (i + 1) c'
        (k :: r.1, r.2)
      else ([], c)

/-- `evictLocked`: a turn of the loop removes an entry, so the number of entries
bounds it. -/
def Raw.evictLocked (c : Raw κ) (free : Option (ℕ → Int64)) : List κ × Raw κ :=
  c.evictLoop free c.order.length 0

def Raw.record (c : Raw κ) (key : κ) (size : Int64) (free : Option (ℕ → Int64)) :
    List κ × Raw κ :=
  (c.recordEntry key size).evictLocked free

/-- What `sort.Slice` by modification time may do: it sorts, in no particular
order among equal times. -/
def SortSlice (κ : Type*) : Type _ :=
  { f : List (LruSeed κ) → List (LruSeed κ) //
    ∀ l, (f l).Perm l ∧ (f l).Pairwise fun a b => a.mtime ≤ b.mtime }

/-- A stable sort is one. -/
def stableSort : SortSlice κ :=
  ⟨fun l => l.insertionSort fun a b => a.mtime ≤ b.mtime, fun l =>
    have : Std.Total fun a b : LruSeed κ => a.mtime ≤ b.mtime := ⟨fun _ _ => le_total _ _⟩
    have : IsTrans (LruSeed κ) fun a b => a.mtime ≤ b.mtime := ⟨fun _ _ _ => le_trans⟩
    ⟨List.perm_insertionSort _ l, List.pairwise_insertionSort _ l⟩⟩

def Raw.load (c : Raw κ) (sort : SortSlice κ) (seeds : List (LruSeed κ))
    (free : Option (ℕ → Int64)) : List κ × Raw κ :=
  (c.loadSorted (sort.1 seeds)).evictLocked free

/-! ### The representation invariant -/

/-- The representation invariant: `items` points at exactly the elements of
`order`, the addresses are distinct, and `total` is the `int64` sum. -/
structure Raw.Wf (c : Raw κ) : Prop where
  addrs : (c.order.map LruElem.addr).Nodup
  fresh : ∀ e ∈ c.order, e.addr < c.next
  items : ∀ k a, c.items.lookup k = some a ↔ (k, a) ∈ cells c.order
  total : c.total = Int64.ofInt (bytes c.entries)

theorem Raw.Wf.cell {c : Raw κ} (h : c.Wf) {k : κ} {a : ℕ} (hl : c.items.lookup k = some a) :
    ∃ e ∈ c.order, e.key = k ∧ e.addr = a := mem_cells.mp ((h.items k a).mp hl)

theorem Raw.Wf.lookup {c : Raw κ} (h : c.Wf) {e : LruElem κ} (he : e ∈ c.order) :
    c.items.lookup e.key = some e.addr :=
  (h.items _ _).mpr (mem_cells.mpr ⟨e, he, rfl, rfl⟩)

/-- Within `order`, a key and an address identify the same element. -/
theorem Raw.Wf.addr_eq_iff {c : Raw κ} (h : c.Wf) {e f : LruElem κ} (he : e ∈ c.order)
    (hf : f ∈ c.order) : e.addr = f.addr ↔ e.key = f.key := by
  constructor
  · intro ha
    rw [eq_of_addr h.addrs he hf ha]
  · intro hk
    have h1 := h.lookup he
    rw [hk, h.lookup hf] at h1
    exact (Option.some_inj.mp h1).symm

theorem Raw.Wf.keys_nodup {c : Raw κ} (h : c.Wf) : c.keys.Nodup := by
  rw [Raw.keys]
  refine List.Nodup.map_on (fun e he f hf hk => ?_) (List.Nodup.of_map _ h.addrs)
  exact eq_of_addr h.addrs he hf ((h.addr_eq_iff he hf).mpr hk)

theorem Raw.Wf.mem_items {c : Raw κ} (h : c.Wf) (k : κ) : k ∈ c.items ↔ k ∈ c.keys := by
  rw [← AList.lookup_isSome, Option.isSome_iff_exists, Raw.keys, List.mem_map]
  constructor
  · rintro ⟨a, ha⟩
    obtain ⟨e, he, hk, -⟩ := h.cell ha
    exact ⟨e, he, hk⟩
  · rintro ⟨e, he, rfl⟩
    exact ⟨_, h.lookup he⟩

theorem Raw.Wf.lookup_none {c : Raw κ} (h : c.Wf) (k : κ) :
    c.items.lookup k = none ↔ k ∉ c.keys := by
  rw [AList.lookup_eq_none, h.mem_items]

/-- `order` may be permuted. -/
theorem Raw.Wf.perm {c : Raw κ} (h : c.Wf) {l : List (LruElem κ)} (hp : l.Perm c.order) :
    ({ c with order := l } : Raw κ).Wf where
  addrs := (hp.map _).nodup_iff.mpr h.addrs
  fresh e he := h.fresh e (hp.mem_iff.mp he)
  items k a := by rw [h.items, mem_cells, mem_cells]; simp only [hp.mem_iff]
  total := h.total.trans (congrArg Int64.ofInt (bytes_perm (hp.map _).symm))

/-- The elements with another key are those at another address. -/
theorem Raw.Wf.filter_entries {c : Raw κ} (h : c.Wf) {e : LruElem κ} (he : e ∈ c.order) :
    (c.order.filter (·.addr ≠ e.addr)).map (fun e => (e.key, e.size)) =
      c.entries.filter (·.1 ≠ e.key) := by
  rw [Raw.entries, List.filter_map]
  congr 1
  refine List.filter_congr fun f hf => ?_
  simp only [Function.comp, ne_eq, decide_not, h.addr_eq_iff hf he]

theorem newRaw_wf (max minFree : Int64) : (newRaw max minFree : Raw κ).Wf where
  addrs := List.nodup_nil
  fresh := by simp [newRaw]
  items := by simp [newRaw, cells]
  total := by simp [newRaw, Raw.entries, bytes]

/-! ### One equation for each operation -/

theorem touch_wf {c : Raw κ} (h : c.Wf) (k : κ) : (c.touch k).Wf := by
  rw [Raw.touch]
  cases hl : c.items.lookup k with
  | none => exact h
  | some el =>
    obtain ⟨e, he, rfl, rfl⟩ := h.cell hl
    exact h.perm (moveToBack_perm h.addrs he)

/-- `Touch` moves a held key to the recent end. -/
theorem touch_entries {c : Raw κ} (h : c.Wf) (k : κ) :
    (c.touch k).entries = c.entries.filter (·.1 ≠ k) ++ c.entries.filter (·.1 = k) := by
  rw [Raw.touch]
  cases hl : c.items.lookup k with
  | none =>
    have hk := (h.lookup_none k).mp hl
    rw [keys_eq_map] at hk
    rw [filter_ne_of_notMem hk, filter_eq_of_notMem hk, List.append_nil]
  | some el =>
    obtain ⟨e, he, rfl, rfl⟩ := h.cell hl
    show (moveToBack c.order e.addr).map _ = _
    rw [moveToBack_eq h.addrs he, List.map_append, h.filter_entries he]
    congr 1
    rw [Raw.entries, List.filter_map]
    congr 1
    refine List.filter_congr fun f hf => ?_
    simp only [Function.comp, h.addr_eq_iff hf he]

/-- Pushing a key that is not held, its size counted. -/
theorem pushBack_wf {c : Raw κ} (h : c.Wf) {k : κ} (hk : k ∉ c.keys) (size : Int64) :
    ({ c.pushBack k size with total := c.total + size } : Raw κ).Wf where
  addrs := by
    show ((c.order ++ [(⟨c.next, k, size⟩ : LruElem κ)]).map LruElem.addr).Nodup
    rw [List.map_append, List.map_singleton]
    refine List.nodup_append.mpr ⟨h.addrs, List.nodup_singleton _, ?_⟩
    intro a ha b hb hab
    obtain ⟨e, he, rfl⟩ := List.mem_map.mp ha
    rw [List.mem_singleton.mp hb] at hab
    have hlt := h.fresh e he
    rw [hab] at hlt
    exact lt_irrefl _ hlt
  fresh e he := by
    show e.addr < c.next + 1
    rcases List.mem_append.mp he with he | he
    · exact Nat.lt_succ_of_lt (h.fresh e he)
    · rw [List.mem_singleton.mp he]
      exact Nat.lt_succ_self _
  items k' a := by
    show (c.items.insert k c.next).lookup k' = some a ↔
      (k', a) ∈ cells (c.order ++ [⟨c.next, k, size⟩])
    have hsplit : (k', a) ∈ cells (c.order ++ [⟨c.next, k, size⟩]) ↔
        (k', a) ∈ cells c.order ∨ (k' = k ∧ a = c.next) := by
      simp [cells]
    rw [hsplit]
    by_cases hkk : k' = k
    · subst hkk
      rw [AList.lookup_insert, Option.some_inj]
      constructor
      · rintro rfl
        exact Or.inr ⟨rfl, rfl⟩
      · rintro (hc | ⟨-, rfl⟩)
        · obtain ⟨e, he, hek, -⟩ := mem_cells.mp hc
          exact absurd (List.mem_map.mpr ⟨e, he, hek⟩) hk
        · rfl
    · rw [AList.lookup_insert_ne hkk, h.items]
      simp [hkk]
  total := by
    show c.total + size = Int64.ofInt (bytes ((c.order ++ [(⟨c.next, k, size⟩ : LruElem κ)]).map _))
    rw [List.map_append, bytes_append, Int64.ofInt_add, h.total]
    simp [bytes, Raw.entries]

theorem pushBack_entries (c : Raw κ) (k : κ) (size : Int64) :
    (c.pushBack k size).entries = c.entries ++ [(k, size)] := by
  simp [Raw.pushBack, Raw.entries]

/-- Overwriting a held size, the total adjusted. -/
theorem setSize_wf {c : Raw κ} (h : c.Wf) {e : LruElem κ} (he : e ∈ c.order) (size : Int64) :
    ({ c with
        total := c.total - sizeAt c.order e.addr + size
        order := setSize c.order e.addr size } : Raw κ).Wf where
  addrs := by rw [setSize_addrs]; exact h.addrs
  fresh f hf := by
    obtain ⟨g, hg, hgf⟩ := List.mem_map.mp hf
    have haddr : f.addr = g.addr := by
      rw [← hgf]
      by_cases ha : g.addr = e.addr <;> simp [ha]
    rw [haddr]
    exact h.fresh g hg
  items k a := by rw [h.items, setSize_cells]
  total := by
    show c.total - sizeAt c.order e.addr + size = Int64.ofInt (bytes ((setSize _ _ _).map _))
    rw [setSize_bytes h.addrs he, sizeAt_eq h.addrs he, Int64.ofInt_add, Int64.ofInt_sub, h.total,
      Int64.ofInt_toInt, Int64.ofInt_toInt]
    rfl

theorem recordEntry_wf {c : Raw κ} (h : c.Wf) (k : κ) (size : Int64) :
    (c.recordEntry k size).Wf := by
  rw [Raw.recordEntry]
  cases hl : c.items.lookup k with
  | none => exact pushBack_wf h ((h.lookup_none k).mp hl) size
  | some el =>
    obtain ⟨e, he, rfl, rfl⟩ := h.cell hl
    refine (setSize_wf h he size).perm ?_
    have hmem : { e with size := size } ∈ setSize c.order e.addr size :=
      List.mem_map.mpr ⟨e, he, by simp⟩
    exact moveToBack_perm (e := { e with size := size }) (by rw [setSize_addrs]; exact h.addrs) hmem

/-- `Record` leaves the key at the recent end with its new size. -/
theorem recordEntry_entries {c : Raw κ} (h : c.Wf) (k : κ) (size : Int64) :
    (c.recordEntry k size).entries = c.entries.filter (·.1 ≠ k) ++ [(k, size)] := by
  rw [Raw.recordEntry]
  cases hl : c.items.lookup k with
  | none =>
    have hk := (h.lookup_none k).mp hl
    rw [keys_eq_map] at hk
    rw [filter_ne_of_notMem hk]
    exact pushBack_entries c k size
  | some el =>
    obtain ⟨e, he, rfl, rfl⟩ := h.cell hl
    have haddrs : ((setSize c.order e.addr size).map LruElem.addr).Nodup := by
      rw [setSize_addrs]
      exact h.addrs
    have hmem : { e with size := size } ∈ setSize c.order e.addr size :=
      List.mem_map.mpr ⟨e, he, by simp⟩
    show (moveToBack (setSize c.order e.addr size) e.addr).map _ = _
    have hmove := moveToBack_eq haddrs hmem
    simp only at hmove
    rw [hmove, List.map_append, ← h.filter_entries he]
    have hone := filter_addr haddrs hmem
    simp only at hone
    rw [hone]
    congr 1
    rw [setSize, List.filter_map, List.map_map]
    have hcongr : c.order.filter ((fun x => decide (x.addr ≠ e.addr)) ∘
        fun f => if f.addr = e.addr then { f with size := size } else f) =
        c.order.filter (·.addr ≠ e.addr) := by
      refine List.filter_congr fun f _ => ?_
      by_cases hf : f.addr = e.addr <;> simp [hf]
    rw [hcongr]
    refine List.map_congr_left fun f hf => ?_
    have hne : f.addr ≠ e.addr := by simpa using (List.mem_filter.mp hf).2
    simp [hne]

/-- Removing the element of a held key, the total adjusted. -/
theorem erase_wf {c : Raw κ} (h : c.Wf) {e : LruElem κ} (he : e ∈ c.order) :
    ({ c with
        total := c.total - e.size
        order := c.order.filter (·.addr ≠ e.addr)
        items := c.items.erase e.key } : Raw κ).Wf where
  addrs := (List.filter_sublist.map _).nodup h.addrs
  fresh f hf := h.fresh f (List.mem_of_mem_filter hf)
  items k a := by
    show (c.items.erase e.key).lookup k = some a ↔ (k, a) ∈ cells (c.order.filter (·.addr ≠ e.addr))
    by_cases hk : k = e.key
    · subst hk
      rw [AList.lookup_erase]
      refine iff_of_false (by simp) fun hc => ?_
      obtain ⟨f, hf, hfk, -⟩ := mem_cells.mp hc
      obtain ⟨hfo, hfa⟩ := List.mem_filter.mp hf
      exact (by simpa using hfa : f.addr ≠ e.addr) ((h.addr_eq_iff hfo he).mpr hfk)
    · rw [AList.lookup_erase_ne hk, h.items, mem_cells, mem_cells]
      constructor
      · rintro ⟨f, hf, rfl, rfl⟩
        have hne : f.addr ≠ e.addr := fun ha => hk ((h.addr_eq_iff hf he).mp ha)
        exact ⟨f, List.mem_filter.mpr ⟨hf, by simpa using hne⟩, rfl, rfl⟩
      · rintro ⟨f, hf, rfl, rfl⟩
        exact ⟨f, List.mem_of_mem_filter hf, rfl, rfl⟩
  total := by
    have hp := List.filter_append_perm (fun x : LruElem κ => decide (x.addr ≠ e.addr)) c.order
    have hone : c.order.filter (fun x => !decide (x.addr ≠ e.addr)) = [e] := by
      rw [← filter_addr h.addrs he]
      exact List.filter_congr fun x _ => by simp
    rw [hone] at hp
    have hb := bytes_perm (hp.map fun e => (e.key, e.size))
    rw [List.map_append, bytes_append] at hb
    show c.total - e.size = Int64.ofInt (bytes ((c.order.filter (·.addr ≠ e.addr)).map _))
    rw [h.total, Raw.entries, ← hb, Int64.ofInt_add]
    simp [bytes]

theorem forget_wf {c : Raw κ} (h : c.Wf) (k : κ) : (c.forget k).Wf := by
  rw [Raw.forget]
  cases hl : c.items.lookup k with
  | none => exact h
  | some el =>
    obtain ⟨e, he, rfl, rfl⟩ := h.cell hl
    have := erase_wf h he
    rwa [← sizeAt_eq h.addrs he] at this

theorem forget_entries {c : Raw κ} (h : c.Wf) (k : κ) :
    (c.forget k).entries = c.entries.filter (·.1 ≠ k) := by
  rw [Raw.forget]
  cases hl : c.items.lookup k with
  | none =>
    have hk := (h.lookup_none k).mp hl
    rw [keys_eq_map] at hk
    exact (filter_ne_of_notMem hk).symm
  | some el =>
    obtain ⟨e, he, rfl, rfl⟩ := h.cell hl
    exact h.filter_entries he

/-- A turn of the loop removes the least recently used entry. -/
theorem popFront_some {c : Raw κ} (h : c.Wf) {k : κ} {c' : Raw κ}
    (hp : c.popFront = some (k, c')) :
    c'.Wf ∧ (∃ size, c.entries = (k, size) :: c'.entries) ∧
      c'.max = c.max ∧ c'.minFree = c.minFree := by
  rw [Raw.popFront] at hp
  cases ho : c.order with
  | nil => rw [ho] at hp; cases hp
  | cons e rest =>
    rw [ho] at hp
    simp only [Option.some.injEq, Prod.mk.injEq] at hp
    obtain ⟨rfl, rfl⟩ := hp
    have hmem : e ∈ c.order := by rw [ho]; exact List.mem_cons_self
    have hrest : c.order.filter (·.addr ≠ e.addr) = rest := by
      have hnd := h.addrs
      rw [ho] at hnd ⊢
      obtain ⟨he, -⟩ := List.nodup_cons.mp hnd
      rw [List.filter_cons_of_neg (by simp), List.filter_eq_self]
      intro x hx
      have hne : x.addr ≠ e.addr := fun hxe => he (List.mem_map.mpr ⟨x, hx, hxe⟩)
      simpa using hne
    have hwf := erase_wf h hmem
    rw [hrest] at hwf
    exact ⟨hwf, ⟨e.size, by simp [Raw.entries, ho]⟩, rfl, rfl⟩

theorem popFront_none {c : Raw κ} : c.popFront = none ↔ c.entries = [] := by
  rw [Raw.popFront, Raw.entries]
  cases c.order <;> simp

/-- The seeds `Load` appends: of each key that is not held, the first. -/
def unheld : List κ → List (LruSeed κ) → List (κ × Int64)
  | _, [] => []
  | held, e :: es =>
    if e.key ∈ held then unheld held es else (e.key, e.size) :: unheld (held ++ [e.key]) es

/-- Of distinct keys that are not held, none is dropped. -/
theorem unheld_eq_map : ∀ {es : List (LruSeed κ)} {held : List κ},
    (held ++ es.map LruSeed.key).Nodup → unheld held es = es.map fun e => (e.key, e.size) := by
  intro es
  induction es with
  | nil =>
    intro held _
    rfl
  | cons e es ih =>
    intro held h
    have hnot : e.key ∉ held := by
      intro hmem
      exact (List.nodup_append.mp h).2.2 _ hmem _ (by simp) rfl
    rw [unheld, if_neg hnot, ih (by simpa using h), List.map_cons]

theorem loadSorted_spec : ∀ {es : List (LruSeed κ)} {c : Raw κ}, c.Wf →
    (c.loadSorted es).Wf ∧ (c.loadSorted es).entries = c.entries ++ unheld c.keys es ∧
      (c.loadSorted es).max = c.max ∧ (c.loadSorted es).minFree = c.minFree := by
  intro es
  induction es with
  | nil =>
    intro c h
    exact ⟨h, by simp [Raw.loadSorted, unheld], rfl, rfl⟩
  | cons e es ih =>
    intro c h
    rw [Raw.loadSorted, unheld]
    by_cases hk : e.key ∈ c.keys
    · have hsome : (c.items.lookup e.key).isSome := by
        rw [AList.lookup_isSome, h.mem_items]
        exact hk
      rw [if_pos hsome, if_pos hk]
      exact ih h
    · have hnone : ¬ (c.items.lookup e.key).isSome := by
        rw [AList.lookup_isSome, h.mem_items]
        exact hk
      rw [if_neg hnone, if_neg hk]
      obtain ⟨hwf, hent, hmax, hmin⟩ := ih (pushBack_wf h hk e.size)
      have hpush := pushBack_entries c e.key e.size
      refine ⟨hwf, ?_, hmax, hmin⟩
      refine hent.trans ?_
      have hkeys : ({ c.pushBack e.key e.size with total := c.total + e.size } : Raw κ).keys =
          c.keys ++ [e.key] := by
        simp [Raw.keys, Raw.pushBack]
      rw [hkeys]
      show (c.pushBack e.key e.size).entries ++ _ = _
      rw [hpush, List.append_assoc, List.singleton_append]

/-- Of a new cache and distinct keys, `Load` makes the sorted seeds its entries. -/
theorem loadSorted_new (max minFree : Int64) (sort : SortSlice κ) {seeds : List (LruSeed κ)}
    (hnd : (seeds.map LruSeed.key).Nodup) :
    ((newRaw max minFree).loadSorted (sort.1 seeds)).Wf ∧
      ((newRaw max minFree).loadSorted (sort.1 seeds)).entries =
        (sort.1 seeds).map fun e => (e.key, e.size) := by
  have hnew : (newRaw max minFree : Raw κ).Wf := newRaw_wf max minFree
  obtain ⟨hwf, hent, -, -⟩ := @loadSorted_spec _ _ (sort.1 seeds) _ hnew
  refine ⟨hwf, hent.trans (unheld_eq_map ?_)⟩
  exact ((sort.2 seeds).1.map LruSeed.key).nodup_iff.mpr hnd

/-! ### The eviction loop -/

/-- The limits are exceeded by a list of entries, at a reading of `freeFn`. -/
def Exceeded (max minFree : Int64) (es : List (κ × Int64)) (free : Option Int64) : Prop :=
  overLimit max minFree (Int64.ofInt (bytes es)) free

/-- What one run of the eviction loop does to the entries `es`: it deletes the
prefix `ds`, each entry while a limit was exceeded, and stops when no limit is
exceeded or nothing is left. -/
structure Evicts (max minFree : Int64) (free : Option (ℕ → Int64)) (i : ℕ)
    (es : List (κ × Int64)) (ds : List κ) (es' : List (κ × Int64)) : Prop where
  deleted : ds = (es.take ds.length).map Prod.fst
  survivors : es' = es.drop ds.length
  bounded : ds.length ≤ es.length
  exceeded : ∀ j < ds.length, Exceeded max minFree (es.drop j) (free.map (· (i + j)))
  stopped : es' = [] ∨ ¬ Exceeded max minFree es' (free.map (· (i + ds.length)))

omit [DecidableEq κ] in
/-- The deleted keys and the survivors are the entries. -/
theorem Evicts.append {max minFree : Int64} {free : Option (ℕ → Int64)} {i : ℕ}
    {es es' : List (κ × Int64)} {ds : List κ} (h : Evicts max minFree free i es ds es') :
    ds ++ es'.map Prod.fst = es.map Prod.fst := by
  rw [h.survivors, List.map_drop]
  conv_lhs => rw [h.deleted, List.map_take]
  rw [List.length_take, List.length_map, min_eq_left h.bounded, List.take_append_drop]

omit [DecidableEq κ] in
/-- The survivors are the entries whose keys are not deleted. -/
theorem Evicts.mem_iff {max minFree : Int64} {free : Option (ℕ → Int64)} {i : ℕ}
    {es es' : List (κ × Int64)} {ds : List κ} (h : Evicts max minFree free i es ds es')
    (hnd : (es.map Prod.fst).Nodup) {e : κ × Int64} : e ∈ es' ↔ e ∈ es ∧ e.1 ∉ ds := by
  have happ := h.append
  rw [← happ] at hnd
  constructor
  · intro he
    refine ⟨List.mem_of_mem_drop (h.survivors ▸ he), fun hd => ?_⟩
    exact (List.nodup_append.mp hnd).2.2 _ hd _ (List.mem_map.mpr ⟨e, he, rfl⟩) rfl
  · rintro ⟨he, hd⟩
    rw [← List.take_append_drop ds.length es, List.mem_append] at he
    rcases he with he | he
    · exact absurd (h.deleted ▸ List.mem_map.mpr ⟨e, he, rfl⟩) hd
    · exact h.survivors ▸ he

omit [DecidableEq κ] in
/-- What is deleted is determined by the entries and the answers of `freeFn`. -/
theorem Evicts.unique {max minFree : Int64} {free : Option (ℕ → Int64)} {i : ℕ}
    {es es₁ es₂ : List (κ × Int64)} {ds₁ ds₂ : List κ}
    (h₁ : Evicts max minFree free i es ds₁ es₁) (h₂ : Evicts max minFree free i es ds₂ es₂) :
    ds₁ = ds₂ ∧ es₁ = es₂ := by
  -- the one that stops first would have to go on
  have hle : ∀ {es₁ es₂ : List (κ × Int64)} {ds₁ ds₂ : List κ},
      Evicts max minFree free i es ds₁ es₁ → Evicts max minFree free i es ds₂ es₂ →
      ds₂.length ≤ ds₁.length := by
    intro es₁ es₂ ds₁ ds₂ h₁ h₂
    by_contra hlt
    rw [not_le] at hlt
    rcases h₁.stopped with hnil | hstop
    · have hlen := congrArg List.length (h₁.survivors ▸ hnil)
      rw [List.length_drop, List.length_nil] at hlen
      have := h₂.bounded
      omega
    · rw [h₁.survivors] at hstop
      exact hstop (h₂.exceeded ds₁.length hlt)
  have hlen := le_antisymm (hle h₂ h₁) (hle h₁ h₂)
  exact ⟨by rw [h₁.deleted, h₂.deleted, hlen], by rw [h₁.survivors, h₂.survivors, hlen]⟩

theorem evictLoop_spec (free : Option (ℕ → Int64)) : ∀ {fuel i : ℕ} {c : Raw κ}, c.Wf →
    c.order.length ≤ fuel →
      (c.evictLoop free fuel i).2.Wf ∧
      Evicts c.max c.minFree free i c.entries (c.evictLoop free fuel i).1
        (c.evictLoop free fuel i).2.entries ∧
      (c.evictLoop free fuel i).2.max = c.max ∧
      (c.evictLoop free fuel i).2.minFree = c.minFree := by
  intro fuel
  induction fuel with
  | zero =>
    intro i c h hfuel
    have hnil : c.order = [] := List.length_eq_zero_iff.mp (Nat.le_zero.mp hfuel)
    have hent : c.entries = [] := by simp [Raw.entries, hnil]
    exact ⟨h, ⟨rfl, rfl, by simp [Raw.evictLoop], by simp [Raw.evictLoop],
      Or.inl (by simp [Raw.evictLoop, hent])⟩, rfl, rfl⟩
  | succ fuel ih =>
    intro i c h hfuel
    rw [Raw.evictLoop]
    cases hp : c.popFront with
    | none =>
      have hent := popFront_none.mp hp
      exact ⟨h, ⟨rfl, rfl, by simp, by simp, Or.inl hent⟩, rfl, rfl⟩
    | some p =>
      obtain ⟨k, c'⟩ := p
      obtain ⟨hwf, ⟨size, hent⟩, hmax, hmin⟩ := popFront_some h hp
      by_cases hov : overLimit c.max c.minFree c.total (free.map (· i))
      · -- the oldest goes, and the loop is on the rest with the next reading of the disk
        simp only [if_pos hov]
        have hlen : c'.order.length ≤ fuel := by
          have := congrArg List.length hent
          simp only [Raw.entries, List.length_map, List.length_cons] at this
          omega
        obtain ⟨hwf', hev, hmax', hmin'⟩ := ih (i := i + 1) hwf hlen
        rw [hmax, hmin] at hev
        refine ⟨hwf', ⟨?_, ?_, ?_, ?_, ?_⟩, hmax'.trans hmax, hmin'.trans hmin⟩
        · rw [hent, List.length_cons, List.take_succ_cons, List.map_cons, ← hev.deleted]
        · rw [hent, List.length_cons, List.drop_succ_cons]
          exact hev.survivors
        · rw [hent, List.length_cons, List.length_cons]
          exact Nat.succ_le_succ hev.bounded
        · intro j hj
          rcases j with _ | j
          · rw [List.drop_zero, Exceeded, ← h.total]
            exact hov
          · rw [hent, List.drop_succ_cons]
            have := hev.exceeded j (by simpa using hj)
            rwa [show i + 1 + j = i + (j + 1) by omega] at this
        · have hidx : i + 1 + (c'.evictLoop free fuel (i + 1)).1.length =
              i + (k :: (c'.evictLoop free fuel (i + 1)).1).length := by
            rw [List.length_cons]
            omega
          have hstop := hev.stopped
          rwa [hidx] at hstop
      · simp only [if_neg hov, and_true]
        refine ⟨h, ⟨rfl, rfl, by simp, by simp, Or.inr ?_⟩⟩
        rw [Exceeded, ← h.total]
        exact hov

/-- `evictLocked` deletes a prefix of the order, each entry while a limit is
exceeded, and stops as soon as none is. -/
theorem evictLocked_spec {c : Raw κ} (h : c.Wf) (free : Option (ℕ → Int64)) :
    (c.evictLocked free).2.Wf ∧
      Evicts c.max c.minFree free 0 c.entries (c.evictLocked free).1
        (c.evictLocked free).2.entries ∧
      (c.evictLocked free).2.max = c.max ∧ (c.evictLocked free).2.minFree = c.minFree :=
  evictLoop_spec free h le_rfl

theorem touch_limits (c : Raw κ) (k : κ) :
    (c.touch k).max = c.max ∧ (c.touch k).minFree = c.minFree := by
  rw [Raw.touch]
  cases c.items.lookup k <;> exact ⟨rfl, rfl⟩

theorem recordEntry_limits (c : Raw κ) (k : κ) (size : Int64) :
    (c.recordEntry k size).max = c.max ∧ (c.recordEntry k size).minFree = c.minFree := by
  rw [Raw.recordEntry]
  cases c.items.lookup k <;> exact ⟨rfl, rfl⟩

theorem forget_limits (c : Raw κ) (k : κ) :
    (c.forget k).max = c.max ∧ (c.forget k).minFree = c.minFree := by
  rw [Raw.forget]
  cases c.items.lookup k <;> exact ⟨rfl, rfl⟩

end Lru

/-! ### The cache with its invariant -/

/-- An `lruCache` whose two representations agree. -/
structure LruCache (κ : Type*) [DecidableEq κ] where
  raw : Lru.Raw κ
  wf : raw.Wf

namespace LruCache

variable [DecidableEq κ]

open Lru

def new (max minFree : Int64) : LruCache κ := ⟨newRaw max minFree, newRaw_wf max minFree⟩

/-- The `(key, size)` pairs, least recently used first. -/
def entries (c : LruCache κ) : List (κ × Int64) := c.raw.entries

/-- `TotalBytes`. -/
def totalBytes (c : LruCache κ) : Int64 := c.raw.total

def touch (c : LruCache κ) (key : κ) : LruCache κ := ⟨c.raw.touch key, touch_wf c.wf key⟩

/-- `Record` up to its call of `evictLocked`. -/
def recordEntry (c : LruCache κ) (key : κ) (size : Int64) : LruCache κ :=
  ⟨c.raw.recordEntry key size, recordEntry_wf c.wf key size⟩

/-- `overLimitLocked`. -/
def overLimitLocked (c : LruCache κ) (free : Option Int64) : Bool :=
  overLimit c.raw.max c.raw.minFree c.raw.total free

/-- A turn of the loop of `evictLocked`, up to the delete callback. -/
def popFront (c : LruCache κ) : Option (κ × LruCache κ) :=
  match h : c.raw.popFront with
  | none => none
  | some (k, raw) => some (k, ⟨raw, (popFront_some c.wf h).1⟩)

def load (c : LruCache κ) (sort : SortSlice κ) (seeds : List (LruSeed κ))
    (free : Option (ℕ → Int64)) : List κ × LruCache κ :=
  ((c.raw.load sort seeds free).1,
    ⟨(c.raw.load sort seeds free).2, (evictLocked_spec (loadSorted_spec c.wf).1 free).1⟩)

/-- `evictLocked`. -/
def evictLocked (c : LruCache κ) (free : Option (ℕ → Int64)) : List κ × LruCache κ :=
  ((c.raw.evictLocked free).1, ⟨(c.raw.evictLocked free).2, (evictLocked_spec c.wf free).1⟩)

/-- `Record`. -/
def record (c : LruCache κ) (key : κ) (size : Int64) (free : Option (ℕ → Int64)) :
    List κ × LruCache κ :=
  (c.recordEntry key size).evictLocked free

/-- The same entries under other limits. -/
def withLimits (c : LruCache κ) (max minFree : Int64) : LruCache κ :=
  ⟨{ c.raw with max := max, minFree := minFree }, ⟨c.wf.addrs, c.wf.fresh, c.wf.items, c.wf.total⟩⟩

@[simp] theorem new_entries (max minFree : Int64) : (new max minFree : LruCache κ).entries = [] :=
  rfl

theorem totalBytes_eq (c : LruCache κ) : c.totalBytes = Int64.ofInt (bytes c.entries) :=
  c.wf.total

@[simp] theorem touch_entries (c : LruCache κ) (k : κ) :
    (c.touch k).entries = c.entries.filter (·.1 ≠ k) ++ c.entries.filter (·.1 = k) :=
  Lru.touch_entries c.wf k

theorem mem_touch {c : LruCache κ} {k : κ} {e : κ × Int64} :
    e ∈ (c.touch k).entries ↔ e ∈ c.entries := by
  by_cases hk : e.1 = k <;> simp [hk]

@[simp] theorem recordEntry_entries (c : LruCache κ) (k : κ) (size : Int64) :
    (c.recordEntry k size).entries = c.entries.filter (·.1 ≠ k) ++ [(k, size)] :=
  Lru.recordEntry_entries c.wf k size

theorem mem_recordEntry {c : LruCache κ} {k : κ} {size : Int64} {e : κ × Int64} :
    e ∈ (c.recordEntry k size).entries ↔ (e ∈ c.entries ∧ e.1 ≠ k) ∨ e = (k, size) := by
  rw [recordEntry_entries]
  simp

theorem keys_nodup (c : LruCache κ) : (c.entries.map Prod.fst).Nodup := by
  have := c.wf.keys_nodup
  rwa [keys_eq_map] at this

theorem popFront_some {c c' : LruCache κ} {k : κ} (h : c.popFront = some (k, c')) :
    ∃ size, c.entries = (k, size) :: c'.entries := by
  rw [popFront] at h
  split at h
  · cases h
  · next k' raw hp =>
    cases h
    exact (Lru.popFront_some c.wf hp).2.1

theorem popFront_none {c : LruCache κ} : c.popFront = none ↔ c.entries = [] := by
  rw [popFront, entries, ← Lru.popFront_none]
  split <;> simp_all

/-- Two caches a caller cannot tell apart. -/
structure Same (c c' : LruCache κ) : Prop where
  entries : c.entries = c'.entries
  max : c.raw.max = c'.raw.max
  minFree : c.raw.minFree = c'.raw.minFree

theorem Same.touch {c c' : LruCache κ} (h : c.Same c') (k : κ) : (c.touch k).Same (c'.touch k) where
  entries := by rw [touch_entries, touch_entries, h.entries]
  max := ((touch_limits c.raw k).1.trans h.max).trans (touch_limits c'.raw k).1.symm
  minFree := ((touch_limits c.raw k).2.trans h.minFree).trans (touch_limits c'.raw k).2.symm

theorem Same.recordEntry {c c' : LruCache κ} (h : c.Same c') (k : κ) (size : Int64) :
    (c.recordEntry k size).Same (c'.recordEntry k size) where
  entries := by rw [recordEntry_entries, recordEntry_entries, h.entries]
  max := ((recordEntry_limits c.raw k size).1.trans h.max).trans
    (recordEntry_limits c'.raw k size).1.symm
  minFree := ((recordEntry_limits c.raw k size).2.trans h.minFree).trans
    (recordEntry_limits c'.raw k size).2.symm

theorem evictLocked_evicts (c : LruCache κ) (free : Option (ℕ → Int64)) :
    Evicts c.raw.max c.raw.minFree free 0 c.entries (c.evictLocked free).1
      (c.evictLocked free).2.entries :=
  (evictLocked_spec c.wf free).2.1

/-- They evict the same keys in the same order. -/
theorem Same.evictLocked {c c' : LruCache κ} (h : c.Same c') (free : Option (ℕ → Int64)) :
    (c.evictLocked free).1 = (c'.evictLocked free).1 ∧
      (c.evictLocked free).2.Same (c'.evictLocked free).2 := by
  have hev := c.evictLocked_evicts free
  have hev' := c'.evictLocked_evicts free
  rw [h.entries, h.max, h.minFree] at hev
  obtain ⟨hds, hes⟩ := hev.unique hev'
  obtain ⟨-, -, hmax, hmin⟩ := evictLocked_spec c.wf free
  obtain ⟨-, -, hmax', hmin'⟩ := evictLocked_spec c'.wf free
  exact ⟨hds, hes, (hmax.trans h.max).trans hmax'.symm, (hmin.trans h.minFree).trans hmin'.symm⟩

/-- `Load` on a new cache runs the eviction loop on the seeds. -/
theorem load_evicts (max minFree : Int64) (sort : SortSlice κ) (seeds : List (LruSeed κ))
    (free : Option (ℕ → Int64)) :
    Evicts max minFree free 0 (unheld [] (sort.1 seeds))
      ((new max minFree).load sort seeds free).1
      ((new max minFree).load sort seeds free).2.entries := by
  have hwf : (new max minFree : LruCache κ).raw.Wf := (new max minFree).wf
  obtain ⟨hwf', hent, hmax, hmin⟩ := @loadSorted_spec κ _ (sort.1 seeds) _ hwf
  obtain ⟨-, hev, -, -⟩ := evictLocked_spec hwf' free
  rw [hent, hmax, hmin] at hev
  exact hev

end LruCache

end XetDcCache
