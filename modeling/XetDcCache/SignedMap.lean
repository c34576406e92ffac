/-
The map of the signed urls (signedmap.go) against its specification.

`TTLCells` is the `TTLMap` struct with its two representations of the same keys: `order` is the
`container/list` (front = oldest), each element a heap cell with its own address, and `items` maps
a key to the address of its element.  `Refines` says that they are a `TTLMap`, whose pairs are in
one dictionary; each operation keeps it.

* `TTLCells.set_refines`, `TTLCells.get_refines` — the struct is that map;
* `ttl_map_spec` — what `Get` returns, after any sequence of `Set` and `Get`.
-/
import XetDcCache.SignedUrls
import XetDcCache.Recency

namespace XetDcCache

open Transition Recency

variable {β : Type*}

/-! ### The list and the map -/

/-- A `list.Element` at address `addr` that holds a `ttlEntry`. -/
structure TTLCell (β : Type*) where
  addr : ℕ
  key : Bytes
  expiry : ℕ
  value : β

/-- The fields of `TTLMap`; `next` is the next free element address. -/
structure TTLCells (β : Type*) where
  ttl : ℕ
  max : ℤ
  order : List (TTLCell β)
  items : AList fun _ : Bytes => ℕ
  next : ℕ

def TTLCell.pair (c : TTLCell β) : Bytes × TTLEntry β := (c.key, ⟨c.expiry, c.value⟩)

namespace TTLCells

def new (ttl : ℕ) (max : ℤ) : TTLCells β := ⟨ttl, max, [], ∅, 0⟩

/-- `list.MoveToBack`. -/
def moveToBack (l : List (TTLCell β)) (a : ℕ) : List (TTLCell β) :=
  l.filter (·.addr ≠ a) ++ l.filter (·.addr = a)

/-- Overwrite the entry of the element at `a`. -/
def store (l : List (TTLCell β)) (a expiry : ℕ) (value : β) : List (TTLCell β) :=
  l.map fun c => if c.addr = a then { c with expiry := expiry, value := value } else c

/-- `Set` up to its loop. -/
def place (m : TTLCells β) (key : Bytes) (expiry : ℕ) (value : β) : TTLCells β :=
  match m.items.lookup key with
  | some el => { m with order := moveToBack (store m.order el expiry value) el }
  | none =>
    { m with
      order := m.order ++ [⟨m.next, key, expiry, value⟩]
      items := m.items.insert key m.next
      next := m.next + 1 }

/-- The loop of `Set`. -/
def dropLoop (max : ℤ) : List (TTLCell β) → (AList fun _ : Bytes => ℕ) →
    List (TTLCell β) × AList fun _ : Bytes => ℕ
  | [], items => ([], items)
  | front :: rest, items =>
    if 0 < max ∧ max < (front :: rest).length then dropLoop max rest (items.erase front.key)
    else (front :: rest, items)

def set (m : TTLCells β) (now : ℕ) (key : Bytes) (value : β) : TTLCells β :=
  let m := m.place key (now + m.ttl) value
  let (order, items) := dropLoop m.max m.order m.items
  { m with order := order, items := items }

def get (m : TTLCells β) (now : ℕ) (key : Bytes) : Option β × TTLCells β :=
  match m.items.lookup key with
  | none => (none, m)
  | some el =>
    match m.order.find? (·.addr = el) with
    | none => (none, m)
    | some e =>
      if now < e.expiry then (some e.value, m)
      else (none, { m with
        order := m.order.filter (·.addr ≠ el)
        items := m.items.erase key })

/-! ### The representation invariant -/

/-- `items` points at exactly the elements of `order`. -/
def Points (order : List (TTLCell β)) (items : AList fun _ : Bytes => ℕ) : Prop :=
  ∀ k a, items.lookup k = some a ↔ ∃ c ∈ order, c.key = k ∧ c.addr = a

structure Wf (m : TTLCells β) : Prop where
  keys : (m.order.map TTLCell.key).Nodup
  addrs : (m.order.map TTLCell.addr).Nodup
  fresh : ∀ c ∈ m.order, c.addr < m.next
  points : Points m.order m.items

/-- The struct and the map it is. -/
structure Refines (m : TTLCells β) (d : TTLMap β) : Prop where
  wf : m.Wf
  ttl : m.ttl = d.ttl
  max : m.max = d.max
  pairs : m.order.map TTLCell.pair = d.items.items

variable {m : TTLCells β} {d : TTLMap β}

theorem new_refines (ttl : ℕ) (max : ℤ) : (new ttl max : TTLCells β).Refines (.new ttl max) where
  wf := ⟨List.nodup_nil, List.nodup_nil, nofun, fun k a => by simp [new]⟩
  ttl := rfl
  max := rfl
  pairs := rfl

/-- Within `order`, a key and an address identify the same element. -/
theorem Wf.addr_eq_iff (h : m.Wf) {c e : TTLCell β} (hc : c ∈ m.order) (he : e ∈ m.order) :
    c.addr = e.addr ↔ c.key = e.key :=
  ⟨fun ha => congrArg TTLCell.key (List.inj_on_of_nodup_map h.addrs hc he ha),
    fun hk => congrArg TTLCell.addr (List.inj_on_of_nodup_map h.keys hc he hk)⟩

theorem Wf.mem_items (h : m.Wf) (k : Bytes) : k ∈ m.items ↔ k ∈ m.order.map TTLCell.key := by
  rw [← AList.lookup_isSome, Option.isSome_iff_exists, List.mem_map]
  constructor
  · rintro ⟨a, ha⟩
    obtain ⟨c, hc, hk, -⟩ := (h.points k a).mp ha
    exact ⟨c, hc, hk⟩
  · rintro ⟨c, hc, hk⟩
    exact ⟨c.addr, (h.points k c.addr).mpr ⟨c, hc, hk, rfl⟩⟩

theorem Refines.keys (h : m.Refines d) : m.order.map TTLCell.key = d.items.keys := by
  rw [OrderedDict.keys, ← h.pairs, List.map_map]
  rfl

/-- The elements that are not at the address of a key are those with another key. -/
theorem Wf.filter_pairs (h : m.Wf) {c : TTLCell β} (hc : c ∈ m.order) :
    (m.order.filter (·.addr ≠ c.addr)).map TTLCell.pair =
      (m.order.map TTLCell.pair).filter (·.1 ≠ c.key) := by
  rw [List.filter_map]
  congr 1
  refine List.filter_congr fun e he => ?_
  have hiff := h.addr_eq_iff he hc
  by_cases hk : e.key = c.key
  · simp [TTLCell.pair, hk, hiff.mpr hk]
  · simp [TTLCell.pair, hk, mt hiff.mp hk]

theorem moveToBack_perm (l : List (TTLCell β)) (a : ℕ) : (moveToBack l a).Perm l := by
  have h := List.filter_append_perm (fun c : TTLCell β => decide (c.addr ≠ a)) l
  have hcongr : l.filter (fun c => !decide (c.addr ≠ a)) = l.filter (·.addr = a) :=
    List.filter_congr fun c _ => by simp
  rwa [hcongr] at h

/-- Writing an entry keeps what the map points at. -/
theorem store_cells (l : List (TTLCell β)) (a expiry : ℕ) (value : β) {γ : Type*}
    (f : TTLCell β → γ)
    (hf : ∀ c : TTLCell β, f { c with expiry := expiry, value := value } = f c) :
    (store l a expiry value).map f = l.map f := by
  rw [store, List.map_map]
  refine List.map_congr_left fun c _ => ?_
  by_cases h : c.addr = a
  · rw [Function.comp, if_pos h, hf]
  · rw [Function.comp, if_neg h]

theorem store_filter_ne (l : List (TTLCell β)) (a expiry : ℕ) (value : β) :
    (store l a expiry value).filter (·.addr ≠ a) = l.filter (·.addr ≠ a) := by
  induction l with
  | nil => rfl
  | cons c l ih =>
    rw [store] at ih
    by_cases h : c.addr = a
    · simp only [store, List.map_cons, if_pos h]
      rw [List.filter_cons_of_neg (by simpa using h), List.filter_cons_of_neg (by simpa using h),
        ih]
    · simp only [store, List.map_cons, if_neg h]
      rw [List.filter_cons_of_pos (by simpa using h), List.filter_cons_of_pos (by simpa using h),
        ih]

/-- The addresses are distinct, so one element has the new entry. -/
theorem store_filter_eq {l : List (TTLCell β)} (h : (l.map TTLCell.addr).Nodup) {c : TTLCell β}
    (hc : c ∈ l) (expiry : ℕ) (value : β) :
    (store l c.addr expiry value).filter (·.addr = c.addr) =
      [{ c with expiry := expiry, value := value }] := by
  induction l with
  | nil => cases hc
  | cons e l ih =>
    obtain ⟨he, hl⟩ := List.nodup_cons.mp h
    rw [store] at ih
    rcases List.mem_cons.mp hc with rfl | hc
    · simp only [store, List.map_cons, if_pos]
      rw [List.filter_cons_of_pos (by simp)]
      congr 1
      refine List.filter_eq_nil_iff.mpr fun x hx => ?_
      obtain ⟨y, hy, rfl⟩ := List.mem_map.mp hx
      have hne : y.addr ≠ c.addr := fun heq => he (List.mem_map.mpr ⟨y, hy, heq⟩)
      simp [hne]
    · have hne : e.addr ≠ c.addr := fun heq => he (List.mem_map.mpr ⟨c, hc, heq.symm⟩)
      simp only [store, List.map_cons, if_neg hne]
      rw [List.filter_cons_of_neg (by simpa using hne)]
      exact ih hl hc

/-! ### Set -/

theorem Points.of_map {l l' : List (TTLCell β)} {items : AList fun _ : Bytes => ℕ}
    (h : Points l items)
    (hmap : (l'.map fun c => (c.key, c.addr)).Perm (l.map fun c => (c.key, c.addr))) :
    Points l' items := by
  have hmem : ∀ {l : List (TTLCell β)} {k a},
      (∃ c ∈ l, c.key = k ∧ c.addr = a) ↔ (k, a) ∈ l.map fun c => (c.key, c.addr) := by
    intro l k a
    simp
  intro k a
  rw [h k a, hmem, hmem, hmap.mem_iff]

theorem Points.insert {l : List (TTLCell β)} {items : AList fun _ : Bytes => ℕ} (h : Points l items)
    {c : TTLCell β} (hc : c.key ∉ l.map TTLCell.key) :
    Points (l ++ [c]) (items.insert c.key c.addr) := by
  intro k a
  by_cases hk : k = c.key
  · subst hk
    rw [AList.lookup_insert, Option.some_inj]
    constructor
    · exact fun ha => ⟨c, List.mem_append_right _ List.mem_cons_self, rfl, ha⟩
    · rintro ⟨e, he, hek, rfl⟩
      rcases List.mem_append.mp he with he | he
      · exact absurd (List.mem_map.mpr ⟨e, he, hek⟩) hc
      · rw [List.mem_singleton.mp he]
  · rw [AList.lookup_insert_ne hk, h k a]
    constructor
    · rintro ⟨e, he, hek⟩
      exact ⟨e, List.mem_append_left _ he, hek⟩
    · rintro ⟨e, he, hek, ha⟩
      rcases List.mem_append.mp he with he | he
      · exact ⟨e, he, hek, ha⟩
      · exact absurd ((List.mem_singleton.mp he) ▸ hek.symm) hk

/-- The key of an element that is taken out goes too. -/
theorem Points.erase {l l' : List (TTLCell β)} {items : AList fun _ : Bytes => ℕ}
    (h : Points l items) {key : Bytes} (hl : ∀ c, c ∈ l' ↔ c ∈ l ∧ c.key ≠ key) :
    Points l' (items.erase key) := by
  intro k a
  by_cases hk : k = key
  · subst hk
    rw [AList.lookup_erase]
    refine iff_of_false nofun ?_
    rintro ⟨c, hc, hck, -⟩
    exact ((hl c).mp hc).2 hck
  · rw [AList.lookup_erase_ne hk, h k a]
    constructor
    · rintro ⟨c, hc, hck, ha⟩
      exact ⟨c, (hl c).mpr ⟨hc, hck ▸ hk⟩, hck, ha⟩
    · rintro ⟨c, hc, hck⟩
      exact ⟨c, ((hl c).mp hc).1, hck⟩

/-- `Set` puts the key last, with its new entry. -/
theorem place_refines (h : m.Refines d) (key : Bytes) (expiry : ℕ) (value : β) :
    (m.place key expiry value).Refines
      { d with items := (d.items.moveToEnd key).set key ⟨expiry, value⟩ } := by
  have hpairs := OrderedDict.moveToEnd_set_items' d.items key ⟨expiry, value⟩
  rw [← h.pairs] at hpairs
  rw [place]
  cases hl : m.items.lookup key with
  | some el =>
    obtain ⟨c, hc, rfl, rfl⟩ := (h.wf.points _ _).mp hl
    have hperm := moveToBack_perm (store m.order c.addr expiry value) c.addr
    have hcell : ∀ {γ : Type} (f : TTLCell β → γ),
        (∀ e : TTLCell β, f { e with expiry := expiry, value := value } = f e) →
        ((moveToBack (store m.order c.addr expiry value) c.addr).map f).Perm (m.order.map f) := by
      intro γ f hf
      have := hperm.map f
      rwa [store_cells _ _ _ _ f hf] at this
    refine ⟨⟨?_, ?_, fun e he => ?_, h.wf.points.of_map (hcell _ fun _ => rfl)⟩, h.ttl, h.max, ?_⟩
    · exact (hcell _ fun _ => rfl).nodup_iff.mpr h.wf.keys
    · exact (hcell _ fun _ => rfl).nodup_iff.mpr h.wf.addrs
    · have hin := (hcell TTLCell.addr fun _ => rfl).mem_iff.mp (List.mem_map_of_mem he)
      obtain ⟨e', he', ha⟩ := List.mem_map.mp hin
      exact ha ▸ h.wf.fresh e' he'
    · -- the one element at the address holds the new entry, the others are as they were
      show (moveToBack (store m.order c.addr expiry value) c.addr).map TTLCell.pair = _
      rw [hpairs, moveToBack, List.map_append, ← h.wf.filter_pairs hc]
      rw [store_filter_ne, store_filter_eq h.wf.addrs hc]
      rfl
  | none =>
    have hnew : key ∉ m.order.map TTLCell.key := by
      rw [← h.wf.mem_items, ← AList.lookup_eq_none]
      exact hl
    refine ⟨⟨?_, ?_, fun e he => ?_, ?_⟩, h.ttl, h.max, ?_⟩
    · rw [List.map_append]
      exact h.wf.keys.append (List.nodup_singleton _) (List.disjoint_singleton.mpr hnew)
    · rw [List.map_append]
      refine h.wf.addrs.append (List.nodup_singleton _) (List.disjoint_singleton.mpr fun hmem => ?_)
      obtain ⟨e, he, ha⟩ := List.mem_map.mp hmem
      exact absurd (h.wf.fresh e he) (by rw [ha]; exact lt_irrefl _)
    · rcases List.mem_append.mp he with he | he
      · exact (h.wf.fresh e he).trans (Nat.lt_succ_self _)
      · rw [List.mem_singleton.mp he]
        exact Nat.lt_succ_self _
    · exact h.wf.points.insert (c := ⟨m.next, key, expiry, value⟩) hnew
    · show (m.order ++ [_]).map TTLCell.pair = _
      rw [hpairs, List.map_append]
      congr 1
      refine (List.filter_eq_self.mpr fun e he => ?_).symm
      obtain ⟨c, hc, rfl⟩ := List.mem_map.mp he
      exact decide_eq_true fun heq => hnew (List.mem_map.mpr ⟨c, hc, heq⟩)

/-- The loops of the two drop the same entries. -/
theorem dropLoop_refines (max : ℤ) : ∀ (l : List (TTLCell β)) (items : AList fun _ : Bytes => ℕ)
    (h : ((l.map TTLCell.pair).map Prod.fst).Nodup), Points l items →
    Points (dropLoop max l items).1 (dropLoop max l items).2 ∧ (dropLoop max l items).1 <:+ l ∧
      (dropLoop max l items).1.map TTLCell.pair =
        (TTLMap.dropOldest.go max (l.map TTLCell.pair) h).items := by
  intro l
  induction l with
  | nil => exact fun items _ hp => ⟨hp, List.suffix_rfl, rfl⟩
  | cons front rest ih =>
    intro items h hp
    have hlen : ((front :: rest).map TTLCell.pair).length = (front :: rest).length :=
      List.length_map _
    obtain ⟨hfront, hrest⟩ := List.nodup_cons.mp h
    have hkeys : ∀ c ∈ rest, c.key ≠ front.key := fun c hc heq =>
      hfront (List.mem_map.mpr ⟨c.pair, List.mem_map_of_mem hc, heq⟩)
    by_cases hover : 0 < max ∧ max < (front :: rest).length
    · have hpop : Points rest (items.erase front.key) := by
        refine hp.erase fun c => ?_
        constructor
        · exact fun hc => ⟨List.mem_cons_of_mem _ hc, hkeys c hc⟩
        · rintro ⟨hc, hne⟩
          refine (List.mem_cons.mp hc).resolve_left fun heq => hne (congrArg TTLCell.key heq)
      obtain ⟨h1, h2, h3⟩ := ih (items.erase front.key) hrest hpop
      rw [dropLoop, if_pos hover]
      refine ⟨h1, h2.trans (List.suffix_cons _ _), h3.trans ?_⟩
      show _ = (TTLMap.dropOldest.go max (front.pair :: rest.map TTLCell.pair) h).items
      rw [TTLMap.dropOldest.go, if_pos (by rw [List.length_cons, List.length_map]; exact hover)]
    · rw [dropLoop, if_neg hover]
      refine ⟨hp, List.suffix_rfl, ?_⟩
      show _ = (TTLMap.dropOldest.go max (front.pair :: rest.map TTLCell.pair) h).items
      rw [TTLMap.dropOldest.go, if_neg (by rw [List.length_cons, List.length_map]; exact hover)]
      rfl

theorem go_congr {max max' : ℤ} {l l' : List (Bytes × TTLEntry β)} (hmax : max = max')
    (hl : l = l') (h : (l.map Prod.fst).Nodup) (h' : (l'.map Prod.fst).Nodup) :
    (TTLMap.dropOldest.go max l h).items = (TTLMap.dropOldest.go max' l' h').items := by
  subst hmax hl
  rfl

theorem set_refines (h : m.Refines d) (now : ℕ) (key : Bytes) (value : β) :
    (m.set now key value).Refines (d.set now key value) := by
  have hplace := place_refines h key (now + m.ttl) value
  have hnd : (((m.place key (now + m.ttl) value).order.map TTLCell.pair).map Prod.fst).Nodup := by
    rw [List.map_map]
    exact hplace.wf.keys
  obtain ⟨hpoints, hsuffix, hpairs⟩ := dropLoop_refines (m.place key (now + m.ttl) value).max _ _
    hnd hplace.wf.points
  have hsub := hsuffix.sublist
  refine ⟨⟨(hsub.map _).nodup hplace.wf.keys, (hsub.map _).nodup hplace.wf.addrs, fun c hc =>
    hplace.wf.fresh c (hsub.subset hc), hpoints⟩, hplace.ttl, hplace.max, hpairs.trans ?_⟩
  refine go_congr hplace.max (hplace.pairs.trans ?_) _ _
  rw [h.ttl]

/-! ### Get -/

theorem Wf.find (h : m.Wf) {c : TTLCell β} (hc : c ∈ m.order) :
    m.order.find? (·.addr = c.addr) = some c := by
  cases hf : m.order.find? (·.addr = c.addr) with
  | none =>
    have := List.find?_eq_none.mp hf c hc
    simp at this
  | some e =>
    have ha := List.find?_some hf
    rw [decide_eq_true_eq] at ha
    rw [List.inj_on_of_nodup_map h.addrs (List.mem_of_find?_eq_some hf) hc ha]

theorem get_refines (h : m.Refines d) (now : ℕ) (key : Bytes) :
    (m.get now key).1 = (d.get now key).1 ∧ (m.get now key).2.Refines (d.get now key).2 := by
  rw [get, TTLMap.get]
  cases hl : m.items.lookup key with
  | none =>
    have hget : d.items.get? key = none := by
      rw [OrderedDict.get?_eq_none, ← h.keys, ← h.wf.mem_items, ← AList.lookup_eq_none]
      exact hl
    rw [hget]
    exact ⟨rfl, h⟩
  | some el =>
    obtain ⟨c, hc, rfl, rfl⟩ := (h.wf.points _ _).mp hl
    have hget : d.items.get? c.key = some ⟨c.expiry, c.value⟩ := by
      rw [OrderedDict.get?_eq_some, ← h.pairs]
      exact List.mem_map_of_mem hc
    rw [hget]
    simp only [h.wf.find hc]
    by_cases hlive : now < c.expiry
    · rw [if_pos hlive, if_pos hlive]
      exact ⟨rfl, h⟩
    · rw [if_neg hlive, if_neg hlive]
      have hsub : (m.order.filter (·.addr ≠ c.addr)).Sublist m.order := List.filter_sublist
      refine ⟨rfl, ⟨(hsub.map _).nodup h.wf.keys, (hsub.map _).nodup h.wf.addrs, fun e he =>
        h.wf.fresh e (hsub.subset he), h.wf.points.erase fun e => ?_⟩, h.ttl, h.max, ?_⟩
      · rw [List.mem_filter, decide_eq_true_eq]
        exact and_congr_right fun he => not_congr (h.wf.addr_eq_iff he hc)
      · show (m.order.filter (·.addr ≠ c.addr)).map TTLCell.pair = _
        rw [h.wf.filter_pairs hc, h.pairs, OrderedDict.pop_items]

end TTLCells

/-! ### The specification -/

/-- The `Set`s, oldest first: when, of which key, with which value. -/
abbrev Sets (β : Type*) := List (ℕ × Bytes × β)

def setKeys (sets : Sets β) : List Bytes := sets.map fun e => e.2.1

/-- The last `Set` of a key was at `time` with `value`, and `since` came after it. -/
def LastSet (sets : Sets β) (key : Bytes) (time : ℕ) (value : β) (since : Sets β) : Prop :=
  (∃ pre, sets = pre ++ (time, key, value) :: since) ∧ key ∉ setKeys since

/-- What `Get` is to return: the value of the last `Set`, unless it has expired or `max` other
keys have been set since. -/
def Retrieves (ttl : ℕ) (max : ℤ) (sets : Sets β) (now : ℕ) (key : Bytes) (value : β) : Prop :=
  ∃ time since, LastSet sets key time value since ∧ now < time + ttl ∧
    (max ≤ 0 ∨ ((setKeys since).dedup.length : ℤ) < max)

namespace LastSet

variable {sets since since' : Sets β} {key : Bytes} {time time' : ℕ} {value value' : β}

/-- A list is split at the last occurrence of a key in one way. -/
theorem unique (h : LastSet sets key time value since) (h' : LastSet sets key time' value' since') :
    time = time' ∧ value = value' ∧ since = since' := by
  obtain ⟨⟨pre, rfl⟩, hno⟩ := h
  obtain ⟨⟨pre', heq⟩, hno'⟩ := h'
  rcases List.append_eq_append_iff.mp heq with ⟨l, hl, hr⟩ | ⟨l, hl, hr⟩
  · cases l with
    | nil =>
      cases hr
      exact ⟨rfl, rfl, rfl⟩
    | cons e l =>
      refine absurd ?_ hno
      rw [(List.cons.inj hr).2, setKeys, List.append_eq, List.map_append]
      exact List.mem_append_right _ List.mem_cons_self
  · cases l with
    | nil =>
      cases hr
      exact ⟨rfl, rfl, rfl⟩
    | cons e l =>
      refine absurd ?_ hno'
      rw [(List.cons.inj hr).2, setKeys, List.append_eq, List.map_append]
      exact List.mem_append_right _ List.mem_cons_self

theorem exists_of_mem (h : key ∈ setKeys sets) :
    ∃ time value since, LastSet sets key time value since := by
  induction sets with
  | nil => cases h
  | cons e sets ih =>
    by_cases hin : key ∈ setKeys sets
    · obtain ⟨time, value, since, ⟨pre, rfl⟩, hno⟩ := ih hin
      exact ⟨time, value, since, ⟨e :: pre, rfl⟩, hno⟩
    · obtain ⟨t, k, v⟩ := e
      obtain rfl : key = k := (List.mem_cons.mp h).resolve_right hin
      exact ⟨t, v, sets, ⟨[], rfl⟩, hin⟩

/-- The last `Set` of a key that was set since is in `since`. -/
theorem of_since (h : LastSet sets key time value since) {key' : Bytes}
    (h' : LastSet since key' time' value' since') : LastSet sets key' time' value' since' := by
  obtain ⟨⟨pre, rfl⟩, -⟩ := h
  obtain ⟨⟨pre', rfl⟩, hno'⟩ := h'
  exact ⟨⟨pre ++ (time, key, value) :: pre', by simp⟩, hno'⟩

theorem concat_self (h : LastSet (sets ++ [(time', key, value')]) key time value since) :
    time = time' ∧ value = value' ∧ since = [] :=
  h.unique ⟨⟨sets, rfl⟩, List.not_mem_nil⟩

theorem concat_iff {key' : Bytes} (hne : key ≠ key') :
    LastSet (sets ++ [(time', key', value')]) key time value since ↔
      ∃ since₀, since = since₀ ++ [(time', key', value')] ∧ LastSet sets key time value since₀ := by
  constructor
  · rintro ⟨⟨pre, heq⟩, hno⟩
    rcases List.eq_nil_or_concat' since with rfl | ⟨since₀, e, rfl⟩
    · have := (List.append_inj_right' heq rfl)
      cases this
      exact absurd rfl hne
    · rw [← List.cons_append, ← List.append_assoc] at heq
      obtain ⟨hl, hr⟩ := List.append_inj' heq rfl
      cases hr
      refine ⟨since₀, rfl, ⟨pre, hl⟩, fun hmem => hno ?_⟩
      rw [setKeys, List.map_append]
      exact List.mem_append_left _ hmem
  · rintro ⟨since₀, rfl, ⟨pre, rfl⟩, hno⟩
    refine ⟨⟨pre, by simp⟩, fun hmem => ?_⟩
    rw [setKeys, List.map_append] at hmem
    rcases List.mem_append.mp hmem with hmem | hmem
    · exact hno hmem
    · exact hne (List.mem_singleton.mp hmem)

/-- The other keys set since are those after the key in the order of the last `Set`. -/
theorem dedup_keys (h : LastSet sets key time value since) :
    ∃ older, (setKeys sets).dedup = older ++ key :: (setKeys since).dedup := by
  obtain ⟨⟨pre, rfl⟩, hno⟩ := h
  have hkeys : setKeys (pre ++ (time, key, value) :: since) =
      setKeys pre ++ key :: setKeys since := by
    rw [setKeys, List.map_append]
    rfl
  rw [hkeys, List.dedup_append, List.dedup_cons_of_notMem hno]
  obtain ⟨older, holder⟩ := List.suffix_union_right (setKeys pre) (key :: (setKeys since).dedup)
  exact ⟨older, holder.symm⟩

/-- A key that was set since has fewer keys after it. -/
theorem since_lt (h : LastSet since key time value since') :
    (setKeys since').dedup.length < (setKeys since).dedup.length := by
  obtain ⟨older, holder⟩ := h.dedup_keys
  rw [holder, List.length_append, List.length_cons]
  omega

end LastSet

/-! ### The invariant -/

/-- What the loop of `Set` drops of `n` entries. -/
def overCap (max : ℤ) (n : ℕ) : ℕ := if 0 < max then n - max.toNat else 0

theorem overCap_le_iff {max : ℤ} {a c : ℕ} :
    overCap max (a + (c + 1)) ≤ a ↔ max ≤ 0 ∨ (c : ℤ) < max := by
  rw [overCap]
  split <;> omega

theorem TTLMap.go_items {max : ℤ} : ∀ (l : List (Bytes × TTLEntry β))
    (h : (l.map Prod.fst).Nodup),
    (TTLMap.dropOldest.go max l h).items = l.drop (overCap max l.length) := by
  intro l
  induction l with
  | nil =>
    intro h
    rw [TTLMap.dropOldest.go, List.drop_nil]
  | cons e rest ih =>
    intro h
    rw [TTLMap.dropOldest.go]
    by_cases hover : 0 < max ∧ max < (e :: rest).length
    · have hsucc : overCap max (e :: rest).length = overCap max rest.length + 1 := by
        rw [overCap, overCap, if_pos hover.1, if_pos hover.1, List.length_cons]
        have := hover.2
        rw [List.length_cons] at this
        omega
      rw [if_pos hover, ih, hsucc, List.drop_succ_cons]
    · have hzero : overCap max (e :: rest).length = 0 := by
        rw [overCap]
        split
        · next hpos =>
          have := not_and.mp hover hpos
          omega
        · rfl
      rw [if_neg hover, hzero, List.drop_zero]

theorem TTLMap.set_items (d : TTLMap β) (now : ℕ) (key : Bytes) (value : β) :
    (d.set now key value).items.items =
      List.drop (overCap d.max ((d.items.items.filter (·.1 ≠ key)).length + 1))
        (d.items.items.filter (·.1 ≠ key) ++ [(key, (⟨now + d.ttl, value⟩ : TTLEntry β))]) := by
  have hitems := OrderedDict.moveToEnd_set_items' d.items key (⟨now + d.ttl, value⟩ : TTLEntry β)
  show (TTLMap.dropOldest.go d.max _ _).items = _
  rw [TTLMap.go_items, hitems, List.length_append, List.length_singleton]

theorem TTLMap.set_keys (d : TTLMap β) (now : ℕ) (key : Bytes) (value : β) :
    (d.set now key value).items.keys = (d.items.keys.filter (· ≠ key) ++ [key]).drop
      (overCap d.max ((d.items.keys.filter (· ≠ key)).length + 1)) := by
  rw [OrderedDict.keys, TTLMap.set_items, List.map_drop, List.map_append,
    ← OrderedDict.keys_filter, List.length_map]
  rfl

/-- After `Set`, a key has its new entry or the one it had. -/
theorem TTLMap.get?_set {m : TTLMap β} {now : ℕ} {key k : Bytes} {value : β}
    {e : TTLEntry β} (h : (m.set now key value).items.get? k = some e) :
    (k = key ∧ e = ⟨now + m.ttl, value⟩) ∨ (k ≠ key ∧ m.items.get? k = some e) := by
  rw [OrderedDict.get?_eq_some, TTLMap.set_items] at h
  rcases List.mem_append.mp (List.mem_of_mem_drop h) with hold | hnew
  · obtain ⟨hin, hne⟩ := List.mem_filter.mp hold
    exact Or.inr ⟨of_decide_eq_true hne, OrderedDict.get?_eq_some.mpr hin⟩
  · cases List.mem_singleton.mp hnew
    exact Or.inl ⟨rfl, rfl⟩

/-- `Get` returns what is stored and has not expired. -/
theorem TTLMap.get_eq_some {m : TTLMap β} {now : ℕ} {key : Bytes} {value : β} :
    (m.get now key).1 = some value ↔
      ∃ e, m.items.get? key = some e ∧ e.value = value ∧ now < e.expiry := by
  rw [TTLMap.get]
  cases m.items.get? key with
  | none => simp
  | some e => by_cases hlive : now < e.expiry <;> simp [hlive]

/-- It stores nothing. -/
theorem TTLMap.get_snd {m : TTLMap β} {now : ℕ} {key k : Bytes} {e : TTLEntry β}
    (h : (m.get now key).2.items.get? k = some e) : m.items.get? k = some e := by
  rw [TTLMap.get] at h
  cases hg : m.items.get? key with
  | none =>
    rw [hg] at h
    exact h
  | some e' =>
    simp only [hg] at h
    split at h
    · exact h
    · rw [OrderedDict.get?_eq_some, OrderedDict.pop_items, List.mem_filter] at h
      exact OrderedDict.get?_eq_some.mpr h.1

theorem TTLMap.get_ttl (m : TTLMap β) (now : ℕ) (key : Bytes) :
    (m.get now key).2.ttl = m.ttl := by
  rw [TTLMap.get]
  split
  · rfl
  · split <;> rfl

/-- An element of a list without repetitions is left by what drops no more than is before it. -/
theorem mem_drop_iff {l r : List Bytes} {k : Bytes} (h : (l ++ k :: r).Nodup) (n : ℕ) :
    k ∈ (l ++ k :: r).drop n ↔ n ≤ l.length := by
  rw [List.drop_append, List.mem_append]
  have hl : k ∉ l := fun hmem => (List.nodup_append'.mp h).2.2 hmem List.mem_cons_self
  have hr : k ∉ r := (List.nodup_cons.mp (List.nodup_append'.mp h).2.1).1
  have hno : k ∉ l.drop n := fun hmem => hl (List.mem_of_mem_drop hmem)
  constructor
  · intro hmem
    by_contra hlt
    obtain ⟨j, hj⟩ : ∃ j, n - l.length = j + 1 := ⟨n - l.length - 1, by omega⟩
    rw [hj, List.drop_succ_cons] at hmem
    exact hmem.elim hno fun hmem => hr (List.mem_of_mem_drop hmem)
  · intro hle
    rw [Nat.sub_eq_zero_of_le hle, List.drop_zero]
    exact Or.inr List.mem_cons_self

/-- The map after the `Set`s: its keys are in the order of their last `Set`, its entries are those
of the last `Set`s, and of the live keys it has just those that are not over the cap. -/
structure TTLMap.Inv (ttl : ℕ) (max : ℤ) (sets : Sets β) (now : ℕ) (d : TTLMap β) : Prop where
  hasTtl : d.ttl = ttl
  hasMax : d.max = max
  past : ∀ e ∈ sets, e.1 ≤ now
  sorted : sets.Pairwise fun e f => e.1 ≤ f.1
  recent : Recent (setKeys sets) d.items.keys
  entry : ∀ {k e}, d.items.get? k = some e →
    ∃ time since, LastSet sets k time e.value since ∧ e.expiry = time + ttl
  capped : 0 < max → (d.items.keys.length : ℤ) ≤ max
  live : ∀ {k time value since}, LastSet sets k time value since → now < time + ttl →
    (k ∈ d.items.keys ↔ max ≤ 0 ∨ ((setKeys since).dedup.length : ℤ) < max)

namespace TTLMap.Inv

variable {ttl : ℕ} {max : ℤ} {sets since : Sets β} {now now' time : ℕ} {d : TTLMap β}
  {key k : Bytes} {value : β}

/-- Keys set after a live one are live. -/
theorem time_le (hI : d.Inv ttl max sets now) (h : LastSet sets key time value since)
    {time' : ℕ} {value' : β} {since' : Sets β} (h' : LastSet since k time' value' since') :
    time ≤ time' := by
  have hsorted := hI.sorted
  obtain ⟨⟨pre, rfl⟩, -⟩ := h
  obtain ⟨⟨pre', rfl⟩, -⟩ := h'
  have hrest := (List.pairwise_append.mp hsorted).2.1
  exact List.rel_of_pairwise_cons hrest (List.mem_append_right _ List.mem_cons_self)

/-- Behind a live key the map has every key that was set after it. -/
theorem keys_eq (hI : d.Inv ttl max sets now) (h : LastSet sets key time value since)
    (hlive : now < time + ttl) (hmem : key ∈ d.items.keys) :
    ∃ older, d.items.keys = older ++ key :: (setKeys since).dedup := by
  obtain ⟨older, holder⟩ := h.dedup_keys
  have hroom := (hI.live h hlive).mp hmem
  have hin : ∀ k ∈ (setKeys since).dedup, k ∈ d.items.keys := by
    intro k hk
    obtain ⟨time', value', since', h'⟩ := LastSet.exists_of_mem (List.mem_dedup.mp hk)
    have hle := hI.time_le h h'
    have hlt := h'.since_lt
    refine (hI.live (h.of_since h') (by omega)).mpr ?_
    rcases hroom with hroom | hroom
    · exact Or.inl hroom
    · right
      omega
  -- the filter of `Recent` leaves them all
  have hall : ∀ p : Bytes → Bool, (∀ k ∈ d.items.keys, p k = true) →
      (setKeys since).dedup.filter p = (setKeys since).dedup :=
    fun p hp => List.filter_eq_self.mpr fun k hk => hp k (hin k hk)
  have hrec := hI.recent
  rw [Recent, holder, List.filter_append, List.filter_cons_of_pos (by simpa using hmem),
    hall] at hrec
  · exact ⟨_, hrec⟩
  · exact fun k hk => by simpa using hk

/-- Reading the clock later changes nothing. -/
theorem later (hI : d.Inv ttl max sets now) (hle : now ≤ now') : d.Inv ttl max sets now' where
  hasTtl := hI.hasTtl
  hasMax := hI.hasMax
  past e he := (hI.past e he).trans hle
  sorted := hI.sorted
  recent := hI.recent
  entry := hI.entry
  capped := hI.capped
  live h hlive := hI.live h (hle.trans_lt hlive)

theorem set (hI : d.Inv ttl max sets now) (hle : now ≤ now') (key : Bytes) (value : β) :
    (d.set now' key value).Inv ttl max (sets ++ [(now', key, value)]) now' := by
  have hkeys := TTLMap.set_keys d now' key value
  have hnd : (d.items.keys.filter (· ≠ key) ++ [key]).Nodup :=
    (d.items.nodup.filter _).append (List.nodup_singleton _) (by simp)
  have happ : setKeys (sets ++ [(now', key, value)]) = setKeys sets ++ [key] := by
    rw [setKeys, List.map_append]
    rfl
  refine ⟨hI.hasTtl, hI.hasMax, ?_, ?_, ?_, ?_, ?_, ?_⟩
  · intro e he
    rcases List.mem_append.mp he with he | he
    · exact (hI.past e he).trans hle
    · rw [List.mem_singleton.mp he]
  · refine List.pairwise_append.mpr ⟨hI.sorted, List.pairwise_singleton _ _, fun e he f hf => ?_⟩
    rw [List.mem_singleton.mp hf]
    exact (hI.past e he).trans hle
  · rw [happ, hkeys]
    exact (hI.recent.use key).sublist (List.drop_sublist _ _)
  · intro k e hget
    obtain ⟨rfl, rfl⟩ | ⟨hne, hold⟩ := TTLMap.get?_set hget
    · exact ⟨now', [], ⟨⟨sets, rfl⟩, List.not_mem_nil⟩, by rw [hI.hasTtl]⟩
    · obtain ⟨time, since, hlast, hexp⟩ := hI.entry hold
      exact ⟨time, _, (LastSet.concat_iff hne).mpr ⟨since, rfl, hlast⟩, hexp⟩
  · intro hpos
    rw [hkeys, List.length_drop, List.length_append, List.length_singleton, hI.hasMax, overCap,
      if_pos hpos]
    omega
  · intro k time v since hlast hlive
    rw [hkeys, hI.hasMax]
    by_cases hk : k = key
    · -- the key itself is the last
      subst hk
      obtain ⟨rfl, rfl, rfl⟩ := hlast.concat_self
      rw [mem_drop_iff hnd]
      exact overCap_le_iff
    · obtain ⟨since₀, rfl, hlast₀⟩ := (LastSet.concat_iff hk).mp hlast
      have hdedup : (setKeys (since₀ ++ [(now', key, value)])).dedup =
          (setKeys since₀).dedup.filter (· ≠ key) ++ [key] := by
        rw [setKeys, List.map_append]
        exact dedup_concat _ _
      rw [hdedup]
      have hiff := hI.live hlast₀ (hle.trans_lt hlive)
      by_cases hmem : k ∈ d.items.keys
      · obtain ⟨older, holder⟩ := hI.keys_eq hlast₀ (hle.trans_lt hlive) hmem
        rw [holder, List.filter_append, List.filter_cons_of_pos (by simpa using hk)] at hnd ⊢
        rw [List.append_assoc, List.cons_append] at hnd ⊢
        rw [mem_drop_iff hnd, List.length_append, List.length_cons, List.length_append,
          List.length_singleton, Nat.add_assoc]
        exact overCap_le_iff
      · -- what was over the cap stays so
        have hover := not_or.mp fun h => hmem (hiff.mpr h)
        have hlen : (setKeys since₀).dedup.length ≤
            ((setKeys since₀).dedup.filter (· ≠ key) ++ [key]).length := by
          have hone := List.le_length_erase (a := key) (l := (setKeys since₀).dedup)
          have herase : (setKeys since₀).dedup.erase key =
              (setKeys since₀).dedup.filter (· ≠ key) := by
            rw [(List.nodup_dedup _).erase_eq_filter key]
            exact List.filter_congr fun x _ => by by_cases hx : x = key <;> simp [hx]
          rw [herase] at hone
          rw [List.length_append, List.length_singleton]
          omega
        refine iff_of_false (fun h => ?_) (not_or.mpr ⟨hover.1, ?_⟩)
        · rcases List.mem_append.mp (List.mem_of_mem_drop h) with h | h
          · exact hmem (List.mem_of_mem_filter h)
          · exact hk (List.mem_singleton.mp h)
        · have := hover.2
          omega

theorem get (hI : d.Inv ttl max sets now) (hle : now ≤ now') (key : Bytes) :
    (d.get now' key).2.Inv ttl max sets now' := by
  rw [TTLMap.get]
  cases hg : d.items.get? key with
  | none => exact hI.later hle
  | some e =>
    simp only
    split
    · exact hI.later hle
    · next hexp =>
      have hkeys : (d.items.pop key).keys = d.items.keys.filter (· ≠ key) :=
        OrderedDict.keys_filter d.items key
      refine ⟨hI.hasTtl, hI.hasMax, (hI.later hle).past, hI.sorted, ?_, fun {k e} hget => ?_,
        fun hpos => ?_, fun {k time v since} hlast hlive => ?_⟩
      · rw [hkeys]
        exact hI.recent.sublist List.filter_sublist
      · rw [OrderedDict.get?_eq_some, OrderedDict.pop_items, List.mem_filter] at hget
        exact hI.entry (OrderedDict.get?_eq_some.mpr hget.1)
      · have := hI.capped hpos
        have hsub := List.length_filter_le (fun x => decide (x ≠ key)) d.items.keys
        rw [hkeys]
        omega
      · -- the key that goes is not live
        have hne : k ≠ key := by
          rintro rfl
          obtain ⟨time', since', hlast', hexp'⟩ := hI.entry hg
          obtain ⟨rfl, -, -⟩ := hlast.unique hlast'
          omega
        rw [hkeys, List.mem_filter, ← hI.live hlast (hle.trans_lt hlive)]
        exact and_iff_left (by simpa using hne)

/-- `Get` returns what it is to return. -/
theorem get_eq (hI : d.Inv ttl max sets now) (hle : now ≤ now') :
    (d.get now' key).1 = some value ↔ Retrieves ttl max sets now' key value := by
  rw [TTLMap.get_eq_some]
  constructor
  · rintro ⟨e, he, rfl, hlive⟩
    obtain ⟨time, since, hlast, hexp⟩ := hI.entry he
    rw [hexp] at hlive
    have hmem : key ∈ d.items.keys :=
      OrderedDict.mem_keys.mpr ⟨e, OrderedDict.get?_eq_some.mp he⟩
    exact ⟨time, since, hlast, hlive, (hI.live hlast (hle.trans_lt hlive)).mp hmem⟩
  · rintro ⟨time, since, hlast, hlive, hroom⟩
    obtain ⟨e, he⟩ := OrderedDict.mem_keys.mp
      ((hI.live hlast (hle.trans_lt hlive)).mpr hroom)
    rw [← OrderedDict.get?_eq_some] at he
    obtain ⟨time', since', hlast', hexp⟩ := hI.entry he
    obtain ⟨rfl, rfl, -⟩ := hlast.unique hlast'
    exact ⟨e, he, rfl, by rw [hexp]; exact hlive⟩

end TTLMap.Inv

/-! ### Runs -/

inductive TTLAct (β : Type*)
  | set (now : ℕ) (key : Bytes) (value : β)
  | get (now : ℕ) (key : Bytes)

/-- The struct, the time of the last call, and the history of the `Set`s. -/
structure TTLRun (β : Type*) where
  map : TTLCells β
  now : ℕ
  sets : Sets β

namespace TTLRun

def start (ttl : ℕ) (max : ℤ) : TTLRun β := ⟨.new ttl max, 0, []⟩

/-- The clock never goes back. -/
def step (s : TTLRun β) : TTLAct β → Option (TTLRun β)
  | .set now key value =>
    if s.now ≤ now then some ⟨s.map.set now key value, now, s.sets ++ [(now, key, value)]⟩
    else none
  | .get now key => if s.now ≤ now then some ⟨(s.map.get now key).2, now, s.sets⟩ else none

/-- The struct is a map that holds what its history says. -/
def Inv (ttl : ℕ) (max : ℤ) (s : TTLRun β) : Prop :=
  ∃ d : TTLMap β, s.map.Refines d ∧ d.Inv ttl max s.sets s.now

theorem inv_start (ttl : ℕ) (max : ℤ) : (start ttl max : TTLRun β).Inv ttl max := by
  refine ⟨.new ttl max, TTLCells.new_refines ttl max, rfl, rfl, nofun, List.Pairwise.nil, ?_, nofun,
    fun hpos => hpos.le, fun h => ?_⟩
  · rw [Recent]
    rfl
  · obtain ⟨⟨pre, heq⟩, -⟩ := h
    exact absurd heq (by simp [start])

theorem Inv.step {ttl : ℕ} {max : ℤ} {s s' : TTLRun β} {a : TTLAct β} (hI : s.Inv ttl max)
    (h : s.step a = some s') : s'.Inv ttl max := by
  obtain ⟨d, href, hd⟩ := hI
  cases a with
  | set now key value =>
    rw [TTLRun.step] at h
    split at h
    · next hle =>
      cases h
      exact ⟨d.set now key value, TTLCells.set_refines href now key value, hd.set hle key value⟩
    · cases h
  | get now key =>
    rw [TTLRun.step] at h
    split at h
    · next hle =>
      cases h
      exact ⟨(d.get now key).2, (TTLCells.get_refines href now key).2, hd.get hle key⟩
    · cases h

end TTLRun

/-- **The map equals its specification.**  After any sequence of `Set` and `Get`, the list is in
the order of the last `Set`s, the list and the map have the same keys, at most `max` of them, and
`Get` returns the value of the last `Set` of its key, unless that has expired or `max` other keys
have been set since. -/
theorem ttl_map_spec {ttl : ℕ} {max : ℤ} {as : List (TTLAct β)} {s : TTLRun β}
    (h : exec TTLRun.step (.start ttl max) as = some s) :
    Recent (setKeys s.sets) (s.map.order.map TTLCell.key) ∧
      (∀ k, k ∈ s.map.items ↔ k ∈ s.map.order.map TTLCell.key) ∧
      (0 < max → (s.map.order.length : ℤ) ≤ max) ∧
      ∀ now key value, s.now ≤ now →
        ((s.map.get now key).1 = some value ↔ Retrieves ttl max s.sets now key value) := by
  obtain ⟨d, href, hd⟩ := exec_always (TTLRun.Inv ttl max) (fun hI hstep => hI.step hstep)
    (TTLRun.inv_start ttl max) h
  have hkeys := href.keys
  refine ⟨by rw [hkeys]; exact hd.recent, href.wf.mem_items, fun hpos => ?_,
    fun now key value hle => ?_⟩
  · have := hd.capped hpos
    rwa [← hkeys, List.length_map] at this
  · rw [(TTLCells.get_refines href now key).1]
    exact hd.get_eq hle

/-- A cap of two, and a key that expires before it is looked up. -/
theorem ttl_map_spec_expired :
    ∃ s : TTLRun ℕ, exec TTLRun.step (.start 10 2)
        [.set 0 (lit "a") 1, .set 5 (lit "b") 2, .get 12 (lit "a"), .set 13 (lit "c") 3] = some s ∧
      (s.map.get 14 (lit "b")).1 = some 2 := by
  obtain ⟨s, hs, h⟩ := exec_of_any TTLRun.step (.start 10 2 : TTLRun ℕ)
    [.set 0 (lit "a") 1, .set 5 (lit "b") 2, .get 12 (lit "a"), .set 13 (lit "c") 3]
    (fun s => s.now = 13 ∧ s.sets = [(0, lit "a", 1), (5, lit "b", 2), (13, lit "c", 3)])
    (by decide +kernel)
  obtain ⟨hnow, hsets⟩ := of_decide_eq_true h
  have hspec := (ttl_map_spec hs).2.2.2 14 (lit "b") 2 (by rw [hnow]; decide)
  exact ⟨s, hs, hspec.mpr ⟨5, [(13, lit "c", 3)], ⟨⟨[(0, lit "a", 1)], hsets⟩, by decide⟩,
    by decide, Or.inr (by decide)⟩⟩

end XetDcCache
