/-
Insertion-ordered dictionaries.

An `OrderedDict` is a list of pairs whose keys are distinct, oldest first: `set` keeps
the place of a key that is there and appends one that is not, `moveToEnd` makes a key
the youngest, `pop` removes one.
-/
import Mathlib.Data.List.Basic
import Mathlib.Data.List.Nodup
import Mathlib.Data.List.Lookmap

structure OrderedDict (κ β : Type*) where
  items : List (κ × β)
  nodup : (items.map Prod.fst).Nodup

namespace OrderedDict

variable {κ β : Type*}

def empty : OrderedDict κ β := ⟨[], List.nodup_nil⟩

def keys (d : OrderedDict κ β) : List κ := d.items.map Prod.fst

/-- The oldest key. -/
def first? (d : OrderedDict κ β) : Option κ := d.items.head?.map Prod.fst

@[simp] theorem empty_items : (empty : OrderedDict κ β).items = [] := rfl

theorem mem_keys {d : OrderedDict κ β} {k : κ} : k ∈ d.keys ↔ ∃ v, (k, v) ∈ d.items := by
  rw [keys, List.mem_map]
  constructor
  · rintro ⟨⟨k', v⟩, hmem, rfl⟩
    exact ⟨v, hmem⟩
  · rintro ⟨v, hmem⟩
    exact ⟨(k, v), hmem, rfl⟩

variable [DecidableEq κ]

def get? (d : OrderedDict κ β) (k : κ) : Option β :=
  (d.items.find? fun e => e.1 = k).map Prod.snd

theorem get?_eq_some {d : OrderedDict κ β} {k : κ} {v : β} :
    d.get? k = some v ↔ (k, v) ∈ d.items := by
  rw [get?, Option.map_eq_some_iff]
  constructor
  · rintro ⟨⟨k', v'⟩, hfind, rfl⟩
    have hk := List.find?_some hfind
    rw [decide_eq_true_eq] at hk
    exact hk ▸ List.mem_of_find?_eq_some hfind
  · intro hmem
    obtain ⟨e, he⟩ : ∃ e, d.items.find? (fun e => e.1 = k) = some e :=
      Option.isSome_iff_exists.mp (List.find?_isSome.mpr ⟨(k, v), hmem, by simp⟩)
    have hk := List.find?_some he
    rw [decide_eq_true_eq] at hk
    have heq := List.inj_on_of_nodup_map d.nodup (List.mem_of_find?_eq_some he) hmem hk
    exact ⟨e, he, by rw [heq]⟩

theorem get?_eq_none {d : OrderedDict κ β} {k : κ} : d.get? k = none ↔ k ∉ d.keys := by
  rw [get?, Option.map_eq_none_iff, List.find?_eq_none, mem_keys, not_exists]
  constructor
  · intro h v hmem
    exact h (k, v) hmem (by simp)
  · rintro h ⟨k', v⟩ hmem hk
    rw [decide_eq_true_eq] at hk
    exact h v (hk ▸ hmem)

/-- What stays in place when a key goes. -/
theorem filter_keys_nodup (d : OrderedDict κ β) (k : κ) :
    ((d.items.filter (·.1 ≠ k)).map Prod.fst).Nodup :=
  (List.filter_sublist.map Prod.fst).nodup d.nodup

def pop (d : OrderedDict κ β) (k : κ) : OrderedDict κ β :=
  ⟨d.items.filter (·.1 ≠ k), d.filter_keys_nodup k⟩

@[simp] theorem pop_items (d : OrderedDict κ β) (k : κ) :
    (d.pop k).items = d.items.filter (·.1 ≠ k) := rfl

theorem get?_pop (d : OrderedDict κ β) (k k' : κ) :
    (d.pop k).get? k' = if k' = k then none else d.get? k' := by
  refine Option.ext fun w => ?_
  rw [get?_eq_some, pop_items, List.mem_filter]
  by_cases hk : k' = k
  · simp [hk]
  · simp [hk, get?_eq_some]

/-- The pairs that pass a test, in their order. -/
def filter (d : OrderedDict κ β) (p : κ × β → Bool) : OrderedDict κ β :=
  ⟨d.items.filter p, (List.filter_sublist.map Prod.fst).nodup d.nodup⟩

theorem get?_filter (d : OrderedDict κ β) (p : κ × β → Bool) (k : κ) :
    (d.filter p).get? k = (d.get? k).filter fun v => p (k, v) := by
  refine Option.ext fun w => ?_
  rw [get?_eq_some, filter, List.mem_filter, Option.filter_eq_some_iff, get?_eq_some]

theorem keys_filter (d : OrderedDict κ β) (k : κ) :
    (d.items.filter (·.1 ≠ k)).map Prod.fst = d.keys.filter (· ≠ k) := by
  rw [keys, List.filter_map]
  rfl

def moveToEnd (d : OrderedDict κ β) (k : κ) : OrderedDict κ β where
  items := d.items.filter (·.1 ≠ k) ++ d.items.filter (·.1 = k)
  nodup := by
    have hp : (d.items.filter (·.1 ≠ k) ++ d.items.filter (·.1 = k)).Perm d.items := by
      have h := List.filter_append_perm (fun e : κ × β => e.1 ≠ k) d.items
      simpa using h
    exact (hp.map Prod.fst).nodup_iff.mpr d.nodup

theorem get?_moveToEnd (d : OrderedDict κ β) (k k' : κ) :
    (d.moveToEnd k).get? k' = d.get? k' := by
  refine Option.ext fun w => ?_
  rw [get?_eq_some, get?_eq_some, moveToEnd, List.mem_append, List.mem_filter, List.mem_filter]
  by_cases hk : k' = k <;> simp [hk]

/-- The pairs with a key are the one pair with it. -/
theorem filter_eq_key {d : OrderedDict κ β} {k : κ} {v : β} (h : (k, v) ∈ d.items) :
    d.items.filter (·.1 = k) = [(k, v)] := by
  have hmem : ∀ e ∈ d.items.filter (·.1 = k), e = (k, v) := by
    intro e he
    obtain ⟨hin, hk⟩ := List.mem_filter.mp he
    exact List.inj_on_of_nodup_map d.nodup hin h (of_decide_eq_true hk)
  have hnd : (d.items.filter (·.1 = k)).Nodup := (List.Nodup.of_map _ d.nodup).filter _
  have hin : (k, v) ∈ d.items.filter (·.1 = k) := List.mem_filter.mpr ⟨h, by simp⟩
  cases hl : d.items.filter (·.1 = k) with
  | nil =>
    rw [hl] at hin
    cases hin
  | cons e rest =>
    rw [hl] at hmem hnd
    cases rest with
    | nil => rw [hmem e List.mem_cons_self]
    | cons e' rest =>
      have heq : e = e' := (hmem e List.mem_cons_self).trans
        (hmem e' (List.mem_cons_of_mem _ List.mem_cons_self)).symm
      rw [heq] at hnd
      exact absurd List.mem_cons_self (List.nodup_cons.mp hnd).1

theorem moveToEnd_items {d : OrderedDict κ β} {k : κ} {v : β} (h : (k, v) ∈ d.items) :
    (d.moveToEnd k).items = d.items.filter (·.1 ≠ k) ++ [(k, v)] := by
  show d.items.filter (·.1 ≠ k) ++ d.items.filter (·.1 = k) = _
  rw [filter_eq_key h]

/-- The pairs with the value of one key replaced. -/
def replaced (items : List (κ × β)) (k : κ) (v : β) : List (κ × β) :=
  items.map fun e => if e.1 = k then (k, v) else e

theorem replaced_keys (items : List (κ × β)) (k : κ) (v : β) :
    (replaced items k v).map Prod.fst = items.map Prod.fst := by
  rw [replaced, List.map_map]
  refine List.map_congr_left fun e _ => ?_
  by_cases he : e.1 = k <;> simp [he]

theorem replaced_of_notMem {items : List (κ × β)} {k : κ} (h : ∀ e ∈ items, e.1 ≠ k) (v : β) :
    replaced items k v = items := by
  conv_rhs => rw [← List.map_id items]
  exact List.map_congr_left fun e he => if_neg (h e he)

def set (d : OrderedDict κ β) (k : κ) (v : β) : OrderedDict κ β :=
  if h : k ∈ d.keys then ⟨replaced d.items k v, by rw [replaced_keys]; exact d.nodup⟩
  else ⟨d.items ++ [(k, v)], by
    rw [List.map_append, List.map_singleton]
    exact d.nodup.append (List.nodup_singleton k) (List.disjoint_singleton.mpr h)⟩

theorem set_items_new {d : OrderedDict κ β} {k : κ} (h : k ∉ d.keys) (v : β) :
    (d.set k v).items = d.items ++ [(k, v)] := by
  rw [set, dif_neg h]

theorem get?_set (d : OrderedDict κ β) (k k' : κ) (v : β) :
    (d.set k v).get? k' = if k' = k then some v else d.get? k' := by
  refine Option.ext fun w => ?_
  rw [get?_eq_some]
  by_cases h : k ∈ d.keys
  · obtain ⟨old, hold⟩ := mem_keys.mp h
    rw [set, dif_pos h]
    show (k', w) ∈ d.items.map (fun e => if e.1 = k then (k, v) else e) ↔ _
    rw [List.mem_map]
    by_cases hk : k' = k
    · rw [if_pos hk, hk, Option.some_inj]
      constructor
      · rintro ⟨e, -, he⟩
        by_cases hek : e.1 = k
        · rw [if_pos hek] at he
          exact (Prod.mk.inj he).2
        · rw [if_neg hek] at he
          exact absurd (congrArg Prod.fst he) hek
      · rintro rfl
        exact ⟨(k, old), hold, if_pos rfl⟩
    · rw [if_neg hk, get?_eq_some]
      constructor
      · rintro ⟨e, hmem, he⟩
        by_cases hek : e.1 = k
        · rw [if_pos hek] at he
          exact absurd (Prod.mk.inj he).1.symm hk
        · rw [if_neg hek] at he
          exact he ▸ hmem
      · exact fun hmem => ⟨(k', w), hmem, if_neg hk⟩
  · rw [set_items_new h, List.mem_append, List.mem_singleton, Prod.mk.injEq]
    by_cases hk : k' = k
    · have hno : (k, w) ∉ d.items := fun hmem => h (mem_keys.mpr ⟨w, hmem⟩)
      simp [hk, hno, eq_comm]
    · simp [hk, get?_eq_some]

/-- A key that is made the youngest and given a value. -/
theorem moveToEnd_set_items {d : OrderedDict κ β} {k : κ} (h : k ∈ d.keys) (v : β) :
    ((d.moveToEnd k).set k v).items = d.items.filter (·.1 ≠ k) ++ [(k, v)] := by
  obtain ⟨⟨k', w⟩, hmem, hk⟩ := List.mem_map.mp h
  have hw : (k, w) ∈ d.items := by
    have hk' : k' = k := hk
    exact hk' ▸ hmem
  have hitems := moveToEnd_items hw
  have hin : k ∈ (d.moveToEnd k).keys := by
    rw [keys, hitems]
    simp
  rw [set, dif_pos hin]
  show replaced (d.moveToEnd k).items k v = _
  rw [hitems, replaced, List.map_append]
  congr 1
  · exact replaced_of_notMem (fun e he => of_decide_eq_true (List.mem_filter.mp he).2) v
  · simp

/-- So for a key that is not there: it is appended either way. -/
theorem moveToEnd_set_items' (d : OrderedDict κ β) (k : κ) (v : β) :
    ((d.moveToEnd k).set k v).items = d.items.filter (·.1 ≠ k) ++ [(k, v)] := by
  by_cases h : k ∈ d.keys
  · exact moveToEnd_set_items h v
  · have hne : ∀ e ∈ d.items, e.1 ≠ k := fun e he hk => h (List.mem_map.mpr ⟨e, he, hk⟩)
    have hmove : (d.moveToEnd k).items = d.items.filter (·.1 ≠ k) := by
      show d.items.filter (·.1 ≠ k) ++ d.items.filter (·.1 = k) = _
      have hnil : d.items.filter (·.1 = k) = [] :=
        List.filter_eq_nil_iff.mpr fun e he => by simpa using hne e he
      rw [hnil, List.append_nil]
    rw [set_items_new, hmove]
    rw [keys, hmove, List.mem_map]
    rintro ⟨e, he, hk⟩
    exact hne e (List.mem_of_mem_filter he) hk

theorem get?_moveToEnd_set (d : OrderedDict κ β) (k k' : κ) (v : β) :
    ((d.moveToEnd k).set k v).get? k' = if k' = k then some v else d.get? k' := by
  refine Option.ext fun w => ?_
  rw [get?_eq_some, moveToEnd_set_items', List.mem_append, List.mem_filter, List.mem_singleton,
    Prod.mk.injEq]
  by_cases hk : k' = k
  · simp [hk, eq_comm]
  · simp [hk, get?_eq_some]

/-- The dictionary of pairs, read in their order. -/
def ofPairs (pairs : List (κ × β)) : OrderedDict κ β := pairs.foldl (fun d e => d.set e.1 e.2) empty

theorem foldl_set_items {d : OrderedDict κ β} {pairs : List (κ × β)}
    (h : ((d.items ++ pairs).map Prod.fst).Nodup) :
    (pairs.foldl (fun d e => d.set e.1 e.2) d).items = d.items ++ pairs := by
  induction pairs generalizing d with
  | nil => exact (List.append_nil _).symm
  | cons e pairs ih =>
    have hnew : e.1 ∉ d.keys := fun hmem => by
      rw [List.map_append, List.nodup_append'] at h
      exact h.2.2 hmem (List.mem_cons_self ..)
    have hset := set_items_new hnew e.2
    rw [List.foldl_cons, ih (by rw [hset, List.append_assoc]; exact h), hset, List.append_assoc]
    rfl

theorem ofPairs_items {pairs : List (κ × β)} (h : (pairs.map Prod.fst).Nodup) :
    (ofPairs pairs).items = pairs := foldl_set_items (d := empty) h

end OrderedDict
