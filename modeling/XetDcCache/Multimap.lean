/-
Multimaps with keys up to spelling.

A multimap is the list of its entries in order; `canon` gives the spelling that two keys share
exactly if they are one key.

* `values_set`, `values_filter` — the values of a key after an operation.
-/
import Mathlib.Data.List.Basic

namespace Multimap

variable {κ ν : Type*} [DecidableEq κ] (canon : κ → κ)

/-- The values of a key, in order. -/
def values (h : List (κ × ν)) (k : κ) : List ν :=
  (h.filter fun e => canon e.1 = canon k).map Prod.snd

/-- The first value of a key. -/
def get (h : List (κ × ν)) (k : κ) : Option ν := (values canon h k).head?

/-- A further value of a key. -/
def add (h : List (κ × ν)) (k : κ) (v : ν) : List (κ × ν) := h ++ [(k, v)]

/-- `v` as the one value of a key. -/
def set (h : List (κ × ν)) (k : κ) (v : ν) : List (κ × ν) :=
  (h.filter fun e => canon e.1 ≠ canon k) ++ [(k, v)]

variable {canon}

theorem values_congr {k k' : κ} (h : List (κ × ν)) (hk : canon k = canon k') :
    values canon h k = values canon h k' := by
  rw [values, values, hk]

theorem values_eq_nil {h : List (κ × ν)} {k : κ} :
    values canon h k = [] ↔ ∀ e ∈ h, canon e.1 ≠ canon k := by
  simp only [values, List.map_eq_nil_iff, List.filter_eq_nil_iff, decide_eq_true_eq, ne_eq]

theorem values_append (h h' : List (κ × ν)) (k : κ) :
    values canon (h ++ h') k = values canon h k ++ values canon h' k := by
  rw [values, List.filter_append, List.map_append, values, values]

variable (canon) in
/-- A filter by the key keeps all of a key's values or none. -/
theorem values_filter (p : κ → Bool) (h : List (κ × ν)) (k : κ) :
    values canon (h.filter fun e => p (canon e.1)) k =
      if p (canon k) then values canon h k else [] := by
  rw [values, List.filter_filter]
  by_cases hp : p (canon k)
  · rw [if_pos hp, values]
    congr 1
    refine List.filter_congr fun e _ => ?_
    by_cases he : canon e.1 = canon k <;> simp [he, hp]
  · rw [if_neg hp, List.map_eq_nil_iff, List.filter_eq_nil_iff]
    rintro e - he
    rw [Bool.and_eq_true, decide_eq_true_eq] at he
    exact hp (he.1 ▸ he.2)

theorem values_set (h : List (κ × ν)) (k k' : κ) (v : ν) :
    values canon (set canon h k v) k' =
      if canon k = canon k' then [v] else values canon h k' := by
  have hfilter := values_filter canon (fun c => c ≠ canon k) h k'
  rw [set, values_append, hfilter]
  by_cases hk : canon k = canon k'
  · simp [values, hk]
  · simp [values, hk, Ne.symm hk]

end Multimap
