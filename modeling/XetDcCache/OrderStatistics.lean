/-
Order statistics of a list.

`kth l k` is what a program reads at the index `k` of the sorted list.  It depends on the order of
nothing, and counting says which of the elements it is.

* `kth_perm` — the order of the list does not matter;
* `kth_spec` — there are more than `k` elements up to it, and at most `k` below it.
-/
import Mathlib.Data.List.Sort

namespace OrderStatistics

variable {α : Type*} [LinearOrder α] {l l' : List α} {i j k : ℕ} {x y : α}

def sorted (l : List α) : List α := l.mergeSort (· ≤ ·)

/-- The element at the index `k` of the sorted list. -/
def kth (l : List α) (k : ℕ) : Option α := (sorted l)[k]?

theorem sorted_perm (l : List α) : (sorted l).Perm l := List.mergeSort_perm l _

theorem sorted_eq_of_perm (h : l.Perm l') : sorted l = sorted l' :=
  List.Perm.eq_of_sortedLE List.sortedLE_mergeSort List.sortedLE_mergeSort
    ((sorted_perm l).trans (h.trans (sorted_perm l').symm))

theorem kth_perm (h : l.Perm l') (k : ℕ) : kth l k = kth l' k := by
  rw [kth, kth, sorted_eq_of_perm h]

theorem exists_kth (h : k < l.length) : ∃ x, kth l k = some x :=
  ⟨_, List.getElem?_eq_getElem (by rwa [(sorted_perm l).length_eq])⟩

theorem kth_mono (hij : i ≤ j) (hx : kth l i = some x) (hy : kth l j = some y) : x ≤ y := by
  obtain ⟨hi, rfl⟩ := List.getElem?_eq_some_iff.mp hx
  obtain ⟨hj, rfl⟩ := List.getElem?_eq_some_iff.mp hy
  exact List.SortedLE.getElem_le_getElem_of_le List.sortedLE_mergeSort hij

theorem kth_mem (h : kth l k = some x) : x ∈ l :=
  (sorted_perm l).mem_iff.mp (List.mem_of_getElem? h)

/-- The elements up to the one at `k`, and those below it. -/
theorem kth_spec (h : kth l k = some x) : k < l.countP (· ≤ x) ∧ l.countP (· < x) ≤ k := by
  obtain ⟨hk, hx⟩ := List.getElem?_eq_some_iff.mp h
  have hle {i : ℕ} (hi : i < (sorted l).length) (hik : i ≤ k) : (sorted l)[i] ≤ x :=
    hx ▸ List.SortedLE.getElem_le_getElem_of_le List.sortedLE_mergeSort hik
  have hge {i : ℕ} (hi : i < (sorted l).length) (hki : k ≤ i) : x ≤ (sorted l)[i] :=
    hx ▸ List.SortedLE.getElem_le_getElem_of_le List.sortedLE_mergeSort hki
  rw [← (sorted_perm l).countP_eq, ← (sorted_perm l).countP_eq]
  constructor
  · -- the first `k + 1` are up to it
    have htake : ((sorted l).take (k + 1)).countP (· ≤ x) = k + 1 := by
      rw [List.countP_eq_length.mpr, List.length_take, Nat.min_eq_left hk]
      intro y hy
      obtain ⟨i, hi, rfl⟩ := List.mem_iff_getElem.mp hy
      rw [List.length_take] at hi
      rw [List.getElem_take]
      exact decide_eq_true (hle _ (by omega))
    have hsub := (List.take_sublist (k + 1) (sorted l)).countP_le (p := fun y => decide (y ≤ x))
    omega
  · -- those from `k` on are not below it
    have hdrop : ((sorted l).drop k).countP (· < x) = 0 := by
      refine List.countP_eq_zero.mpr fun y hy => ?_
      obtain ⟨i, hi, rfl⟩ := List.mem_iff_getElem.mp hy
      rw [List.getElem_drop]
      simpa using hge _ (by omega)
    have htake : ((sorted l).take k).countP (· < x) ≤ k := by
      refine le_trans List.countP_le_length ?_
      rw [List.length_take]
      omega
    rw [← List.take_append_drop k (sorted l), List.countP_append, hdrop]
    omega

end OrderStatistics
