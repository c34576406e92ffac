/-
Exponentially weighted moving averages.

`ewma α xs` starts at the first sample and blends in each later one with weight `α`.

* `ewma_between` — it lies between any two bounds of the samples;
* `ewma_mono` — it grows with every one of them.
-/
import Mathlib.Algebra.Order.Ring.Defs
import Mathlib.Data.List.Forall2
import Mathlib.Tactic.Ring
import Mathlib.Tactic.GCongr

namespace Ewma

variable {K : Type*} [CommRing K] [LinearOrder K] [IsStrictOrderedRing K] {α : K}

/-- The average with one sample more, `none` before the first. -/
def next (α : K) : Option K → K → K
  | none, x => x
  | some cur, x => α * x + (1 - α) * cur

/-- The average of the samples after `cur`. -/
def ewmaFrom (α : K) (cur : Option K) (xs : List K) : Option K :=
  xs.foldl (fun cur x => some (next α cur x)) cur

def ewma (α : K) (xs : List K) : Option K := ewmaFrom α none xs

omit [LinearOrder K] [IsStrictOrderedRing K] in
theorem ewmaFrom_cons (cur : Option K) (x : K) (xs : List K) :
    ewmaFrom α cur (x :: xs) = ewmaFrom α (some (next α cur x)) xs := rfl

omit [LinearOrder K] [IsStrictOrderedRing K] in
theorem ewmaFrom_isSome (cur : Option K) (xs : List K) :
    (ewmaFrom α cur xs).isSome ↔ cur.isSome ∨ xs ≠ [] := by
  induction xs generalizing cur with
  | nil => simp [ewmaFrom]
  | cons x xs ih =>
    rw [ewmaFrom_cons, ih]
    simp

omit [LinearOrder K] [IsStrictOrderedRing K] in
theorem ewma_isSome (xs : List K) : (ewma α xs).isSome ↔ xs ≠ [] := by
  rw [ewma, ewmaFrom_isSome]
  simp

/-- A blend is between what it is made of. -/
theorem next_between (h0 : 0 ≤ α) (h1 : α ≤ 1) {cur : Option K} {x lo hi : K}
    (hcur : ∀ m ∈ cur, lo ≤ m ∧ m ≤ hi) (hx : lo ≤ x ∧ x ≤ hi) :
    lo ≤ next α cur x ∧ next α cur x ≤ hi := by
  cases cur with
  | none => exact hx
  | some m =>
    obtain ⟨hlo, hhi⟩ := hcur m rfl
    have h1' : 0 ≤ 1 - α := sub_nonneg.mpr h1
    constructor
    · calc lo = α * lo + (1 - α) * lo := by ring
        _ ≤ α * x + (1 - α) * m := by gcongr; exact hx.1
    · calc α * x + (1 - α) * m ≤ α * hi + (1 - α) * hi := by gcongr; exact hx.2
        _ = hi := by ring

theorem ewmaFrom_between (h0 : 0 ≤ α) (h1 : α ≤ 1) {cur : Option K} {xs : List K} {lo hi : K}
    (hcur : ∀ m ∈ cur, lo ≤ m ∧ m ≤ hi) (hxs : ∀ x ∈ xs, lo ≤ x ∧ x ≤ hi) :
    ∀ m ∈ ewmaFrom α cur xs, lo ≤ m ∧ m ≤ hi := by
  induction xs generalizing cur with
  | nil => exact hcur
  | cons x xs ih =>
    rw [List.forall_mem_cons] at hxs
    refine ih (fun m hm => ?_) hxs.2
    rw [← Option.some_inj.mp hm]
    exact next_between h0 h1 hcur hxs.1

/-- The average is between the bounds of its samples. -/
theorem ewma_between (h0 : 0 ≤ α) (h1 : α ≤ 1) {xs : List K} {lo hi : K}
    (hxs : ∀ x ∈ xs, lo ≤ x ∧ x ≤ hi) : ∀ m ∈ ewma α xs, lo ≤ m ∧ m ≤ hi :=
  ewmaFrom_between h0 h1 (fun _ hm => by cases hm) hxs

/-- A blend grows with what it is made of. -/
theorem next_mono (h0 : 0 ≤ α) (h1 : α ≤ 1) {cur cur' : Option K} {x y : K}
    (hcur : cur.Rel (· ≤ ·) cur') (hxy : x ≤ y) : next α cur x ≤ next α cur' y := by
  cases hcur with
  | none => exact hxy
  | some hm =>
    have h1' : 0 ≤ 1 - α := sub_nonneg.mpr h1
    rw [next, next]
    gcongr

theorem ewmaFrom_mono (h0 : 0 ≤ α) (h1 : α ≤ 1) {cur cur' : Option K} {xs ys : List K}
    (hcur : cur.Rel (· ≤ ·) cur') (hxs : List.Forall₂ (· ≤ ·) xs ys) :
    (ewmaFrom α cur xs).Rel (· ≤ ·) (ewmaFrom α cur' ys) := by
  induction hxs generalizing cur cur' with
  | nil => exact hcur
  | cons hxy _ ih => exact ih (.some (next_mono h0 h1 hcur hxy))

/-- The average grows with each of its samples. -/
theorem ewma_mono (h0 : 0 ≤ α) (h1 : α ≤ 1) {xs ys : List K}
    (hxs : List.Forall₂ (· ≤ ·) xs ys) : (ewma α xs).Rel (· ≤ ·) (ewma α ys) :=
  ewmaFrom_mono h0 h1 .none hxs

end Ewma
