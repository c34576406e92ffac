/-
Binary search (Go's package sort, `Search`).

`search f` halves the interval in which a predicate on `Fin n` turns true, so that the predicate
is only ever asked about an index in range.

* `search_le_iff` — where a predicate once true stays true, it is true just from the result on.
-/
import Mathlib.Order.Fin.Basic

namespace BinarySearch

variable {n : ℕ}

/-- The loop on the interval `[i, j)`. -/
def loop (f : Fin n → Bool) : ℕ → (i j : ℕ) → j ≤ n → ℕ
  | 0, i, _, _ => i
  | fuel + 1, i, j, hj =>
    if h : i < j then
      if f ⟨(i + j) / 2, by omega⟩ then loop f fuel i ((i + j) / 2) (by omega)
      else loop f fuel ((i + j) / 2 + 1) j hj
    else i

def search (f : Fin n → Bool) : ℕ := loop f n 0 n le_rfl

/-- Where an empty interval is, the predicate turns true. -/
theorem iff_of_meet {f : Fin n → Bool} {i : ℕ} (hlow : ∀ k : Fin n, k < i → ¬ f k)
    (hhigh : ∀ k : Fin n, i ≤ k → f k) (k : Fin n) : f k ↔ i ≤ k :=
  ⟨fun h => not_lt.mp fun hlt => hlow k hlt h, hhigh k⟩

/-- Before the interval the predicate is false and after it true, so it is where they meet. -/
theorem loop_spec {f : Fin n → Bool} (hf : ∀ {a b : Fin n}, a ≤ b → f a → f b)
    {fuel i j : ℕ} {hj : j ≤ n} (hij : i ≤ j) (hfuel : j - i ≤ fuel)
    (hlow : ∀ k : Fin n, k < i → ¬ f k) (hhigh : ∀ k : Fin n, j ≤ k → f k) :
    loop f fuel i j hj ≤ j ∧ ∀ k : Fin n, f k ↔ loop f fuel i j hj ≤ k := by
  fun_induction loop f fuel i j hj with
  | case1 i j hj =>
    have hmeet : i = j := by omega
    subst hmeet
    exact ⟨le_rfl, iff_of_meet hlow hhigh⟩
  | case2 fuel i j hj hlt hm ih =>
    obtain ⟨hle, hiff⟩ := ih (by omega) (by omega) hlow fun k hk => hf (Fin.le_def.mpr hk) hm
    exact ⟨by omega, hiff⟩
  | case3 fuel i j hj hlt hm ih =>
    refine ih (by omega) (by omega) (fun k hk hfk => hm ?_) hhigh
    exact hf (Fin.le_def.mpr (show (k : ℕ) ≤ (i + j) / 2 by omega)) hfk
  | case4 fuel i j hj hlt =>
    have hmeet : i = j := by omega
    subst hmeet
    exact ⟨le_rfl, iff_of_meet hlow hhigh⟩

theorem search_spec {f : Fin n → Bool} (hf : ∀ {a b : Fin n}, a ≤ b → f a → f b) :
    search f ≤ n ∧ ∀ k : Fin n, f k ↔ search f ≤ k :=
  loop_spec hf (Nat.zero_le n) le_rfl (fun _ hk => absurd hk (Nat.not_lt_zero _))
    fun k hk => absurd k.isLt (not_lt.mpr hk)

theorem search_le {f : Fin n → Bool} (hf : ∀ {a b : Fin n}, a ≤ b → f a → f b) : search f ≤ n :=
  (search_spec hf).1

/-- The result is the first index at which the predicate is true, `n` if there is none. -/
theorem search_le_iff {f : Fin n → Bool} (hf : ∀ {a b : Fin n}, a ≤ b → f a → f b) (k : Fin n) :
    search f ≤ k ↔ f k :=
  ((search_spec hf).2 k).symm

end BinarySearch
