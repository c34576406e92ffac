/-
Rounding to the nearest, with ties to even.

`halfEven a b` is the integer that Python's `round` and the hardware make of the quotient `a / b`,
and `nearestDouble n` the double next to a natural number; what can be said of a quotient whose
numerator was rounded before are the bounds of the two together.

* `halfEven_bounds` — it is off by half a unit at most;
* `nearestDouble_bounds` — a double is off by one part in `2 ^ 53` at most.
-/
import Mathlib.Data.Nat.Log
import Mathlib.Data.Nat.Size
import Mathlib.Tactic.Ring

namespace Rounding

/-- The natural number nearest to `a / b`, the even one of two. -/
def halfEven (a b : ℕ) : ℕ :=
  let q := a / b
  let r := a % b
  if 2 * r < b then q
  else if b < 2 * r then q + 1
  else if q % 2 = 0 then q else q + 1

theorem halfEven_bounds (a : ℕ) {b : ℕ} (hb : 0 < b) :
    2 * a ≤ 2 * b * halfEven a b + b ∧ 2 * b * halfEven a b ≤ 2 * a + b := by
  have hdiv : b * (a / b) + a % b = a := Nat.div_add_mod a b
  have hmod : a % b < b := Nat.mod_lt a hb
  have hsucc : 2 * b * (a / b + 1) = 2 * (b * (a / b)) + 2 * b := by ring
  have hquot : 2 * b * (a / b) = 2 * (b * (a / b)) := by ring
  simp only [halfEven]
  split
  · omega
  · split
    · omega
    · split <;> omega

/-- The double nearest to `n`: 53 bits of it. -/
def nearestDouble (n : ℕ) : ℕ :=
  let unit := 2 ^ (n.size - 53)
  halfEven n unit * unit

theorem nearestDouble_bounds (n : ℕ) :
    2 ^ 53 * n ≤ 2 ^ 53 * nearestDouble n + n ∧ 2 ^ 53 * nearestDouble n ≤ 2 ^ 53 * n + n := by
  have hpos : 0 < 2 ^ (n.size - 53) := Nat.two_pow_pos _
  obtain ⟨hlow, hhigh⟩ := halfEven_bounds n hpos
  have hvalue : 2 * 2 ^ (n.size - 53) * halfEven n (2 ^ (n.size - 53)) = 2 * nearestDouble n := by
    rw [nearestDouble]
    ring
  rw [hvalue] at hlow hhigh
  by_cases hsize : n.size ≤ 53
  · -- the unit is one, and nothing is lost
    have hsame : nearestDouble n = n := by
      rw [Nat.sub_eq_zero_of_le hsize, pow_zero] at hlow hhigh
      omega
    rw [hsame]
    omega
  · have hunit : 2 ^ 52 * 2 ^ (n.size - 53) ≤ n := by
      rw [← pow_add]
      refine Nat.lt_size.mp ?_
      omega
    omega

end Rounding
