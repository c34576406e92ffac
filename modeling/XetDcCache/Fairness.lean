/-
Infinite runs and fairness.

A `Path` takes a step at each moment, or none.  `Path.Fair A` is strong fairness: if a step
in `A` can be taken again and again, then one is taken again and again.

* `Path.leads_to` — the rule for liveness: a variant that no step increases and the fair steps
  decrease;
* `Path.ofRun` — a finite run as a path, which stays where it ends.
-/
import Mathlib.Order.WellFounded
import XetDcCache.Transition

namespace Transition

variable {σ α : Type*} {step : σ → α → Option σ}

/-- At each moment it takes a step, or none. -/
structure Path (step : σ → α → Option σ) where
  state : ℕ → σ
  act : ℕ → Option α
  next : ∀ {k a}, act k = some a → step (state k) a = some (state (k + 1))
  idle : ∀ {k}, act k = none → state (k + 1) = state k

/-- Every moment with `P` is followed by one with `Q`. -/
def LeadsTo (P Q : ℕ → Prop) : Prop := ∀ k, P k → ∃ j ≥ k, Q j

namespace Path

/-- At this moment a step in `A` can be taken. -/
def Ready (π : Path step) (A : α → Prop) (k : ℕ) : Prop :=
  ∃ a, A a ∧ (step (π.state k) a).isSome

/-- At this moment a step in `A` is taken. -/
def Takes (π : Path step) (A : α → Prop) (k : ℕ) : Prop := ∃ a, A a ∧ π.act k = some a

/-- Strong fairness. -/
def Fair (π : Path step) (A : α → Prop) : Prop :=
  (∀ k, ∃ j ≥ k, π.Ready A j) → ∀ k, ∃ j ≥ k, π.Takes A j

/-- What holds at the start and is kept by every step holds at every moment. -/
theorem always {P : σ → Prop} (π : Path step)
    (hstep : ∀ {s a s'}, P s → step s a = some s' → P s') (h : P (π.state 0)) (k : ℕ) :
    P (π.state k) := by
  induction k with
  | zero => exact h
  | succ k ih =>
    cases ha : π.act k with
    | none => rwa [π.idle ha]
    | some a => exact hstep ih (π.next ha)

/-- Steps in `A` are taken fairly, every one of them decreases `μ`, and no other increases it. As
long as `P` holds, `μ` decreases or a step in `A` can be taken some time.  So `P` leads to
`Q`. -/
theorem leads_to {π : Path step} {A : α → Prop} {β : Type*} [Preorder β] [WellFoundedLT β]
    {P Q : ℕ → Prop} (μ : ℕ → β) (hfair : π.Fair A)
    (hkeep : ∀ {k}, P k → Q (k + 1) ∨
      P (k + 1) ∧ μ (k + 1) ≤ μ k ∧ (π.Takes A k → μ (k + 1) < μ k))
    (hready : ∀ {k}, P k → ∃ j ≥ k, Q j ∨ μ j < μ k ∨ π.Ready A j) : LeadsTo P Q := by
  intro k hk
  induction hv : μ k using WellFoundedLT.induction generalizing k with
  | ind v ih =>
    subst hv
    by_contra hno
    push Not at hno
    -- without `Q`, `P` persists and `μ` stays where it is
    have hstay : ∀ j ≥ k, P j ∧ μ j ≤ μ k := by
      intro j hj
      induction j, hj using Nat.le_induction with
      | base => exact ⟨hk, le_rfl⟩
      | succ j hj hind =>
        rcases hkeep hind.1 with hQ | ⟨hP, hle, -⟩
        · exact absurd hQ (hno (j + 1) (Nat.le_succ_of_le hj))
        · exact ⟨hP, hle.trans hind.2⟩
    have hflat : ∀ j ≥ k, ¬ μ j < μ k := by
      intro j hj hlt
      obtain ⟨i, hi, hQ⟩ := ih (μ j) hlt j (hstay j hj).1 rfl
      exact hno i (hj.trans hi) hQ
    have hagain : ∀ n, ∃ j ≥ n, π.Ready A j := by
      intro n
      obtain ⟨hP, hle⟩ := hstay (max n k) (le_max_right n k)
      obtain ⟨j, hj, hQ | hlt | hr⟩ := hready hP
      · exact absurd hQ (hno j ((le_max_right n k).trans hj))
      · exact absurd (hlt.trans_le hle) (hflat j ((le_max_right n k).trans hj))
      · exact ⟨j, (le_max_left n k).trans hj, hr⟩
    -- so the step that has to come cannot decrease it
    obtain ⟨j, hj, htakes⟩ := hfair hagain k
    obtain ⟨hP, hle⟩ := hstay j hj
    rcases hkeep hP with hQ | ⟨-, -, hlt⟩
    · exact hno (j + 1) (Nat.le_succ_of_le hj) hQ
    · exact hflat (j + 1) (Nat.le_succ_of_le hj) ((hlt htakes).trans_le hle)

/-! ### Finite runs -/

/-- The state of a run after `k` steps. -/
def after (step : σ → α → Option σ) (s : σ) (as : List α) (k : ℕ) : σ :=
  (exec step s (as.take k)).getD s

theorem exec_after {s s' : σ} {as : List α} (h : exec step s as = some s') (k : ℕ) :
    exec step s (as.take k) = some (after step s as k) := by
  rw [← List.take_append_drop k as] at h
  obtain ⟨t, ht, -⟩ := exec_append.mp h
  rw [after, ht, Option.getD_some]

theorem after_of_le {s s' : σ} {as : List α} (h : exec step s as = some s') {k : ℕ}
    (hk : as.length ≤ k) : after step s as k = s' := by
  rw [after, List.take_of_length_le hk, h, Option.getD_some]

/-- A run that stays where it ends. -/
def ofRun {s s' : σ} {as : List α} (h : exec step s as = some s') : Path step where
  state := after step s as
  act k := as[k]?
  next {k a} ha := by
    obtain ⟨hk, rfl⟩ := List.getElem?_eq_some_iff.mp ha
    have hnext := exec_after h (k + 1)
    rw [List.take_succ_eq_append_getElem hk] at hnext
    obtain ⟨t, ht, hlast⟩ := exec_append.mp hnext
    rw [exec_after h k, Option.some_inj] at ht
    obtain ⟨u, hu, hnil⟩ := exec_cons.mp hlast
    rw [exec_nil] at hnil
    rw [ht, hu, hnil]
  idle {k} ha := by
    have hk : as.length ≤ k := List.getElem?_eq_none_iff.mp ha
    rw [after_of_le h hk, after_of_le h (Nat.le_succ_of_le hk)]

/-- Of the moments after the end of a run the last one speaks. -/
theorem forall_ofRun {s s' : σ} {as : List α} (h : exec step s as = some s') {P : σ → Prop} {n : ℕ}
    (hn : n ≤ as.length) (hP : ∀ k ≤ as.length, n ≤ k → P (after step s as k)) {k : ℕ}
    (hk : n ≤ k) : P ((ofRun h).state k) := by
  rcases le_total k as.length with hle | hle
  · exact hP k hle hk
  · have hlast := hP as.length le_rfl hn
    rw [after_of_le h le_rfl] at hlast
    show P (after step s as k)
    rwa [after_of_le h hle]

/-- A run is fair to what cannot be done where it ends. -/
theorem fair_ofRun {s s' : σ} {as : List α} (h : exec step s as = some s') {A : α → Prop}
    (hend : ∀ a, A a → step s' a = none) : (ofRun h).Fair A := by
  intro hagain
  obtain ⟨j, hj, a, ha, hready⟩ := hagain as.length
  have hlast : (ofRun h).state j = s' := after_of_le h hj
  rw [hlast, hend a ha] at hready
  cases hready

end Path

end Transition
