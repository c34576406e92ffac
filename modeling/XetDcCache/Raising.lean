/-
Computations that may raise.

A `Raising σ ε α` works on a state and returns or raises, and what it has done to the state
stays done either way.

* `Raising.Returns`, `Raising.Raises` — how a computation ends, and in which state;
* `returns_bind`, `raises_bind` — a sequence ends as its parts do;
* `Raising.Keeps` — what holds of the state however a computation ends.
-/
import Mathlib.Data.Option.Basic

universe u

def Raising (σ ε : Type*) (α : Type u) := σ → Except ε α × σ

namespace Raising

variable {σ ε : Type*} {α β : Type u}

protected def pure (a : α) : Raising σ ε α := fun s => (.ok a, s)

protected def bind (x : Raising σ ε α) (f : α → Raising σ ε β) : Raising σ ε β := fun s =>
  match x s with
  | (.ok a, s') => f a s'
  | (.error e, s') => (.error e, s')

instance : Monad (Raising σ ε) where
  pure := Raising.pure
  bind := Raising.bind

def raise (e : ε) : Raising σ ε α := fun s => (.error e, s)

def modify (f : σ → σ) : Raising σ ε Unit := fun s => (.ok (), f s)

/-- The value, if there is one. -/
def require (e : ε) : Option α → Raising σ ε α
  | some a => pure a
  | none => raise e

/-- The computation returns `a` and leaves the state `s'`. -/
def Returns (x : Raising σ ε α) (s : σ) (a : α) (s' : σ) : Prop := x s = (.ok a, s')

/-- The computation raises and leaves the state `s'`. -/
def Raises (x : Raising σ ε α) (s s' : σ) : Prop := ∃ e, x s = (.error e, s')

/-- From a state in `I`, the computation returns in `Q` or raises in `R`. -/
def Keeps (I : σ → Prop) (x : Raising σ ε α) (Q : α → σ → Prop) (R : σ → Prop) : Prop :=
  ∀ s, I s → (∀ a s', x.Returns s a s' → Q a s') ∧ ∀ s', x.Raises s s' → R s'

section Rules

variable {x : Raising σ ε α} {f : α → Raising σ ε β} {s s' : σ}

@[simp] theorem returns_pure {a b : α} :
    (pure a : Raising σ ε α).Returns s b s' ↔ a = b ∧ s = s' := by
  show (Except.ok a, s) = (Except.ok b, s') ↔ _
  simp

@[simp] theorem raises_pure {a : α} : ¬ (pure a : Raising σ ε α).Raises s s' := by
  rintro ⟨e, he⟩
  cases he

@[simp] theorem returns_raise {e : ε} {b : α} : ¬ (raise e : Raising σ ε α).Returns s b s' := by
  intro h
  cases h

@[simp] theorem raises_raise {e : ε} : (raise e : Raising σ ε α).Raises s s' ↔ s = s' := by
  constructor
  · rintro ⟨e', he⟩
    exact congrArg Prod.snd he
  · rintro rfl
    exact ⟨e, rfl⟩

@[simp] theorem returns_modify {g : σ → σ} {u : Unit} :
    (modify g : Raising σ ε Unit).Returns s u s' ↔ g s = s' := by
  show (Except.ok (), g s) = (Except.ok u, s') ↔ _
  simp

@[simp] theorem raises_modify {g : σ → σ} : ¬ (modify g : Raising σ ε Unit).Raises s s' := by
  rintro ⟨e, he⟩
  cases he

@[simp] theorem returns_require {e : ε} {o : Option α} {a : α} :
    (require e o : Raising σ ε α).Returns s a s' ↔ o = some a ∧ s = s' := by
  cases o <;> simp [require]

@[simp] theorem raises_require {e : ε} {o : Option α} :
    (require e o : Raising σ ε α).Raises s s' ↔ o = none ∧ s = s' := by
  cases o <;> simp [require]

@[simp] theorem returns_bind {b : β} :
    (x >>= f).Returns s b s' ↔ ∃ a s₁, x.Returns s a s₁ ∧ (f a).Returns s₁ b s' := by
  show Raising.bind x f s = _ ↔ _
  rw [Raising.bind]
  cases hx : x s with
  | mk res s₁ =>
    cases res with
    | ok a => simp [Returns, hx, and_assoc]
    | error e => simp [Returns, hx]

@[simp] theorem raises_bind :
    (x >>= f).Raises s s' ↔ x.Raises s s' ∨ ∃ a s₁, x.Returns s a s₁ ∧ (f a).Raises s₁ s' := by
  show (∃ e, Raising.bind x f s = _) ↔ _
  rw [Raising.bind]
  cases hx : x s with
  | mk res s₁ =>
    cases res with
    | ok a => simp [Raises, Returns, hx, and_assoc]
    | error e => simp [Raises, Returns, hx]

@[simp] theorem raises_ite {p : Prop} [Decidable p] {y : Raising σ ε α} :
    (if p then x else y).Raises s s' ↔ p ∧ x.Raises s s' ∨ ¬ p ∧ y.Raises s s' := by
  split <;> simp_all

end Rules

end Raising
