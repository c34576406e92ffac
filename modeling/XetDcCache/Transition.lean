/-
Deterministic labelled transition systems.

A system is a partial step function `step : σ → α → Option σ`; the action
carries every choice the environment makes, so a run is the list of its
actions.

* `exec` — run a list of actions;
* `Along` — every step of a run meets a condition on the state before it;
* `exec_invariant` — a predicate kept by every step that meets the condition
  holds at the end of every run whose steps all meet it;
* `Inevitable` — every run ends, or can be continued, until it meets a predicate.
-/
import Mathlib.Data.List.Infix
import Mathlib.Data.Option.Basic

namespace Transition

variable {σ α : Type*} {step : σ → α → Option σ} {ok : σ → α → Prop}

/-- Run a list of actions. -/
def exec (step : σ → α → Option σ) : σ → List α → Option σ
  | s, [] => some s
  | s, a :: as => (step s a).bind fun s' => exec step s' as

/-- Every step of the run from `s` along `as` meets `ok` in the state before
it. -/
def Along (step : σ → α → Option σ) (ok : σ → α → Prop) : σ → List α → Prop
  | _, [] => True
  | s, a :: as => ok s a ∧ ∀ s' ∈ step s a, Along step ok s' as

/-- A condition that can be computed can be computed along a run. -/
instance decidableAlong [∀ s a, Decidable (ok s a)] :
    ∀ (as : List α) (s : σ), Decidable (Along step ok s as)
  | [], _ => .isTrue trivial
  | a :: as, s =>
    have : ∀ s', Decidable (Along step ok s' as) := decidableAlong as
    inferInstanceAs (Decidable (ok s a ∧ ∀ s' ∈ step s a, Along step ok s' as))

@[simp] theorem exec_nil (s : σ) : exec step s [] = some s := rfl

theorem exec_cons {s s'' : σ} {a : α} {as : List α} :
    exec step s (a :: as) = some s'' ↔
      ∃ s', step s a = some s' ∧ exec step s' as = some s'' := by
  rw [exec, Option.bind_eq_some_iff]

theorem exec_append {s s'' : σ} {as bs : List α} :
    exec step s (as ++ bs) = some s'' ↔
      ∃ s', exec step s as = some s' ∧ exec step s' bs = some s'' := by
  induction as generalizing s with
  | nil => simp
  | cons a as ih =>
    rw [List.cons_append, exec_cons]
    constructor
    · rintro ⟨t, ht, h⟩
      obtain ⟨s', hs', hb⟩ := ih.mp h
      exact ⟨s', exec_cons.mpr ⟨t, ht, hs'⟩, hb⟩
    · rintro ⟨s', h, hb⟩
      obtain ⟨t, ht, hs'⟩ := exec_cons.mp h
      exact ⟨t, ht, ih.mpr ⟨s', hs', hb⟩⟩

/-- A run whose end can be computed to meet `p` reaches a state that does. -/
theorem exec_of_any (step : σ → α → Option σ) (s : σ) (as : List α) (p : σ → Bool)
    (h : (exec step s as).any p) :
    ∃ s', exec step s as = some s' ∧ p s' := by
  cases hs : exec step s as with
  | none =>
    rw [hs] at h
    cases h
  | some s' =>
    rw [hs] at h
    exact ⟨s', rfl, h⟩

/-- Run lemma: what every step meeting `ok` preserves, a run whose steps all
meet `ok` preserves. -/
theorem exec_invariant (Inv : σ → Prop)
    (hstep : ∀ {s a s'}, Inv s → ok s a → step s a = some s' → Inv s') :
    ∀ {as : List α} {s s' : σ}, Inv s → Along step ok s as →
      exec step s as = some s' → Inv s' := by
  intro as
  induction as with
  | nil =>
    intro s s' hs _ h
    rw [exec_nil, Option.some_inj] at h
    exact h ▸ hs
  | cons a as ih =>
    intro s s' hs hok h
    obtain ⟨t, ht, hrest⟩ := exec_cons.mp h
    exact ih (hstep hs hok.1 ht) (hok.2 t ht) hrest

theorem along_true : ∀ {as : List α} {s : σ}, Along step (fun _ _ => True) s as := by
  intro as
  induction as with
  | nil =>
    intro s
    trivial
  | cons a as ih =>
    intro s
    exact ⟨trivial, fun _ _ => ih⟩

/-- What every step preserves, every run preserves. -/
theorem exec_always (Inv : σ → Prop) (hstep : ∀ {s a s'}, Inv s → step s a = some s' → Inv s')
    {as : List α} {s s' : σ} (hs : Inv s) (h : exec step s as = some s') : Inv s' :=
  exec_invariant Inv (fun hs _ ht => hstep hs ht) hs along_true h

/-- A condition on the actions alone. -/
theorem Along.of_forall : ∀ {as : List α} {s : σ}, (∀ a ∈ as, ∀ s, ok s a) →
    Along step ok s as := by
  intro as
  induction as with
  | nil =>
    intro s _
    trivial
  | cons a as ih =>
    intro s h
    exact ⟨h a List.mem_cons_self s, fun _ _ => ih fun b hb => h b (List.mem_cons_of_mem _ hb)⟩

/-- A condition that an invariant gives. -/
theorem along_of_invariant {Inv : σ → Prop}
    (hstep : ∀ {s a s'}, Inv s → step s a = some s' → Inv s') (hok : ∀ {s} a, Inv s → ok s a) :
    ∀ {as : List α} {s : σ}, Inv s → Along step ok s as := by
  intro as
  induction as with
  | nil => exact fun _ => trivial
  | cons a as ih => exact fun hs => ⟨hok a hs, fun t ht => ih (hstep hs ht)⟩

theorem along_append {as bs : List α} {s : σ} :
    Along step ok s (as ++ bs) ↔
      Along step ok s as ∧ ∀ t, exec step s as = some t → Along step ok t bs := by
  induction as generalizing s with
  | nil =>
    constructor
    · exact fun h => ⟨trivial, fun t ht => by rwa [← Option.some_inj.mp ht]⟩
    · exact fun h => h.2 s rfl
  | cons a as ih =>
    constructor
    · rintro ⟨ha, hrest⟩
      refine ⟨⟨ha, fun u hu => (ih.mp (hrest u hu)).1⟩, fun t ht => ?_⟩
      obtain ⟨u, hu, ht⟩ := exec_cons.mp ht
      exact (ih.mp (hrest u hu)).2 t ht
    · rintro ⟨⟨ha, has⟩, hbs⟩
      refine ⟨ha, fun u hu => ih.mpr ⟨has u hu, fun t ht => ?_⟩⟩
      exact hbs t (exec_cons.mpr ⟨u, hu, ht⟩)

theorem Along.and {ok' : σ → α → Prop} : ∀ {as : List α} {s : σ}, Along step ok s as →
    Along step ok' s as → Along step (fun s a => ok s a ∧ ok' s a) s as := by
  intro as
  induction as with
  | nil =>
    intro s _ _
    trivial
  | cons a as ih =>
    intro s h h'
    exact ⟨⟨h.1, h'.1⟩, fun s' hs' => ih (h.2 s' hs') (h'.2 s' hs')⟩

/-- A weaker condition on the steps is met by more runs. -/
theorem Along.mono {ok' : σ → α → Prop} (himp : ∀ s a, ok s a → ok' s a) :
    ∀ {as : List α} {s : σ}, Along step ok s as → Along step ok' s as := by
  intro as
  induction as with
  | nil =>
    intro s _
    trivial
  | cons a as ih =>
    intro s h
    exact ⟨himp s a h.1, fun s' hs' => ih (h.2 s' hs')⟩

/-- When a system meets `P` after every prefix of a run.  `Inv` is the invariant that carries
the induction: a step from it meets `ok` exactly if it keeps `P`, and then it keeps `Inv`. -/
theorem prefixes_iff_along {P Inv : σ → Prop} (himp : ∀ {s}, Inv s → P s)
    (hstep : ∀ {s a}, Inv s → ∃ s', step s a = some s' ∧ (ok s a → Inv s') ∧ (P s' → ok s a)) :
    ∀ {as : List α} {s : σ}, Inv s →
      ((∀ pre, pre <+: as → ∃ s', exec step s pre = some s' ∧ P s') ↔ Along step ok s as) := by
  intro as
  induction as with
  | nil =>
    intro s hs
    refine ⟨fun _ => trivial, fun _ pre hpre => ?_⟩
    rw [List.prefix_nil.mp hpre]
    exact ⟨s, rfl, himp hs⟩
  | cons a as ih =>
    intro s hs
    obtain ⟨s', hs', hkeep, hback⟩ := hstep hs (a := a)
    constructor
    · intro h
      have hok : ok s a := by
        obtain ⟨t, ht, hP⟩ := h [a] ⟨as, rfl⟩
        rw [exec, hs', Option.bind_some, exec_nil, Option.some_inj] at ht
        exact hback (ht ▸ hP)
      refine ⟨hok, fun t ht => ?_⟩
      rw [hs', Option.mem_some_iff] at ht
      subst ht
      refine (ih (hkeep hok)).mp fun pre hpre => ?_
      obtain ⟨t, ht, hP⟩ := h (a :: pre) (List.cons_prefix_cons.mpr ⟨rfl, hpre⟩)
      rw [exec, hs', Option.bind_some] at ht
      exact ⟨t, ht, hP⟩
    · rintro ⟨hok, hrest⟩ pre hpre
      cases pre with
      | nil => exact ⟨s, rfl, himp hs⟩
      | cons b pre =>
        obtain ⟨rfl, hpre'⟩ := List.cons_prefix_cons.mp hpre
        obtain ⟨t, ht, hP⟩ := (ih (hkeep hok)).mpr (hrest s' hs') pre hpre'
        exact ⟨t, exec_cons.mpr ⟨s', hs', ht⟩, hP⟩

/-- When a run meets `P` after every prefix.  `Inv` is kept by every step that meets `bg`, and
from it such a step keeps `P` exactly if it meets `ok`. -/
theorem always_iff_along {P Inv : σ → Prop} {bg : σ → α → Prop}
    (hstep : ∀ {s a s'}, Inv s → P s → bg s a → step s a = some s' → Inv s' ∧ (P s' ↔ ok s a)) :
    ∀ {as : List α} {s s' : σ}, Inv s → P s → Along step bg s as → exec step s as = some s' →
      ((∀ pre, pre <+: as → ∀ t, exec step s pre = some t → P t) ↔ Along step ok s as) := by
  intro as
  induction as with
  | nil =>
    intro s s' _ hP _ _
    refine ⟨fun _ => trivial, fun _ pre hpre t ht => ?_⟩
    rw [List.prefix_nil.mp hpre, exec_nil, Option.some_inj] at ht
    exact ht ▸ hP
  | cons a as ih =>
    intro s s' hI hP hbg h
    obtain ⟨u, hu, hrest⟩ := exec_cons.mp h
    obtain ⟨hI', hiff⟩ := hstep hI hP hbg.1 hu
    constructor
    · intro hall
      have hPu : P u := hall [a] ⟨as, rfl⟩ u (exec_cons.mpr ⟨u, hu, rfl⟩)
      refine ⟨hiff.mp hPu, fun t ht => ?_⟩
      rw [hu, Option.mem_some_iff] at ht
      subst ht
      refine (ih hI' hPu (hbg.2 u hu) hrest).mp fun pre hpre t ht => ?_
      exact hall (a :: pre) (List.cons_prefix_cons.mpr ⟨rfl, hpre⟩) t (exec_cons.mpr ⟨u, hu, ht⟩)
    · rintro ⟨hok, hoks⟩ pre hpre t ht
      cases pre with
      | nil =>
        rw [exec_nil, Option.some_inj] at ht
        exact ht ▸ hP
      | cons b pre =>
        obtain ⟨rfl, hpre'⟩ := List.cons_prefix_cons.mp hpre
        obtain ⟨v, hv, ht'⟩ := exec_cons.mp ht
        rw [hu, Option.some_inj] at hv
        subst hv
        exact (ih hI' (hiff.mpr hok) (hbg.2 u hu) hrest).mpr (hoks u hu) pre hpre' t ht'

/-- When a run ends in `P`.  From the invariant a step ends in `P` exactly if it starts there and
meets `ok`: what was lost does not come back. -/
theorem exec_iff_along {P Inv : σ → Prop}
    (hstep : ∀ {s a s'}, Inv s → step s a = some s' → Inv s' ∧ (P s' ↔ P s ∧ ok s a)) :
    ∀ {as : List α} {s s' : σ}, Inv s → exec step s as = some s' →
      (P s' ↔ P s ∧ Along step ok s as) := by
  intro as
  induction as with
  | nil =>
    intro s s' _ h
    rw [exec_nil, Option.some_inj] at h
    subst h
    exact (and_iff_left trivial).symm
  | cons a as ih =>
    intro s s' hI h
    obtain ⟨t, ht, hrest⟩ := exec_cons.mp h
    obtain ⟨hI', hiff⟩ := hstep hI ht
    rw [ih hI' hrest, hiff, and_assoc]
    refine and_congr_right fun _ => and_congr_right fun _ => ?_
    constructor
    · intro halong u hu
      rw [ht, Option.mem_some_iff] at hu
      exact hu ▸ halong
    · exact fun halong => halong t ht

/-- What a step cannot do without leaving `P`, no step of a run does that meets `P` after every
prefix. -/
theorem along_of_always {P : σ → Prop} {bg : σ → α → Prop}
    (hback : ∀ {s a s'}, bg s a → step s a = some s' → P s' → ok s a) :
    ∀ {as : List α} {s s' : σ}, Along step bg s as → exec step s as = some s' →
      (∀ pre, pre <+: as → ∀ t, exec step s pre = some t → P t) → Along step ok s as := by
  intro as
  induction as with
  | nil => exact fun _ _ _ => trivial
  | cons a as ih =>
    intro s s' hbg h hall
    obtain ⟨u, hu, hrest⟩ := exec_cons.mp h
    have hPu : P u := hall [a] ⟨as, rfl⟩ u (exec_cons.mpr ⟨u, hu, rfl⟩)
    refine ⟨hback hbg.1 hu hPu, fun t ht => ?_⟩
    rw [hu, Option.mem_some_iff] at ht
    subst ht
    refine ih (hbg.2 u hu) hrest fun pre hpre t ht => ?_
    exact hall (a :: pre) (List.cons_prefix_cons.mpr ⟨rfl, hpre⟩) t (exec_cons.mpr ⟨u, hu, ht⟩)

/-- The steps of a prefix of a run are steps of the run. -/
theorem Along.of_prefix {as pre : List α} {s : σ} (h : Along step ok s as) (hpre : pre <+: as) :
    Along step ok s pre := by
  obtain ⟨rest, rfl⟩ := hpre
  exact (along_append.mp h).1

/-- Some run leads from `s` to `s'`. -/
def Reaches (step : σ → α → Option σ) (s s' : σ) : Prop := ∃ as, exec step s as = some s'

theorem Reaches.refl (s : σ) : Reaches step s s := ⟨[], rfl⟩

theorem Reaches.of_step {s s' : σ} {a : α} (h : step s a = some s') : Reaches step s s' :=
  ⟨[a], exec_cons.mpr ⟨s', h, rfl⟩⟩

theorem Reaches.trans {s t u : σ} (h : Reaches step s t) (h' : Reaches step t u) :
    Reaches step s u := by
  obtain ⟨as, has⟩ := h
  obtain ⟨bs, hbs⟩ := h'
  exact ⟨as ++ bs, exec_append.mpr ⟨t, has, hbs⟩⟩

/-! ### What is bound to happen -/

/-- Whatever steps are taken, `P` is met after finitely many, and none is missing before. -/
inductive Inevitable (step : σ → α → Option σ) (P : σ → Prop) : σ → Prop
  | now {s : σ} (h : P s) : Inevitable step P s
  | next {s : σ} (hsome : ∃ a s', step s a = some s')
    (hall : ∀ a s', step s a = some s' → Inevitable step P s') : Inevitable step P s

/-- A measure that every step before `P` decreases. -/
theorem inevitable_of_measure {Inv P : σ → Prop} (μ : σ → ℕ)
    (hstep : ∀ {s a s'}, Inv s → ¬ P s → step s a = some s' → Inv s' ∧ μ s' < μ s)
    (hprogress : ∀ {s}, Inv s → ¬ P s → ∃ a s', step s a = some s') {s : σ} (hs : Inv s) :
    Inevitable step P s := by
  induction hn : μ s using Nat.strong_induction_on generalizing s with
  | _ n ih =>
    by_cases hP : P s
    · exact .now hP
    · refine .next (hprogress hs hP) fun a s' h => ?_
      obtain ⟨hs', hlt⟩ := hstep hs hP h
      exact ih (μ s') (hn ▸ hlt) hs' rfl

/-- Where `P` is final, a run leads to a state from which it is still bound to happen. -/
theorem Inevitable.reaches {P : σ → Prop} (hfinal : ∀ {s a}, P s → step s a = none) {s s' : σ}
    (hs : Inevitable step P s) (h : Reaches step s s') : Inevitable step P s' := by
  obtain ⟨as, h⟩ := h
  induction as generalizing s with
  | nil =>
    rw [exec_nil, Option.some_inj] at h
    exact h ▸ hs
  | cons a as ih =>
    obtain ⟨t, ht, hrest⟩ := exec_cons.mp h
    cases hs with
    | now hP =>
      rw [hfinal hP] at ht
      cases ht
    | next _ hall => exact ih (hall a t ht) hrest

/-- A run that has come to an end has met `P`. -/
theorem Inevitable.of_stuck {P : σ → Prop} {s : σ} (hs : Inevitable step P s)
    (hstuck : ∀ a, step s a = none) : P s := by
  cases hs with
  | now hP => exact hP
  | next hsome _ =>
    obtain ⟨a, s', h⟩ := hsome
    rw [hstuck a] at h
    cases h

end Transition
