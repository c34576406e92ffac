/-
A queue of tasks and a bounded number of workers.

A free worker takes the task at the head of the queue; a worker ends its task whenever it likes, so
tasks end in any order.

* `WorkerPool.Inv` — every task is queued, at work or ended, and is so once; tasks are taken in
  their order, by no more workers than there are;
* `exists_take_or_finish` — a pool with a task that has not ended can move;
* `work` — and it can do so only so often.
-/
import Mathlib.Data.List.Perm.Basic

structure WorkerPool (T : Type*) where
  queue : List T
  busy : List T
  ended : List T

namespace WorkerPool

variable {T : Type*} {tasks : List T} {width : ℕ} {p p' : WorkerPool T} {t : T}

def start (tasks : List T) : WorkerPool T := ⟨tasks, [], []⟩

/-- A free worker takes a task. -/
def take (width : ℕ) (p : WorkerPool T) : Option (WorkerPool T) :=
  match p.queue with
  | [] => none
  | t :: queue =>
    if p.busy.length < width then some { p with queue := queue, busy := p.busy ++ [t] } else none

/-- The worker `i` ends its task. -/
def finish (i : ℕ) (p : WorkerPool T) : Option (T × WorkerPool T) :=
  p.busy[i]?.map fun t => (t, { p with busy := p.busy.eraseIdx i, ended := p.ended ++ [t] })

theorem take_eq_some_iff :
    p.take width = some p' ↔ ∃ t, p.queue = t :: p'.queue ∧ p.busy.length < width ∧
      p'.busy = p.busy ++ [t] ∧ p'.ended = p.ended := by
  obtain ⟨queue, busy, ended⟩ := p
  obtain ⟨queue', busy', ended'⟩ := p'
  cases queue with
  | nil => simp [take]
  | cons t queue =>
    by_cases hlt : busy.length < width
    · simp only [take, if_pos hlt, Option.some_inj, mk.injEq, List.cons_eq_cons]
      constructor
      · rintro ⟨rfl, rfl, rfl⟩
        exact ⟨t, ⟨rfl, rfl⟩, hlt, rfl, rfl⟩
      · rintro ⟨_, ⟨rfl, rfl⟩, -, rfl, rfl⟩
        exact ⟨rfl, rfl, rfl⟩
    · simp [take, hlt]

theorem finish_eq_some_iff {i : ℕ} :
    p.finish i = some (t, p') ↔ p.busy[i]? = some t ∧ p'.queue = p.queue ∧
      p'.busy = p.busy.eraseIdx i ∧ p'.ended = p.ended ++ [t] := by
  obtain ⟨queue', busy', ended'⟩ := p'
  rw [finish, Option.map_eq_some_iff]
  constructor
  · rintro ⟨t', ht, heq⟩
    simp only [Prod.mk.injEq, mk.injEq] at heq
    obtain ⟨rfl, rfl, rfl, rfl⟩ := heq
    exact ⟨ht, rfl, rfl, rfl⟩
  · rintro ⟨ht, rfl, rfl, rfl⟩
    exact ⟨t, ht, rfl⟩

/-! ### What a pool keeps -/

/-- The pool was started with `tasks`, and has `width` workers. -/
structure Inv (tasks : List T) (width : ℕ) (p : WorkerPool T) : Prop where
  taken : ∃ taken, tasks = taken ++ p.queue ∧ (p.ended ++ p.busy).Perm taken
  bounded : p.busy.length ≤ width

theorem Inv.start (tasks : List T) (width : ℕ) : Inv tasks width (start tasks) :=
  ⟨⟨[], rfl, List.Perm.nil⟩, Nat.zero_le width⟩

theorem Inv.take (h : Inv tasks width p) (htake : p.take width = some p') :
    Inv tasks width p' := by
  obtain ⟨t, hqueue, hlt, hbusy, hended⟩ := take_eq_some_iff.mp htake
  obtain ⟨taken, htasks, hperm⟩ := h.taken
  refine ⟨⟨taken ++ [t], ?_, ?_⟩, ?_⟩
  · rw [htasks, hqueue, List.append_assoc, List.singleton_append]
  · rw [hended, hbusy, ← List.append_assoc]
    exact hperm.append_right [t]
  · rw [hbusy, List.length_append, List.length_singleton]
    omega

theorem perm_eraseIdx {l : List T} {i : ℕ} (h : l[i]? = some t) : l.Perm (t :: l.eraseIdx i) := by
  obtain ⟨hi, rfl⟩ := List.getElem?_eq_some_iff.mp h
  exact (List.getElem_cons_eraseIdx_perm hi).symm

theorem Inv.finish {i : ℕ} (h : Inv tasks width p) (hfinish : p.finish i = some (t, p')) :
    Inv tasks width p' := by
  obtain ⟨ht, hqueue, hbusy, hended⟩ := finish_eq_some_iff.mp hfinish
  obtain ⟨taken, htasks, hperm⟩ := h.taken
  have hbound := h.bounded
  refine ⟨⟨taken, by rw [htasks, hqueue], ?_⟩, ?_⟩
  · rw [hended, hbusy, List.append_assoc, List.singleton_append]
    exact ((perm_eraseIdx ht).append_left p.ended).symm.trans hperm
  · rw [hbusy, List.length_eraseIdx]
    split <;> omega

/-- Every task is at one place. -/
theorem Inv.perm (h : Inv tasks width p) : (p.ended ++ p.busy ++ p.queue).Perm tasks := by
  obtain ⟨taken, htasks, hperm⟩ := h.taken
  exact htasks ▸ hperm.append_right p.queue

/-! ### Progress -/

/-- The steps a pool can still take. -/
def work (p : WorkerPool T) : ℕ := 2 * p.queue.length + p.busy.length

theorem work_take (htake : p.take width = some p') : p'.work + 1 = p.work := by
  obtain ⟨t, hqueue, -, hbusy, -⟩ := take_eq_some_iff.mp htake
  simp only [work, hqueue, hbusy, List.length_append, List.length_cons, List.length_nil]
  omega

theorem work_finish {i : ℕ} (hfinish : p.finish i = some (t, p')) : p'.work + 1 = p.work := by
  obtain ⟨ht, hqueue, hbusy, -⟩ := finish_eq_some_iff.mp hfinish
  have hlength := (perm_eraseIdx ht).length_eq
  rw [List.length_cons] at hlength
  rw [work, work, hqueue, hbusy]
  omega

/-- A pool with workers does not stop before every task has ended. -/
theorem exists_take_or_finish (hwidth : 0 < width) (h : p.queue ≠ [] ∨ p.busy ≠ []) :
    (∃ p', p.take width = some p') ∨ ∃ x, p.finish 0 = some x := by
  obtain ⟨queue, busy, ended⟩ := p
  cases busy with
  | nil =>
    cases queue with
    | nil => simp at h
    | cons t queue =>
      exact Or.inl ⟨⟨queue, [t], ended⟩, take_eq_some_iff.mpr ⟨t, rfl, hwidth, rfl, rfl⟩⟩
  | cons t busy => exact Or.inr ⟨_, rfl⟩

end WorkerPool
