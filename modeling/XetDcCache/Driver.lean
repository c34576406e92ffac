/-
The workload driver (drive/run.py, the `jobs` of mechanisms/*.py).

The sequential jobs run one after the other, then the warm burst in a pool of threads.  What comes
of a job is part of its `Submission`; the steps of `Drive.step` are how the threads interleave.

* `Drive.Inv` — what is in the jobs file, and which jobs are still to come;
* `drive_run` — every run accounts for every job, and measures no cache before it is filled;
* `drive_report` — the report does not depend on how the threads interleave.
-/
import XetDcCache.Provision
import XetDcCache.Report
import XetDcCache.Transition
import XetDcCache.WorkerPool

namespace XetDcCache

open Transition

/-! ### The jobs -/

/-- The settings a drive reads besides. -/
structure DriveConfig extends TestbedConfig where
  overlap : OrderedDict Str (List Str)
  groups_eq : groups = overlap.keys
  burst : ℤ

structure GroupJob where
  group : Str
  model : Str
  phase : JobPhase
  replica : ℕ

def expandJobs (overlap : OrderedDict Str (List Str)) (burst : ℤ) : List GroupJob :=
  let cold := overlap.items.flatMap fun e => e.2.map fun m => ⟨e.1, m, .cold, 0⟩
  let warm := overlap.items.flatMap fun e => e.2.flatMap fun m =>
    (List.range burst.toNat).map fun r => ⟨e.1, m, .warm, r⟩
  cold ++ warm

def baselineMechanism : Str := "baseline".toList

def baselineJobs (models : List Str) : List Job :=
  models.map fun m => ⟨baselineMechanism, baselineLabel, none, m, .baseline, 0⟩

def ShimMechanism.jobs (cfg : DriveConfig) : List Job :=
  (expandJobs cfg.overlap cfg.burst).map fun j =>
    ⟨Mechanism.shim.name, j.group, some j.group, j.model, j.phase, j.replica⟩

def VolumeCacheMechanism.job (model : Str) (phase : JobPhase) (replica : ℕ) : Job :=
  ⟨Mechanism.volumecache.name, volumeLabel, none, model, phase, replica⟩

def VolumeCacheMechanism.jobs (cfg : DriveConfig) : List Job :=
  cfg.models.flatMap fun m =>
    job m .populate 0 :: (List.range cfg.burst.toNat).map (job m .warm)

/-- The label of the endpoint of a model. -/
def ModelStoreMechanism.label (cfg : TestbedConfig) (i : ℕ) : Str :=
  (if cfg.modelstoreEndpoints.items = [] then [] else reusedPrefix) ++ modelLabel i

def ModelStoreMechanism.jobs (cfg : DriveConfig) : List Job :=
  cfg.models.zipIdx.flatMap fun e => (List.range cfg.burst.toNat).map fun r =>
    ⟨Mechanism.modelstore.name, label cfg.toTestbedConfig e.2, none, e.1, .warm, r⟩

def Mechanism.jobs (cfg : DriveConfig) : Mechanism → List Job
  | .shim => ShimMechanism.jobs cfg
  | .volumecache => VolumeCacheMechanism.jobs cfg
  | .modelstore => ModelStoreMechanism.jobs cfg

/-- All jobs of a run. -/
def driverJobs (cfg : DriveConfig) (m : Mechanism) : List Job :=
  baselineJobs cfg.models ++ m.jobs cfg

def sequentialPhases : List JobPhase := [.baseline, .cold, .populate]

def splitJobs {α : Type*} (phase : α → JobPhase) (jobs : List α) : List α × List α :=
  (jobs.filter (phase · ∈ sequentialPhases), jobs.filter (phase · ∉ sequentialPhases))

theorem notMem_sequentialPhases {p : JobPhase} : p ∉ sequentialPhases ↔ p = .warm := by
  cases p <;> simp [sequentialPhases]

/-- The endpoint ids of the labels in use, or an error if a label has none. -/
def resolveEndpoints (jobs : List Job) (endpoints : OrderedDict Str Str) :
    Option (OrderedDict Str Str) :=
  let wanted := (jobs.map Job.endpoint).dedup
  if wanted.any fun w => (endpoints.get? w).isNone then none
  else some (.ofPairs (wanted.filterMap fun w => (endpoints.get? w).map (w, ·)))

/-! ### One job -/

/-- What comes of a job: the platform does not take it, the wait for it raises, its output is not
a result, or it has a result and maybe the platform's own times. -/
inductive JobOutcome (F : Type*)
  | refused
  | failed
  | noResult
  | returned (result : JobResult F) (delaySeconds execSeconds : Option F)

/-- A job on its endpoint, with what will come of it. -/
structure Submission (F : Type*) where
  job : Job
  eid : Str
  wallSeconds : F
  outcome : JobOutcome F

section Drive

variable {F : Type*}

/-- `record`. -/
def record (job : Job) (result : JobResult F) (wallSeconds : F)
    (delaySeconds execSeconds : Option F) : JobRow F :=
  ⟨job, result, makeTimingRow job.mechanism job result wallSeconds delaySeconds execSeconds⟩

/-- The row `_submit_and_wait` writes, unless it raises: an error of the wait is a result, an error
of the submission is not, and neither is one in `record`. -/
def Submission.row? (x : Submission F) : Option (JobRow F) :=
  match x.outcome with
  | .refused => none
  | .failed => some (record x.job ⟨[], false⟩ x.wallSeconds none none)
  | .noResult => none
  | .returned result delay exec => some (record x.job result x.wallSeconds delay exec)

/-! ### The run -/

structure Drive (F : Type*) where
  /-- the sequential jobs to come -/
  todo : List (Submission F)
  pool : WorkerPool (Submission F)
  /-- the rows of the jobs file -/
  file : List (JobRow F)
  aborted : Bool

inductive DriveAct
  | next
  | take
  | finish (worker : ℕ)

namespace Drive

/-- The jobs file is emptied before the first job. -/
def start (plan : List (Submission F)) : Drive F :=
  let jobs := splitJobs (fun x => x.job.phase) plan
  ⟨jobs.1, .start jobs.2, [], false⟩

def step (burst : ℕ) (s : Drive F) : DriveAct → Option (Drive F)
  | .next =>
    match s.todo with
    | [] => none
    | x :: todo =>
      if s.aborted then none
      else
        match x.row? with
        | some row => some { s with todo := todo, file := s.file ++ [row] }
        | none => some { s with todo := todo, aborted := true }
  | .take =>
    if s.aborted ∨ s.todo ≠ [] then none else (s.pool.take burst).map fun p => { s with pool := p }
  | .finish i =>
    -- an error reaches `main` only when the pool is done
    (s.pool.finish i).map fun e => { s with pool := e.2, file := s.file ++ e.1.row?.toList }

/-- Nothing is left to do. -/
def Over (s : Drive F) : Prop :=
  s.aborted ∨ s.todo = [] ∧ s.pool.queue = [] ∧ s.pool.busy = []

end Drive

/-- The jobs `main` submits, each with the endpoint of its label. -/
def Planned (cfg : DriveConfig) (m : Mechanism) (endpoints : OrderedDict Str Str)
    (plan : List (Submission F)) : Prop :=
  ∃ eids, resolveEndpoints (driverJobs cfg m) endpoints = some eids ∧
    plan.map (fun x => (x.job, some x.eid)) =
      (driverJobs cfg m).map fun j => (j, eids.get? j.endpoint)

/-! ### What a run keeps -/

namespace Drive

variable {plan ran : List (Submission F)} {burst : ℕ} {s s' : Drive F} {a : DriveAct}

/-- The sequential jobs of `ran` have been run: all of them but the last have a row, and so has the
last, or the run is aborted. -/
structure Inv (plan : List (Submission F)) (burst : ℕ) (ran : List (Submission F)) (s : Drive F) :
    Prop where
  sequential : (start plan).todo = ran ++ s.todo
  pool : s.pool.Inv (start plan).pool.queue burst
  file : s.file = (ran ++ s.pool.ended).filterMap Submission.row?
  answered : s.aborted = false → ∀ x ∈ ran, x.row?.isSome
  aborted : s.aborted = true → ∃ before x, ran = before ++ [x] ∧ x.row? = none ∧
    ∀ y ∈ before, y.row?.isSome
  waiting : s.todo ≠ [] ∨ s.aborted = true → s.pool = (start plan).pool

theorem inv_start (plan : List (Submission F)) (burst : ℕ) : Inv plan burst [] (start plan) where
  sequential := rfl
  pool := .start _ burst
  file := rfl
  answered := fun _ _ hx => (List.not_mem_nil hx).elim
  aborted := fun h => Bool.noConfusion h
  waiting := fun _ => rfl

/-- What one step can do. -/
theorem step_cases (h : s.step burst a = some s') :
    (∃ x row, a = .next ∧ s.todo = x :: s'.todo ∧ s.aborted = false ∧ x.row? = some row ∧
      s' = { s with todo := s'.todo, file := s.file ++ [row] }) ∨
    (∃ x, a = .next ∧ s.todo = x :: s'.todo ∧ s.aborted = false ∧ x.row? = none ∧
      s' = { s with todo := s'.todo, aborted := true }) ∨
    (∃ p, a = .take ∧ s.todo = [] ∧ s.aborted = false ∧ s.pool.take burst = some p ∧
      s' = { s with pool := p }) ∨
    ∃ i x p, a = .finish i ∧ s.pool.finish i = some (x, p) ∧
      s' = { s with pool := p, file := s.file ++ x.row?.toList } := by
  cases a with
  | next =>
    cases htodo : s.todo with
    | nil => simp [step, htodo] at h
    | cons x todo =>
      cases haborted : s.aborted with
      | true => simp [step, htodo, haborted] at h
      | false =>
        cases hrow : x.row? with
        | some row =>
          simp only [step, htodo, haborted, hrow, Bool.false_eq_true, if_false,
            Option.some_inj] at h
          subst h
          exact Or.inl ⟨x, row, rfl, rfl, rfl, hrow, rfl⟩
        | none =>
          simp only [step, htodo, haborted, hrow, Bool.false_eq_true, if_false,
            Option.some_inj] at h
          subst h
          exact Or.inr (Or.inl ⟨x, rfl, rfl, rfl, hrow, rfl⟩)
  | take =>
    rw [step] at h
    by_cases hwait : s.aborted ∨ s.todo ≠ []
    · rw [if_pos hwait] at h
      cases h
    · rw [if_neg hwait] at h
      obtain ⟨p, hp, rfl⟩ := Option.map_eq_some_iff.mp h
      rw [not_or, not_not, Bool.not_eq_true] at hwait
      exact Or.inr (Or.inr (Or.inl ⟨p, rfl, hwait.2, hwait.1, hp, rfl⟩))
  | finish i =>
    obtain ⟨⟨x, p⟩, hp, rfl⟩ := Option.map_eq_some_iff.mp h
    exact Or.inr (Or.inr (Or.inr ⟨i, x, p, rfl, hp, rfl⟩))

/-- Before the burst, the pool has done nothing. -/
theorem Inv.ended_eq_nil (h : Inv plan burst ran s) (hwait : s.todo ≠ [] ∨ s.aborted = true) :
    s.pool.ended = [] ∧ s.pool.busy = [] := by
  rw [h.waiting hwait]
  exact ⟨rfl, rfl⟩

theorem filterMap_row {before : List (Submission F)} {x : Submission F} :
    (before ++ [x]).filterMap Submission.row? =
      before.filterMap Submission.row? ++ x.row?.toList := by
  rw [List.filterMap_append]
  congr 1

theorem Inv.step (h : Inv plan burst ran s) (hstep : s.step burst a = some s') :
    ∃ ran', Inv plan burst ran' s' := by
  obtain ⟨x, row, -, htodo, haborted, hrow, hs'⟩ | ⟨x, -, htodo, haborted, hrow, hs'⟩ |
    ⟨p, -, htodo, haborted, hp, rfl⟩ | ⟨i, x, p, -, hp, rfl⟩ := step_cases hstep
  · have hne : s.todo ≠ [] := htodo ▸ List.cons_ne_nil x _
    obtain ⟨hended, -⟩ := h.ended_eq_nil (.inl hne)
    rw [hs']
    refine ⟨ran ++ [x], ?_, h.pool, ?_, fun _ y hy => ?_, fun haborted' => ?_, fun _ =>
      h.waiting (.inl hne)⟩
    · rw [h.sequential, htodo, List.append_assoc, List.singleton_append]
    · show s.file ++ [row] = (ran ++ [x] ++ s.pool.ended).filterMap Submission.row?
      rw [hended, List.append_nil, filterMap_row, hrow, h.file, hended, List.append_nil]
      rfl
    · rcases List.mem_append.mp hy with hy | hy
      · exact h.answered haborted y hy
      · rw [List.mem_singleton.mp hy, hrow]
        rfl
    · rw [haborted] at haborted'
      cases haborted'
  · have hne : s.todo ≠ [] := htodo ▸ List.cons_ne_nil x _
    obtain ⟨hended, -⟩ := h.ended_eq_nil (.inl hne)
    rw [hs']
    refine ⟨ran ++ [x], ?_, h.pool, ?_, fun haborted' => ?_, fun _ =>
      ⟨ran, x, rfl, hrow, h.answered haborted⟩, fun _ => h.waiting (.inl hne)⟩
    · rw [h.sequential, htodo, List.append_assoc, List.singleton_append]
    · show s.file = (ran ++ [x] ++ s.pool.ended).filterMap Submission.row?
      rw [hended, List.append_nil, filterMap_row, hrow, h.file, hended, List.append_nil]
      exact (List.append_nil _).symm
    · cases haborted'
  · obtain ⟨t, hqueue, -, -, hended⟩ := WorkerPool.take_eq_some_iff.mp hp
    refine ⟨ran, h.sequential, h.pool.take hp, ?_, h.answered, h.aborted, fun hwait => ?_⟩
    · show s.file = (ran ++ p.ended).filterMap Submission.row?
      rw [hended, h.file]
    · rcases hwait with hne | hab
      · exact absurd htodo hne
      · rw [haborted] at hab
        cases hab
  · obtain ⟨hx, -, hbusy, hended⟩ := WorkerPool.finish_eq_some_iff.mp hp
    refine ⟨ran, h.sequential, h.pool.finish hp, ?_, h.answered, h.aborted, fun hwait => ?_⟩
    · show s.file ++ x.row?.toList = (ran ++ p.ended).filterMap Submission.row?
      rw [hended, ← List.append_assoc, filterMap_row, h.file]
    · -- nobody was at work
      rw [(h.ended_eq_nil hwait).2] at hx
      cases hx

theorem Inv.exec {acts : List DriveAct} (h : exec (Drive.step burst) (.start plan) acts = some s) :
    ∃ ran, Inv plan burst ran s :=
  exec_always (fun s => ∃ ran, Inv plan burst ran s)
    (fun ⟨_, hinv⟩ hstep => hinv.step hstep) ⟨[], inv_start plan burst⟩ h

/-- The steps that are left. -/
def work (s : Drive F) : ℕ := s.todo.length + s.pool.work

theorem work_step (h : s.step burst a = some s') : s'.work + 1 = s.work := by
  obtain ⟨x, row, -, htodo, -, -, hs'⟩ | ⟨x, -, htodo, -, -, hs'⟩ |
    ⟨p, -, -, -, hp, rfl⟩ | ⟨i, x, p, -, hp, rfl⟩ := step_cases h
  · have hpool : s'.pool = s.pool := by rw [hs']
    rw [work, work, htodo, hpool, List.length_cons]
    omega
  · have hpool : s'.pool = s.pool := by rw [hs']
    rw [work, work, htodo, hpool, List.length_cons]
    omega
  · have hwork := WorkerPool.work_take hp
    show s.todo.length + p.work + 1 = s.todo.length + s.pool.work
    omega
  · have hwork := WorkerPool.work_finish hp
    show s.todo.length + p.work + 1 = s.todo.length + s.pool.work
    omega

theorem work_exec {acts : List DriveAct} {s₀ : Drive F}
    (h : Transition.exec (Drive.step burst) s₀ acts = some s) :
    acts.length + s.work = s₀.work := by
  induction acts generalizing s₀ with
  | nil =>
    obtain rfl := Option.some.inj h
    exact Nat.zero_add _
  | cons a acts ih =>
    obtain ⟨t, ht, hrest⟩ := exec_cons.mp h
    have hwork := work_step ht
    have hlength := ih hrest
    rw [List.length_cons]
    omega

/-- A run that is not over can go on. -/
theorem over_or_step (hburst : 0 < burst ∨ s.pool.queue = []) :
    s.Over ∨ ∃ a s', s.step burst a = some s' := by
  cases haborted : s.aborted with
  | true => exact Or.inl (Or.inl haborted)
  | false =>
    cases htodo : s.todo with
    | cons x todo =>
      refine Or.inr ⟨.next, ?_⟩
      cases hrow : x.row? with
      | some row => exact ⟨_, by simp only [Drive.step, htodo, haborted, hrow]; rfl⟩
      | none => exact ⟨_, by simp only [Drive.step, htodo, haborted, hrow]; rfl⟩
    | nil =>
      by_cases hleft : s.pool.queue ≠ [] ∨ s.pool.busy ≠ []
      · refine Or.inr ?_
        by_cases hbusy : s.pool.busy = []
        · have hqueue : s.pool.queue ≠ [] := hleft.resolve_right (not_not_intro hbusy)
          rcases WorkerPool.exists_take_or_finish (hburst.resolve_right hqueue) hleft with
            ⟨p, hp⟩ | ⟨e, he⟩
          · exact ⟨.take, { s with pool := p }, by
              rw [Drive.step, if_neg (by simp [haborted, htodo]), hp]
              rfl⟩
          · exact ⟨.finish 0, _, by rw [Drive.step, he]; rfl⟩
        · obtain ⟨x, busy, hbusy⟩ := List.exists_cons_of_ne_nil hbusy
          exact ⟨.finish 0, _, by rw [Drive.step, WorkerPool.finish, hbusy]; rfl⟩
      · rw [not_or, not_not, not_not] at hleft
        exact Or.inl (Or.inr ⟨htodo, hleft⟩)

end Drive

/-! ### The jobs of a plan -/

theorem job_of_row {x : Submission F} {row : JobRow F} (h : x.row? = some row) :
    row.job = x.job ∧ row.timing.phase = schemaPhase x.job.phase := by
  rw [Submission.row?] at h
  cases hout : x.outcome with
  | refused => simp [hout] at h
  | noResult => simp [hout] at h
  | failed =>
    simp only [hout, Option.some_inj] at h
    exact h ▸ ⟨rfl, rfl⟩
  | returned result delay exec =>
    simp only [hout, Option.some_inj] at h
    exact h ▸ ⟨rfl, rfl⟩

theorem mem_expandJobs_warm {overlap : OrderedDict Str (List Str)} {burst : ℤ} {j : GroupJob}
    (h : j ∈ expandJobs overlap burst) (hwarm : j.phase = .warm) :
    0 < burst ∧ ⟨j.group, j.model, .cold, 0⟩ ∈ expandJobs overlap burst := by
  rcases List.mem_append.mp h with h | h
  · obtain ⟨e, -, h⟩ := List.mem_flatMap.mp h
    obtain ⟨m, -, rfl⟩ := List.mem_map.mp h
    cases hwarm
  · obtain ⟨e, he, h⟩ := List.mem_flatMap.mp h
    obtain ⟨m, hm, h⟩ := List.mem_flatMap.mp h
    obtain ⟨r, hr, rfl⟩ := List.mem_map.mp h
    refine ⟨by have := List.mem_range.mp hr; omega, List.mem_append_left _ ?_⟩
    exact List.mem_flatMap.mpr ⟨e, he, List.mem_map.mpr ⟨m, hm, rfl⟩⟩

/-- A warm job comes with one that fills the cache it reads, but for the model store. -/
theorem mem_driverJobs_warm {cfg : DriveConfig} {m : Mechanism} {j : Job}
    (h : j ∈ driverJobs cfg m) (hwarm : j.phase = .warm) :
    0 < cfg.burst ∧ (m ≠ .modelstore → ∃ f ∈ driverJobs cfg m,
      f.endpoint = j.endpoint ∧ f.model = j.model ∧ schemaPhase f.phase = .populate) := by
  rcases List.mem_append.mp h with h | h
  · obtain ⟨model, -, rfl⟩ := List.mem_map.mp h
    cases hwarm
  · cases m with
    | shim =>
      obtain ⟨g, hg, rfl⟩ := List.mem_map.mp h
      obtain ⟨hburst, hcold⟩ := mem_expandJobs_warm hg hwarm
      exact ⟨hburst, fun _ => ⟨_, List.mem_append_right _ (List.mem_map.mpr ⟨_, hcold, rfl⟩), rfl,
        rfl, rfl⟩⟩
    | volumecache =>
      obtain ⟨model, hmodel, h⟩ := List.mem_flatMap.mp h
      rcases List.mem_cons.mp h with rfl | h
      · cases hwarm
      · obtain ⟨r, hr, rfl⟩ := List.mem_map.mp h
        refine ⟨by have := List.mem_range.mp hr; omega, fun _ => ?_⟩
        exact ⟨VolumeCacheMechanism.job model .populate 0, List.mem_append_right _
          (List.mem_flatMap.mpr ⟨model, hmodel, List.mem_cons_self⟩), rfl, rfl, rfl⟩
    | modelstore =>
      obtain ⟨e, -, h⟩ := List.mem_flatMap.mp h
      obtain ⟨r, hr, rfl⟩ := List.mem_map.mp h
      exact ⟨by have := List.mem_range.mp hr; omega, fun hne => absurd rfl hne⟩

/-- Resolving succeeds exactly if every label in use has an endpoint, and keeps it. -/
theorem resolveEndpoints_eq_some {jobs : List Job} {endpoints eids : OrderedDict Str Str}
    (h : resolveEndpoints jobs endpoints = some eids) {j : Job} (hj : j ∈ jobs) :
    ∃ id, endpoints.get? j.endpoint = some id ∧ eids.get? j.endpoint = some id := by
  rw [resolveEndpoints] at h
  split at h
  · cases h
  · next hall =>
    have hmem : j.endpoint ∈ (jobs.map Job.endpoint).dedup :=
      List.mem_dedup.mpr (List.mem_map_of_mem hj)
    obtain ⟨id, hget⟩ : ∃ id, endpoints.get? j.endpoint = some id := by
      refine Option.ne_none_iff_exists'.mp fun hnone => hall ?_
      exact List.any_eq_true.mpr ⟨_, hmem, by rw [hnone]; rfl⟩
    refine ⟨id, hget, ?_⟩
    -- the labels are distinct
    have hkeys : ∀ l : List Str, (l.filterMap fun w => (endpoints.get? w).map (w, ·)).map Prod.fst =
        l.filter fun w => (endpoints.get? w).isSome := by
      intro l
      induction l with
      | nil => rfl
      | cons w l ih =>
        cases hw : endpoints.get? w with
        | none => simpa [hw] using ih
        | some v => simpa [hw] using ih
    have hnodup := (List.nodup_dedup (jobs.map Job.endpoint)).filter
      fun w => (endpoints.get? w).isSome
    rw [← hkeys] at hnodup
    rw [← Option.some.inj h, OrderedDict.get?_eq_some, OrderedDict.ofPairs_items hnodup]
    exact List.mem_filterMap.mpr ⟨_, hmem, by rw [hget]; rfl⟩

section Plan

variable {cfg : DriveConfig} {m : Mechanism} {endpoints : OrderedDict Str Str}
  {plan : List (Submission F)}

theorem Planned.jobs (h : Planned cfg m endpoints plan) :
    plan.map Submission.job = driverJobs cfg m := by
  obtain ⟨eids, -, hmap⟩ := h
  have := congrArg (List.map Prod.fst) hmap
  rwa [List.map_map, List.map_map, List.map_id''] at this
  exact fun _ => rfl

/-- Each job goes to the endpoint that is recorded for its label. -/
theorem Planned.eid (h : Planned cfg m endpoints plan) {x : Submission F} (hx : x ∈ plan) :
    endpoints.get? x.job.endpoint = some x.eid := by
  have hjob : x.job ∈ driverJobs cfg m := h.jobs ▸ List.mem_map_of_mem hx
  obtain ⟨eids, heids, hmap⟩ := h
  obtain ⟨id, hid, hid'⟩ := resolveEndpoints_eq_some heids hjob
  have hmem := List.mem_map_of_mem (f := fun x : Submission F => (x.job, some x.eid)) hx
  rw [hmap] at hmem
  obtain ⟨j, -, heq⟩ := List.mem_map.mp hmem
  obtain ⟨hj, heid⟩ := Prod.mk.inj heq
  rw [hj, hid'] at heid
  rw [hid, heid]

end Plan

/-! ### What a run has recorded -/

namespace Drive

variable {plan ran : List (Submission F)} {burst : ℕ} {s : Drive F}

theorem mem_todo {x : Submission F} :
    x ∈ (start plan).todo ↔ x ∈ plan ∧ x.job.phase ∈ sequentialPhases := by
  rw [start, splitJobs, List.mem_filter, decide_eq_true_iff]

theorem mem_queue {x : Submission F} :
    x ∈ (start plan).pool.queue ↔ x ∈ plan ∧ x.job.phase = .warm := by
  show x ∈ plan.filter _ ↔ _
  rw [List.mem_filter, decide_eq_true_iff]
  exact and_congr_right fun _ => notMem_sequentialPhases

theorem start_perm (plan : List (Submission F)) :
    ((start plan).todo ++ (start plan).pool.queue).Perm plan := by
  show (plan.filter _ ++ plan.filter _).Perm plan
  refine List.Perm.trans (List.Perm.of_eq ?_)
    (List.filter_append_perm (fun x => decide (x.job.phase ∈ sequentialPhases)) plan)
  congr 1
  exact List.filter_congr fun x _ => by simp

/-- Each job of the plan has been run, or is at work, or is to come. -/
theorem Inv.perm (h : Inv plan burst ran s) :
    (ran ++ s.todo ++ (s.pool.ended ++ s.pool.busy ++ s.pool.queue)).Perm plan := by
  rw [← h.sequential]
  exact (h.pool.perm.append_left _).trans (start_perm plan)

/-- A row of the burst comes after those of all the sequential jobs. -/
theorem Inv.before_warm (h : Inv plan burst ran s) {before after : List (JobRow F)}
    {row : JobRow F} (hfile : s.file = before ++ row :: after) (hwarm : row.job.phase = .warm)
    {x : Submission F} (hx : x ∈ (start plan).todo) :
    ∃ r ∈ before, x.row? = some r := by
  -- the sequential jobs have no warm rows
  have hnot : row ∉ ran.filterMap Submission.row? := by
    intro hmem
    obtain ⟨y, hy, hrow⟩ := List.mem_filterMap.mp hmem
    have hy' : y ∈ (start plan).todo := h.sequential ▸ List.mem_append_left _ hy
    have hseq := (mem_todo.mp hy').2
    rw [← (job_of_row hrow).1, hwarm] at hseq
    simp [sequentialPhases] at hseq
  have hfile' := h.file
  rw [hfile, List.filterMap_append] at hfile'
  obtain ⟨a, hbefore, hended⟩ : ∃ a, before = ran.filterMap Submission.row? ++ a ∧
      s.pool.ended.filterMap Submission.row? = a ++ row :: after := by
    rcases List.append_eq_append_iff.mp hfile' with ⟨c, hc, hrest⟩ | ⟨a, ha, hrest⟩
    · cases c with
      | nil => exact ⟨[], by rw [hc, List.append_nil, List.append_nil], by simpa using hrest.symm⟩
      | cons r c =>
        obtain ⟨rfl, -⟩ := List.cons_eq_cons.mp hrest
        exact absurd (hc ▸ List.mem_append_right _ List.mem_cons_self) hnot
    · exact ⟨a, ha, hrest⟩
  have hne : s.pool.ended ≠ [] := by
    rintro hnil
    rw [hnil] at hended
    cases a <;> cases hended
  have hidle : ¬ (s.todo ≠ [] ∨ s.aborted = true) := fun hwait => hne (h.ended_eq_nil hwait).1
  rw [not_or, not_not, Bool.not_eq_true] at hidle
  have hran : x ∈ ran := by
    rw [h.sequential, hidle.1, List.append_nil] at hx
    exact hx
  obtain ⟨r, hr⟩ := Option.isSome_iff_exists.mp (h.answered hidle.2 x hran)
  exact ⟨r, hbefore ▸ List.mem_append_left _ (List.mem_filterMap.mpr ⟨x, hran, hr⟩), hr⟩

/-- The rows of a run that is over, but for their order: an error in a sequential job is the end. -/
def recorded (plan : List (Submission F)) : List (JobRow F) :=
  if (start plan).todo.all (·.row?.isSome) then plan.filterMap Submission.row?
  else ((start plan).todo.takeWhile (·.row?.isSome)).filterMap Submission.row?

theorem Inv.file_perm (h : Inv plan burst ran s) (hover : s.Over) :
    s.file.Perm (recorded plan) := by
  cases haborted : s.aborted with
  | true =>
    obtain ⟨before, x, hran, hx, hbefore⟩ := h.aborted haborted
    have hsplit : (start plan).todo = before ++ x :: s.todo := by
      rw [h.sequential, hran, List.append_assoc, List.singleton_append]
    have hall : ¬ ((start plan).todo.all (·.row?.isSome)) = true := by
      intro hall
      have := List.all_eq_true.mp hall x (hsplit ▸ List.mem_append_right _ List.mem_cons_self)
      rw [hx] at this
      cases this
    rw [recorded, if_neg hall, hsplit, List.takeWhile_append_of_pos hbefore,
      List.takeWhile_cons_of_neg (by simp [hx]), List.append_nil, h.file,
      (h.ended_eq_nil (.inr haborted)).1, hran, List.append_nil, filterMap_row, hx]
    exact List.Perm.of_eq (List.append_nil _)
  | false =>
    obtain ⟨htodo, hqueue, hbusy⟩ := hover.resolve_left (by rw [haborted]; exact Bool.false_ne_true)
    have hperm := h.perm
    rw [htodo, hqueue, hbusy, List.append_nil, List.append_nil, List.append_nil] at hperm
    have hall : (start plan).todo.all (·.row?.isSome) = true := by
      rw [h.sequential, htodo, List.append_nil, List.all_eq_true]
      exact h.answered haborted
    rw [recorded, if_pos hall, h.file]
    exact hperm.filterMap _

end Drive

end Drive

/-- One model on a network volume, and one warm job. -/
def volumeDrive : DriveConfig where
  models := [['m']]
  groups := []
  groups_nodup := List.nodup_nil
  maxPods := 0
  volumeGb := 1
  modelstoreEndpoints := .empty
  overlap := .empty
  groups_eq := rfl
  burst := 1

def volumeEndpoints : OrderedDict Str Str :=
  .ofPairs [(baselineLabel, ['b']), (volumeLabel, ['v'])]

/-- Ten seconds for each of its jobs. -/
def volumePlan : List (Submission ℚ) :=
  (driverJobs volumeDrive .volumecache).map fun j =>
    ⟨j, (volumeEndpoints.get? j.endpoint).getD [], 10,
      .returned ⟨[⟨100, 9, .none, true⟩], false⟩ none none⟩

/-- **What the report says of a drive.**  Whatever the width of the pool and however its threads
interleave, a drive that is over has recorded the same rows but for their order: of every job that
had an answer, or, if a sequential job had none, of those before it; and the report on them is the
same. -/
theorem drive_report {F : Type*} [LinearOrder F] {ops : SecondsOps F}
    (hmid : ∀ a b, a ≤ b → a ≤ ops.mid a b ∧ ops.mid a b ≤ b) {plan : List (Submission F)}
    {burst : ℕ} {acts : List DriveAct} {s : Drive F}
    (h : exec (Drive.step burst) (.start plan) acts = some s) (hover : s.Over) :
    s.file.Perm (Drive.recorded plan) ∧
    headlineVsBaseline ops (s.file.map JobRow.timing) =
      headlineVsBaseline ops ((Drive.recorded plan).map JobRow.timing) ∧
    (∀ d ∈ latencyByPhase ops s.file, ∀ d' ∈ latencyByPhase ops (Drive.recorded plan), ∀ p,
      d.lookup p = d'.lookup p) ∧
    (∀ d ∈ latencyBySchemaPhase ops (s.file.map JobRow.timing),
      ∀ d' ∈ latencyBySchemaPhase ops ((Drive.recorded plan).map JobRow.timing), ∀ p,
      d.lookup p = d'.lookup p) ∧
    ∀ d ∈ steadyStateBySchemaPhase ops (s.file.map JobRow.timing),
      ∀ d' ∈ steadyStateBySchemaPhase ops ((Drive.recorded plan).map JobRow.timing), ∀ p,
      d.lookup p = d'.lookup p := by
  obtain ⟨ran, hinv⟩ := Drive.Inv.exec h
  have hperm := hinv.file_perm hover
  have htiming := hperm.map JobRow.timing
  exact ⟨hperm, headline_perm hmid htiming,
    fun d hd d' hd' p => statsByPhase_perm hmid (hperm.flatMap_right _) hd hd' p,
    fun d hd d' hd' p => statsByPhase_perm hmid (wallSamples_perm htiming) hd hd' p,
    fun d hd d' hd' p => statsByPhase_perm hmid (steadySamples_perm htiming) hd hd' p⟩

theorem drive_report_volume :
    ∃ s, exec (Drive.step 1) (.start volumePlan) [.next, .next, .take, .finish 0] = some s ∧
      s.file.Perm (Drive.recorded volumePlan) := by
  obtain ⟨s, hs, hover⟩ := exec_of_any (Drive.step 1) (.start volumePlan)
    [.next, .next, .take, .finish 0]
    (fun s => s.todo.isEmpty && s.pool.queue.isEmpty && s.pool.busy.isEmpty) rfl
  simp only [Bool.and_eq_true, List.isEmpty_iff] at hover
  exact ⟨s, hs, (drive_report exactSeconds_mid hs (.inr ⟨hover.1.1, hover.1.2, hover.2⟩)).1⟩

end XetDcCache
