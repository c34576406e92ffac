/-
The timings of a run, and what the report says of them (worker/timing.py, harvest/report.py).

`stats` is what the report shows of the runs of one phase.  Its 95th percentile is read at an index
that is computed in floating point; `p95Index_bounds` is what that rounding leaves.

* `Stats.Describes` — what the numbers mean, without a sorted list or an index;
* `timing_report` — every phase is described by its own samples, in whatever order they came.
-/
import XetDcCache.OrderStatistics
import XetDcCache.OrderedDict
import XetDcCache.Rounding
import XetDcCache.Text

namespace XetDcCache

open OrderStatistics

/-! ### Jobs and their timings -/

inductive JobPhase
  | baseline
  | cold
  | populate
  | warm
deriving DecidableEq

def schemaPhase : JobPhase → JobPhase
  | .cold => .populate
  | p => p

structure Job where
  mechanism : Str
  endpoint : Str
  group : Option Str
  model : Str
  phase : JobPhase
  replica : ℕ
deriving DecidableEq

/-- The seconds of the parts of a download, of which a worker reports its own. -/
structure Breakdown (F : Type*) where
  downloadS : Option F
  hydrateS : Option F
  localReadS : Option F

def Breakdown.none {F : Type*} : Breakdown F := ⟨.none, .none, .none⟩

def Breakdown.values {F : Type*} (b : Breakdown F) : List (Option F) :=
  [b.downloadS, b.hydrateS, b.localReadS]

/-- What a worker reports of one model. -/
structure ModelResult (F : Type*) where
  bytes : ℤ
  wallSeconds : F
  breakdown : Breakdown F
  ok : Bool

/-- What a job returns; a job that has failed in the driver returns no results. -/
structure JobResult (F : Type*) where
  results : List (ModelResult F)
  coldFirstInvocation : Bool

structure TimingRow (F : Type*) where
  mechanism : Str
  phase : JobPhase
  model : Str
  wallSeconds : F
  bytes : ℤ
  breakdown : Breakdown F
  workerCold : Bool
  ok : Bool
  delaySeconds : Option F
  execSeconds : Option F

section Timing

variable {F : Type*}

def makeTimingRow (mechanism : Str) (job : Job) (result : JobResult F) (wallSeconds : F)
    (delaySeconds execSeconds : Option F) : TimingRow F :=
  let perModel := result.results.head?
  { mechanism := mechanism
    phase := schemaPhase job.phase
    model := job.model
    wallSeconds := wallSeconds
    bytes := (perModel.map ModelResult.bytes).getD 0
    breakdown := (perModel.map ModelResult.breakdown).getD .none
    workerCold := result.coldFirstInvocation
    ok := (perModel.map ModelResult.ok).getD false
    delaySeconds := delaySeconds
    execSeconds := execSeconds }

/-- A line of the jobs file. -/
structure JobRow (F : Type*) where
  job : Job
  result : JobResult F
  timing : TimingRow F

end Timing

/-! ### The report -/

/-- What the report does with seconds. -/
structure SecondsOps (F : Type*) where
  zero : F
  two : F
  add : F → F → F
  div : F → F → F

/-- The seconds and the bytes of one run in a phase. -/
structure PhaseSample (F : Type*) where
  phase : JobPhase
  seconds : F
  bytes : ℤ

structure Stats (F : Type*) where
  n : ℕ
  medianS : F
  p95S : F
  totalBytes : ℤ

/-- `max(0, round(0.95 * n) - 1)`: the double of 0.95 is 8556839292003942 over 2 ^ 53. -/
def p95Index (n : ℕ) : ℕ :=
  Rounding.halfEven (Rounding.nearestDouble (n * 8556839292003942)) (2 ^ 53) - 1

/-- `buckets.setdefault(key, []).append(row)` for each row. -/
def bucketed {κ α : Type*} [DecidableEq κ] (key : α → κ) (rows : List α) :
    OrderedDict κ (List α) :=
  rows.foldl (fun d r => d.set (key r) ((d.get? (key r)).getD [] ++ [r])) .empty

section Report

variable {F : Type*} [LinearOrder F] (ops : SecondsOps F)

def SecondsOps.mid (a b : F) : F := ops.div (ops.add a b) ops.two

/-- `statistics.median`, which raises on an empty list. -/
def median (data : List F) : Option F :=
  let n := data.length
  if n % 2 = 1 then kth data (n / 2)
  else (kth data (n / 2 - 1)).bind fun a => (kth data (n / 2)).map (ops.mid a)

/-- `_stats`, which raises on an empty list. -/
def stats (secs : List F) (totalBytes : ℤ) : Option (Stats F) :=
  (median ops secs).bind fun m => (kth secs (p95Index secs.length)).map fun p =>
    ⟨secs.length, m, p, totalBytes⟩

/-- The statistics of each phase, in the order in which the phases come. -/
def statsByPhase (samples : List (PhaseSample F)) : Option (List (JobPhase × Stats F)) :=
  (bucketed PhaseSample.phase samples).items.mapM fun e =>
    (stats ops (e.2.map PhaseSample.seconds) (e.2.map PhaseSample.bytes).sum).map (e.1, ·)

/-- `_ok_results` and `latency_by_phase`. -/
def latencyByPhase (rows : List (JobRow F)) : Option (List (JobPhase × Stats F)) :=
  statsByPhase ops <| rows.flatMap fun row =>
    (row.result.results.filter ModelResult.ok).map fun r => ⟨row.job.phase, r.wallSeconds, r.bytes⟩

omit [LinearOrder F] in
/-- What the caller waited. -/
def wallSamples (rows : List (TimingRow F)) : List (PhaseSample F) :=
  (rows.filter TimingRow.ok).map fun r => ⟨r.phase, r.wallSeconds, r.bytes⟩

def latencyBySchemaPhase (rows : List (TimingRow F)) : Option (List (JobPhase × Stats F)) :=
  statsByPhase ops (wallSamples rows)

omit [LinearOrder F] in
def breakdownFallbackSeconds (b : Breakdown F) : Option F :=
  let vals := b.values.filterMap id
  if vals = [] then none else some (vals.foldl ops.add ops.zero)

omit [LinearOrder F] in
def steadySeconds (r : TimingRow F) : Option F :=
  r.execSeconds.or (breakdownFallbackSeconds ops r.breakdown)

omit [LinearOrder F] in
/-- What the worker was at, where that is known. -/
def steadySamples (rows : List (TimingRow F)) : List (PhaseSample F) :=
  (rows.filter TimingRow.ok).filterMap fun r =>
    (steadySeconds ops r).map fun s => ⟨r.phase, s, r.bytes⟩

def steadyStateBySchemaPhase (rows : List (TimingRow F)) : Option (List (JobPhase × Stats F)) :=
  statsByPhase ops (steadySamples ops rows)

structure Headline (F : Type*) where
  nOk : ℕ
  totalBytes : ℤ
  baselineMedianS : Option F
  warmMedianS : Option F
  speedup : Option F

def headlineVsBaseline (rows : List (TimingRow F)) : Option (Headline F) :=
  (latencyBySchemaPhase ops rows).map fun lat =>
    let base := (lat.lookup .baseline).map Stats.medianS
    let warm := (lat.lookup .warm).map Stats.medianS
    { nOk := rows.countP TimingRow.ok
      totalBytes := (lat.map fun e => e.2.totalBytes).sum
      baselineMedianS := base
      warmMedianS := warm
      speedup := base.bind fun b => (warm.filter (ops.zero < ·)).map (ops.div b) }

end Report

/-! ### The index of the percentile -/

/-- The index is within the list, past its middle, and next to 95 in 100 of it. -/
theorem p95Index_bounds {n : ℕ} (hn : 0 < n) :
    p95Index n < n ∧ n / 2 ≤ p95Index n ∧
      2 ^ 48 * (20 * (p95Index n + 1)) ≤ 2 ^ 48 * (19 * n + 10) + n ∧
      2 ^ 48 * (19 * n) ≤ 2 ^ 48 * (20 * (p95Index n + 1) + 10) + n := by
  obtain ⟨hlow, hhigh⟩ := Rounding.nearestDouble_bounds (n * 8556839292003942)
  obtain ⟨hlow', hhigh'⟩ := Rounding.halfEven_bounds
    (Rounding.nearestDouble (n * 8556839292003942)) (Nat.two_pow_pos 53)
  rw [p95Index]
  generalize Rounding.halfEven (Rounding.nearestDouble (n * 8556839292003942)) (2 ^ 53) = r at *
  generalize Rounding.nearestDouble (n * 8556839292003942) = d at *
  omega

/-! ### Buckets -/

section Buckets

variable {κ α : Type*} [DecidableEq κ] (key : α → κ)

/-- A bucket has the rows of its key, in their order. -/
theorem get?_bucketed (rows : List α) (k : κ) :
    (bucketed key rows).get? k =
      if rows.filter (key · = k) = [] then none else some (rows.filter (key · = k)) := by
  induction rows using List.reverseRecOn with
  | nil => rfl
  | append_singleton rows r ih =>
    rw [bucketed, List.foldl_append, List.foldl_cons, List.foldl_nil, ← bucketed,
      OrderedDict.get?_set, List.filter_append]
    by_cases hk : k = key r
    · subst hk
      have hlast : [r].filter (key · = key r) = [r] := by simp
      rw [if_pos rfl, ih, hlast,
        if_neg (List.append_ne_nil_of_right_ne_nil _ (List.cons_ne_nil _ _))]
      by_cases hnil : rows.filter (key · = key r) = []
      · rw [if_pos hnil, hnil]
        rfl
      · rw [if_neg hnil]
        rfl
    · rw [if_neg hk, ih, List.filter_cons_of_neg (by simpa using Ne.symm hk), List.filter_nil,
        List.append_nil]

/-- The value of one key made longer. -/
theorem flatMap_set {d : OrderedDict κ (List α)} (k : κ) (r : α) :
    ((d.set k ((d.get? k).getD [] ++ [r])).items.flatMap Prod.snd).Perm
      (d.items.flatMap Prod.snd ++ [r]) := by
  by_cases hk : k ∈ d.keys
  · obtain ⟨l, hl⟩ := OrderedDict.mem_keys.mp hk
    rw [OrderedDict.get?_eq_some.mpr hl, Option.getD_some, OrderedDict.set, dif_pos hk]
    show ((OrderedDict.replaced d.items k (l ++ [r])).flatMap Prod.snd).Perm _
    -- the key is at one place
    obtain ⟨pre, post, hitems⟩ := List.append_of_mem hl
    have hnd := d.nodup
    rw [hitems, List.map_append, List.map_cons, List.nodup_middle, List.nodup_cons,
      List.mem_append] at hnd
    have hpre : ∀ e ∈ pre, e.1 ≠ k := fun e he heq =>
      hnd.1 (.inl (List.mem_map.mpr ⟨e, he, heq⟩))
    have hpost : ∀ e ∈ post, e.1 ≠ k := fun e he heq =>
      hnd.1 (.inr (List.mem_map.mpr ⟨e, he, heq⟩))
    rw [hitems, OrderedDict.replaced, List.map_append, List.map_cons, if_pos rfl,
      ← OrderedDict.replaced, ← OrderedDict.replaced, OrderedDict.replaced_of_notMem hpre,
      OrderedDict.replaced_of_notMem hpost, List.flatMap_append, List.flatMap_append,
      List.flatMap_cons, List.flatMap_cons, List.append_assoc, List.append_assoc, List.append_assoc]
    exact (List.perm_append_comm.append_left l).append_left _
  · rw [OrderedDict.set_items_new hk, OrderedDict.get?_eq_none.mpr hk, List.flatMap_append]
    exact List.Perm.of_eq (by simp)

/-- The buckets have all the rows between them. -/
theorem flatMap_bucketed (rows : List α) :
    ((bucketed key rows).items.flatMap Prod.snd).Perm rows := by
  induction rows using List.reverseRecOn with
  | nil => exact List.Perm.nil
  | append_singleton rows r ih =>
    rw [bucketed, List.foldl_append, List.foldl_cons, List.foldl_nil, ← bucketed]
    exact (flatMap_set _ r).trans (ih.append_right _)

theorem bucketed_ne_nil {rows : List α} {e : κ × List α} (he : e ∈ (bucketed key rows).items) :
    e.2 ≠ [] := by
  have hget := OrderedDict.get?_eq_some.mpr he
  rw [get?_bucketed] at hget
  split at hget
  · cases hget
  · next hne => exact Option.some.inj hget ▸ hne

end Buckets

/-- A map that may raise, over the values of a dictionary. -/
theorem mapM_values {κ α β : Type*} [DecidableEq κ] {f : α → Option β} (items : List (κ × α))
    (h : ∀ e ∈ items, ∃ b, f e.2 = some b) :
    ∃ out, items.mapM (fun e => (f e.2).map (e.1, ·)) = some out ∧
      List.Forall₂ (fun e o => o.1 = e.1 ∧ f e.2 = some o.2) items out ∧
      ∀ k, out.lookup k = (items.lookup k).bind f := by
  induction items with
  | nil => exact ⟨[], rfl, .nil, fun _ => rfl⟩
  | cons e items ih =>
    obtain ⟨b, hb⟩ := h e List.mem_cons_self
    obtain ⟨out, hout, hall, hlookup⟩ := ih fun e he => h e (List.mem_cons_of_mem _ he)
    refine ⟨(e.1, b) :: out, ?_, .cons ⟨rfl, hb⟩ hall, fun k => ?_⟩
    · rw [List.mapM_cons, hb, hout]
      rfl
    · obtain ⟨k', a⟩ := e
      rw [List.lookup_cons, List.lookup_cons, hlookup]
      by_cases hk : k = k'
      · rw [hk, beq_self_eq_true]
        exact hb.symm
      · rw [beq_false_of_ne hk]

theorem lookup_items {κ β : Type*} [DecidableEq κ] (d : OrderedDict κ β) (k : κ) :
    d.items.lookup k = d.get? k := by
  rw [OrderedDict.get?]
  induction d.items with
  | nil => rfl
  | cons e items ih =>
    obtain ⟨k', v⟩ := e
    rw [List.lookup_cons]
    by_cases hk : k = k'
    · rw [hk, beq_self_eq_true, List.find?_cons_of_pos (by simp)]
      rfl
    · rw [beq_false_of_ne hk, List.find?_cons_of_neg (by simpa using Ne.symm hk), ih]

/-! ### What the statistics mean -/

section Meaning

variable {F : Type*} [LinearOrder F] {ops : SecondsOps F}

/-- A median with at least half of the seconds on either side, and one of the seconds that is not
below the median with 95 in 100 of them up to it, give or take half a run and what is lost in
floating point. -/
structure Stats.Describes (s : Stats F) (secs : List F) (bytes : List ℤ) : Prop where
  n : s.n = secs.length
  below : s.n ≤ 2 * secs.countP (· ≤ s.medianS)
  above : s.n ≤ 2 * secs.countP (s.medianS ≤ ·)
  mem : s.p95S ∈ secs
  le : s.medianS ≤ s.p95S
  most : 2 ^ 48 * (19 * s.n) ≤ 2 ^ 48 * (20 * secs.countP (· ≤ s.p95S) + 10) + s.n
  least : 2 ^ 48 * (20 * (secs.countP (· < s.p95S) + 1)) ≤ 2 ^ 48 * (19 * s.n + 10) + s.n
  totalBytes : s.totalBytes = bytes.sum

theorem countP_le_add_lt (secs : List F) (x : F) :
    secs.countP (x ≤ ·) + secs.countP (· < x) = secs.length := by
  rw [List.length_eq_countP_add_countP (p := fun y => decide (x ≤ y))]
  congr 1
  exact List.countP_congr fun y _ => by simp

/-- The median is where it should be, and no later than the upper of the middle two. -/
theorem median_spec (hmid : ∀ a b, a ≤ b → a ≤ ops.mid a b ∧ ops.mid a b ≤ b) {secs : List F}
    (hne : secs ≠ []) :
    ∃ m upper, median ops secs = some m ∧ kth secs (secs.length / 2) = some upper ∧ m ≤ upper ∧
      secs.length ≤ 2 * secs.countP (· ≤ m) ∧ secs.length ≤ 2 * secs.countP (m ≤ ·) := by
  have hpos : 0 < secs.length := List.length_pos_iff.mpr hne
  obtain ⟨upper, hupper⟩ := exists_kth (l := secs) (k := secs.length / 2) (by omega)
  obtain ⟨hle, hlt⟩ := kth_spec hupper
  rw [median]
  by_cases hodd : secs.length % 2 = 1
  · have hsplit := countP_le_add_lt secs upper
    refine ⟨upper, upper, by rw [if_pos hodd, hupper], hupper, le_rfl, by omega, by omega⟩
  · obtain ⟨lower, hlower⟩ := exists_kth (l := secs) (k := secs.length / 2 - 1) (by omega)
    obtain ⟨hle', hlt'⟩ := kth_spec hlower
    obtain ⟨hm, hm'⟩ := hmid lower upper (kth_mono (by omega) hlower hupper)
    refine ⟨ops.mid lower upper, upper, ?_, hupper, hm', ?_, ?_⟩
    · rw [if_neg hodd, hlower, hupper]
      rfl
    · -- what is up to the lower one is up to the median
      have hmono : secs.countP (· ≤ lower) ≤ secs.countP (· ≤ ops.mid lower upper) :=
        List.countP_mono_left fun x _ hx => decide_eq_true (le_trans (of_decide_eq_true hx) hm)
      omega
    · have hsplit := countP_le_add_lt secs upper
      have hmono : secs.countP (upper ≤ ·) ≤ secs.countP (ops.mid lower upper ≤ ·) :=
        List.countP_mono_left fun x _ hx => decide_eq_true (le_trans hm' (of_decide_eq_true hx))
      omega

/-- The statistics of runs that there are describe them. -/
theorem stats_describes (hmid : ∀ a b, a ≤ b → a ≤ ops.mid a b ∧ ops.mid a b ≤ b)
    {secs : List F} (hne : secs ≠ []) (bytes : List ℤ) :
    ∃ s, stats ops secs bytes.sum = some s ∧ s.Describes secs bytes := by
  have hpos : 0 < secs.length := List.length_pos_iff.mpr hne
  obtain ⟨hindex, hmiddle, hfew, hmany⟩ := p95Index_bounds hpos
  obtain ⟨m, upper, hm, hupper, hle, hbelow, habove⟩ := median_spec hmid hne
  obtain ⟨p, hp⟩ := exists_kth hindex
  obtain ⟨hcount, hcount'⟩ := kth_spec hp
  refine ⟨⟨secs.length, m, p, bytes.sum⟩, ?_, rfl, hbelow, habove, kth_mem hp,
    le_trans hle (kth_mono hmiddle hupper hp), ?_, ?_, rfl⟩
  · rw [stats, hm, hp]
    rfl
  · show 2 ^ 48 * (19 * secs.length) ≤ 2 ^ 48 * (20 * secs.countP (· ≤ p) + 10) + secs.length
    omega
  · show 2 ^ 48 * (20 * (secs.countP (· < p) + 1)) ≤ 2 ^ 48 * (19 * secs.length + 10) + secs.length
    omega

theorem stats_perm {secs secs' : List F} (h : secs.Perm secs') (bytes : ℤ) :
    stats ops secs bytes = stats ops secs' bytes := by
  simp only [stats, median, h.length_eq, kth_perm h]

/-- The runs of one phase. -/
def ofPhase (samples : List (PhaseSample F)) (p : JobPhase) : List (PhaseSample F) :=
  samples.filter (·.phase = p)

/-- The statistics of a report describe the runs of each phase. -/
structure DescribesPhases (d : List (JobPhase × Stats F)) (samples : List (PhaseSample F)) :
    Prop where
  none_iff : ∀ p, d.lookup p = none ↔ ofPhase samples p = []
  describes : ∀ p, ∀ s ∈ d.lookup p, s.Describes ((ofPhase samples p).map PhaseSample.seconds)
    ((ofPhase samples p).map PhaseSample.bytes)
  n : (d.map fun e => e.2.n).sum = samples.length
  totalBytes : (d.map fun e => e.2.totalBytes).sum = (samples.map PhaseSample.bytes).sum

theorem stats_fields {secs : List F} {bytes : ℤ} {s : Stats F} (h : stats ops secs bytes = some s) :
    s.n = secs.length ∧ s.totalBytes = bytes := by
  obtain ⟨m, -, h⟩ := Option.bind_eq_some_iff.mp h
  obtain ⟨p, -, rfl⟩ := Option.map_eq_some_iff.mp h
  exact ⟨rfl, rfl⟩

/-- The rows of all the buckets are counted, and their bytes. -/
theorem sums_of_stats {items : List (JobPhase × List (PhaseSample F))}
    {d : List (JobPhase × Stats F)}
    (h : List.Forall₂ (fun e o => o.1 = e.1 ∧
      stats ops (e.2.map PhaseSample.seconds) (e.2.map PhaseSample.bytes).sum = some o.2) items d) :
    (d.map fun o => o.2.n).sum = (items.flatMap Prod.snd).length ∧
      (d.map fun o => o.2.totalBytes).sum =
        ((items.flatMap Prod.snd).map PhaseSample.bytes).sum := by
  induction h with
  | nil => exact ⟨rfl, rfl⟩
  | cons hhead _ ih =>
    obtain ⟨hn, hbytes⟩ := stats_fields hhead.2
    rw [List.map_cons, List.map_cons, List.sum_cons, List.sum_cons, List.flatMap_cons,
      List.length_append, List.map_append, List.sum_append, ih.1, ih.2, hn, hbytes,
      List.length_map]
    exact ⟨rfl, rfl⟩

theorem statsByPhase_spec (hmid : ∀ a b, a ≤ b → a ≤ ops.mid a b ∧ ops.mid a b ≤ b)
    (samples : List (PhaseSample F)) :
    ∃ d, statsByPhase ops samples = some d ∧
      (∀ p, d.lookup p = if ofPhase samples p = [] then none else
        stats ops ((ofPhase samples p).map PhaseSample.seconds)
          ((ofPhase samples p).map PhaseSample.bytes).sum) ∧
      DescribesPhases d samples := by
  obtain ⟨d, hd, hall, hlookup⟩ := mapM_values
    (f := fun l => stats ops (l.map PhaseSample.seconds) (l.map PhaseSample.bytes).sum)
    (bucketed PhaseSample.phase samples).items fun e he => by
      obtain ⟨s, hs, -⟩ := stats_describes hmid (mt List.map_eq_nil_iff.mp (bucketed_ne_nil _ he))
        (e.2.map PhaseSample.bytes)
      exact ⟨s, hs⟩
  have hget : ∀ p, d.lookup p = if ofPhase samples p = [] then none else
      stats ops ((ofPhase samples p).map PhaseSample.seconds)
        ((ofPhase samples p).map PhaseSample.bytes).sum := by
    intro p
    rw [hlookup, lookup_items, get?_bucketed, ← ofPhase]
    by_cases hnil : ofPhase samples p = []
    · rw [if_pos hnil, if_pos hnil]
      rfl
    · rw [if_neg hnil, if_neg hnil]
      rfl
  have hsum := sums_of_stats hall
  have hperm := flatMap_bucketed PhaseSample.phase samples
  refine ⟨d, hd, hget, fun p => ?_, fun p s hs => ?_, ?_, ?_⟩
  · rw [hget]
    by_cases hnil : ofPhase samples p = []
    · rw [if_pos hnil]
      exact iff_of_true rfl hnil
    · obtain ⟨s, hs, -⟩ := stats_describes hmid (mt List.map_eq_nil_iff.mp hnil)
        ((ofPhase samples p).map PhaseSample.bytes)
      rw [if_neg hnil, hs]
      exact iff_of_false (Option.some_ne_none s) hnil
  · rw [hget] at hs
    by_cases hnil : ofPhase samples p = []
    · rw [if_pos hnil] at hs
      cases hs
    · obtain ⟨s', hs', hdescribes⟩ := stats_describes hmid (mt List.map_eq_nil_iff.mp hnil)
        ((ofPhase samples p).map PhaseSample.bytes)
      rw [if_neg hnil, hs'] at hs
      exact Option.some.inj hs ▸ hdescribes
  · rw [hsum.1, hperm.length_eq]
  · rw [hsum.2, (hperm.map PhaseSample.bytes).sum_eq]

/-- The order of the runs does not matter. -/
theorem statsByPhase_perm (hmid : ∀ a b, a ≤ b → a ≤ ops.mid a b ∧ ops.mid a b ≤ b)
    {samples samples' : List (PhaseSample F)} (h : samples.Perm samples')
    {d d' : List (JobPhase × Stats F)} (hd : statsByPhase ops samples = some d)
    (hd' : statsByPhase ops samples' = some d') (p : JobPhase) : d.lookup p = d'.lookup p := by
  obtain ⟨e, he, hlookup, -⟩ := statsByPhase_spec hmid samples
  obtain ⟨e', he', hlookup', -⟩ := statsByPhase_spec hmid samples'
  obtain rfl := Option.some.inj (hd.symm.trans he)
  obtain rfl := Option.some.inj (hd'.symm.trans he')
  have hphase : (ofPhase samples p).Perm (ofPhase samples' p) := h.filter _
  have hnil : ofPhase samples p = [] ↔ ofPhase samples' p = [] :=
    ⟨fun hnil => (hnil ▸ hphase).nil_eq.symm, fun hnil => (hnil ▸ hphase).eq_nil⟩
  rw [hlookup, hlookup', stats_perm (hphase.map PhaseSample.seconds),
    (hphase.map PhaseSample.bytes).sum_eq]
  simp only [hnil]

omit [LinearOrder F] in
theorem bytes_wallSamples (rows : List (TimingRow F)) :
    (wallSamples rows).map PhaseSample.bytes = (rows.filter TimingRow.ok).map TimingRow.bytes := by
  rw [wallSamples, List.map_map]
  rfl

omit [LinearOrder F] in
theorem wallSamples_perm {rows rows' : List (TimingRow F)} (h : rows.Perm rows') :
    (wallSamples rows).Perm (wallSamples rows') := (h.filter _).map _

omit [LinearOrder F] in
theorem steadySamples_perm {rows rows' : List (TimingRow F)} (h : rows.Perm rows') :
    (steadySamples ops rows).Perm (steadySamples ops rows') := (h.filter _).filterMap _

/-- The headline depends on the order of the rows no more than the phases do. -/
theorem headline_perm (hmid : ∀ a b, a ≤ b → a ≤ ops.mid a b ∧ ops.mid a b ≤ b)
    {rows rows' : List (TimingRow F)} (h : rows.Perm rows') :
    headlineVsBaseline ops rows = headlineVsBaseline ops rows' := by
  obtain ⟨lat, hlat, -, hphases⟩ := statsByPhase_spec hmid (wallSamples rows)
  obtain ⟨lat', hlat', -, hphases'⟩ := statsByPhase_spec hmid (wallSamples rows')
  have hlookup := statsByPhase_perm hmid (wallSamples_perm h) hlat hlat'
  rw [headlineVsBaseline, headlineVsBaseline, latencyBySchemaPhase, latencyBySchemaPhase, hlat, hlat',
    Option.map_some, Option.map_some, hlookup, hlookup, hphases.totalBytes, hphases'.totalBytes,
    ((wallSamples_perm h).map PhaseSample.bytes).sum_eq, h.countP_eq]

end Meaning

/-- Seconds as fractions. -/
def exactSeconds : SecondsOps ℚ := ⟨0, 2, (· + ·), (· / ·)⟩

theorem exactSeconds_mid (a b : ℚ) (h : a ≤ b) :
    a ≤ exactSeconds.mid a b ∧ exactSeconds.mid a b ≤ b := by
  show a ≤ (a + b) / 2 ∧ (a + b) / 2 ≤ b
  constructor <;> linarith

/-- A run of the baseline and two warm ones, one of which has failed. -/
def threeRows : List (TimingRow ℚ) :=
  [⟨"baseline".toList, .baseline, ['m'], 10, 100, .none, true, true, none, some 9⟩,
    ⟨"shim".toList, .warm, ['m'], 2, 100, .none, false, true, none, none⟩,
    ⟨"shim".toList, .warm, ['m'], 60, 0, .none, false, false, none, none⟩]

end XetDcCache
