/-
The latency histogram (metrics.go `Observe`, `Histograms`).

`Observe` books a value in the slot that a binary search finds, the first whose bound the value
does not exceed (`latencySlot_le_iff`), and the snapshot sums the slots up.  So the values of a
source are all there is to its histogram: `Histogram.Holds` is what one value more preserves, and
`Histograms.Books` what one call does.

* `latency_histogram_exact` — what every snapshot of every run says.
-/
import XetDcCache.BinarySearch
import XetDcCache.Prometheus

namespace XetDcCache

/-! ### Observing -/

/-- Floating point numbers with their sum and their order; NaN has no place in the order. -/
structure FloatOrder (F : Type*) extends FloatOps F where
  add : F → F → F
  place : F → Option (WithBot (WithTop ℚ))
  place_ofInt : ∀ n : ℤ, |n| ≤ 2 ^ 53 →
    place (ofInt n) = some (((n : ℚ) : WithTop ℚ) : WithBot (WithTop ℚ))

section Model

variable {F : Type*} (ops : FloatOrder F)

/-- `a <= b`. -/
def FloatOrder.le (a b : F) : Bool :=
  match ops.place a, ops.place b with
  | some x, some y => x ≤ y
  | _, _ => false

/-- `sort.SearchFloat64s`. -/
def searchFloat64s (a : List F) (x : F) : ℕ :=
  BinarySearch.search fun i : Fin a.length => ops.le x a[i]

/-- `latencyBucketsMs` as it is compared with. -/
def latencyBounds : List F := latencyBucketsMs.map ops.ofInt

/-- A new histogram. -/
def Histogram.new : Histogram F where
  counts := List.replicate (latencyBucketsMs.length + 1) 0
  sum := ops.ofInt 0
  count := 0
  counts_length := List.length_replicate

/-- The slot of `counts` a value is booked in. -/
def latencySlot (len : ℕ) (ms : F) : ℕ :=
  let i := searchFloat64s ops (latencyBounds ops) ms
  if len ≤ i then len - 1 else i

/-- `Observe` on the histogram of its source, `none` when its index is out of range. -/
def Histogram.observe (h : Histogram F) (ms : F) : Option (Histogram F) :=
  let i := latencySlot ops h.counts.length ms
  h.counts[i]?.map fun n =>
    { counts := h.counts.set i (n + 1)
      sum := ops.add h.sum ms
      count := h.count + 1
      counts_length := by rw [List.length_set, h.counts_length] }

/-- The field `hist` of the metrics. -/
abbrev Histograms (F : Type*) := AList fun _ : GoString => Histogram F

def observe (hist : Histograms F) (source : GoString) (ms : F) : Option (Histograms F) :=
  (((hist.lookup source).getD (.new ops)).observe ops ms).map fun h => hist.insert source h

/-- The calls of `Observe` in their order. -/
def observeAll : Histograms F → List (GoString × F) → Option (Histograms F)
  | hist, [] => some hist
  | hist, o :: obs => (observe ops hist o.1 o.2).bind fun hist' => observeAll hist' obs

/-- What `Histograms` has for a source. -/
def snapshotOf (hist : Histograms F) (source : GoString) : Option (HistogramSnapshot F) :=
  (hist.lookup source).map (Histogram.snapshot ops.toFloatOps)

/-- `a < b`. -/
def FloatOrder.lt (a b : F) : Bool :=
  match ops.place a, ops.place b with
  | some x, some y => x < y
  | _, _ => false

/-- What a snapshot has to say of the values observed. -/
structure HistogramSnapshot.Exact (s : HistogramSnapshot F) (vs : List F) : Prop where
  buckets : s.buckets = latencyBounds ops
  length : s.cumulative.length = s.buckets.length
  cumulative : ∀ {i : ℕ} {b : F} {n : ℤ}, s.buckets[i]? = some b → s.cumulative[i]? = some n →
    n = vs.countP (ops.le · b)
  monotone : s.cumulative.Pairwise (· ≤ ·)
  le_count : ∀ n ∈ s.cumulative, n ≤ s.count
  count : s.count = vs.length
  above : ∀ n ∈ s.cumulative.getLast?,
    s.count - n = vs.countP fun v => s.buckets.all (ops.lt · v)
  sum : s.sum = vs.foldl ops.add (ops.ofInt 0)

/-- The values a source has been observed with. -/
def valuesOf (source : GoString) (obs : List (GoString × F)) : List F :=
  (obs.filter (·.1 = source)).map Prod.snd

end Model

/-! ### The slot of a value -/

variable {F : Type*} {ops : FloatOrder F}

@[simp] theorem latencyBounds_length : (latencyBounds ops).length = 11 := rfl

/-- A bound is the number it is written as. -/
theorem place_latencyBound {i : ℕ} {b : F} (hb : (latencyBounds ops)[i]? = some b) :
    ∃ n ∈ latencyBucketsMs[i]?,
      ops.place b = some (((n : ℚ) : WithTop ℚ) : WithBot (WithTop ℚ)) := by
  rw [latencyBounds, List.getElem?_map, Option.map_eq_some_iff] at hb
  obtain ⟨n, hn, rfl⟩ := hb
  have hsmall : ∀ n ∈ latencyBucketsMs, |n| ≤ 2 ^ 53 := by decide
  exact ⟨n, hn, ops.place_ofInt n (hsmall n (List.mem_of_getElem? hn))⟩

theorem latencyBucketsMs_sorted : latencyBucketsMs.Pairwise (· < ·) := by decide

/-- What does not exceed a bound does not exceed the later ones. -/
theorem le_latencyBound {v b b' : F} {i j : ℕ} (hb : (latencyBounds ops)[i]? = some b)
    (hb' : (latencyBounds ops)[j]? = some b') (hij : i ≤ j) (h : ops.le v b) : ops.le v b' := by
  obtain ⟨n, hn, hp⟩ := place_latencyBound hb
  obtain ⟨m, hm, hp'⟩ := place_latencyBound hb'
  have hnm : n ≤ m := by
    rcases Nat.lt_or_eq_of_le hij with hlt | rfl
    · obtain ⟨hi, rfl⟩ := List.getElem?_eq_some_iff.mp hn
      obtain ⟨hj, rfl⟩ := List.getElem?_eq_some_iff.mp hm
      exact le_of_lt (List.pairwise_iff_getElem.mp latencyBucketsMs_sorted i j hi hj hlt)
    · rw [Option.mem_def.mp hn, Option.mem_some_iff] at hm
      exact le_of_eq hm
  rw [FloatOrder.le, hp] at h
  rw [FloatOrder.le, hp']
  cases hv : ops.place v with
  | none =>
    rw [hv] at h
    cases h
  | some x =>
    rw [hv] at h
    have hx := of_decide_eq_true h
    refine decide_eq_true (hx.trans ?_)
    exact WithBot.coe_le_coe.mpr (WithTop.coe_le_coe.mpr (by exact_mod_cast hnm))

theorem latencySlot_mono (v : F) {i j : Fin (latencyBounds ops).length} (hij : i ≤ j)
    (h : ops.le v (latencyBounds ops)[i]) : ops.le v (latencyBounds ops)[j] :=
  le_latencyBound (List.getElem?_eq_getElem i.isLt) (List.getElem?_eq_getElem j.isLt)
    (Fin.le_def.mp hij) h

/-- The search never leaves the slots, so the overflow slot is not what the guard makes of an
index out of range but the search's own answer. -/
theorem latencySlot_eq (v : F) :
    latencySlot ops 12 v = searchFloat64s ops (latencyBounds ops) v := by
  have hle : searchFloat64s ops (latencyBounds ops) v ≤ 11 :=
    BinarySearch.search_le (latencySlot_mono v)
  rw [latencySlot]
  exact if_neg (by omega)

theorem latencySlot_lt (v : F) : latencySlot ops 12 v < 12 := by
  rw [latencySlot_eq]
  exact Nat.lt_succ_of_le (BinarySearch.search_le (latencySlot_mono v))

/-- The slot of a value is the first whose bound it does not exceed. -/
theorem latencySlot_le_iff {v b : F} {i : ℕ} (hb : (latencyBounds ops)[i]? = some b) :
    latencySlot ops 12 v ≤ i ↔ ops.le v b := by
  obtain ⟨hi, rfl⟩ := List.getElem?_eq_some_iff.mp hb
  rw [latencySlot_eq]
  exact BinarySearch.search_le_iff (latencySlot_mono v) ⟨i, hi⟩

/-! ### What a histogram counts -/

/-- The histogram has booked these values. -/
structure Histogram.Holds (ops : FloatOrder F) (h : Histogram F) (vs : List F) : Prop where
  counts : ∀ {i : ℕ} {n : ℤ}, h.counts[i]? = some n →
    n = vs.countP fun v => latencySlot ops 12 v = i
  sum : h.sum = vs.foldl ops.add (ops.ofInt 0)
  count : h.count = vs.length

theorem Histogram.holds_new : (Histogram.new ops).Holds ops [] where
  counts {i n} h := by
    rw [new, List.getElem?_replicate] at h
    split at h
    · exact (Option.some_inj.mp h).symm
    · cases h
  sum := rfl
  count := rfl

/-- Every call of `Observe` finds its slot. -/
theorem Histogram.Holds.observe {h : Histogram F} {vs : List F} (hh : h.Holds ops vs) (ms : F) :
    ∃ h', h.observe ops ms = some h' ∧ h'.Holds ops (vs ++ [ms]) := by
  have hlen : h.counts.length = 12 := h.counts_length
  have hlt : latencySlot ops 12 ms < h.counts.length :=
    lt_of_lt_of_eq (latencySlot_lt ms) hlen.symm
  rw [Histogram.observe]
  simp only [hlen]
  rw [List.getElem?_eq_getElem hlt, Option.map_some]
  refine ⟨_, rfl, fun {i n} hn => ?_, ?_, ?_⟩
  · rw [List.countP_append, List.countP_singleton]
    by_cases hi : latencySlot ops 12 ms = i
    · subst hi
      have hold := hh.counts (List.getElem?_eq_getElem hlt)
      rw [List.getElem?_set_self hlt, Option.some_inj] at hn
      rw [if_pos (decide_eq_true rfl), ← hn, hold]
      push_cast
      rfl
    · rw [List.getElem?_set_ne hi] at hn
      rw [if_neg (by simpa using hi), hh.counts hn, Nat.add_zero]
  · rw [List.foldl_append, ← hh.sum]
    rfl
  · rw [List.length_append, List.length_singleton]
    push_cast
    rw [← hh.count]

/-! ### The snapshot -/

/-- The values in the slots up to one are those in the slots before it and in it. -/
theorem countP_slot_succ (vs : List F) (i : ℕ) :
    (vs.countP fun v => latencySlot ops 12 v ≤ i + 1) =
      (vs.countP fun v => latencySlot ops 12 v ≤ i) +
        vs.countP fun v => latencySlot ops 12 v = i + 1 := by
  induction vs with
  | nil => rfl
  | cons v vs ih =>
    simp only [List.countP_cons, ih, decide_eq_true_eq]
    split_ifs <;> omega

/-- The sum of the first slots. -/
theorem Histogram.Holds.sum_take {h : Histogram F} {vs : List F} (hh : h.Holds ops vs) :
    ∀ {i : ℕ}, i < 12 → (h.counts.take (i + 1)).sum =
      (vs.countP fun v => latencySlot ops 12 v ≤ i : ℕ) := by
  have hlen : h.counts.length = 12 := h.counts_length
  intro i
  induction i with
  | zero =>
    intro hi
    have hlt : 0 < h.counts.length := by omega
    rw [List.take_succ_eq_append_getElem hlt, List.take_zero, List.nil_append, List.sum_singleton,
      hh.counts (List.getElem?_eq_getElem hlt)]
    simp only [Nat.le_zero]
  | succ i ih =>
    intro hi
    have hlt : i + 1 < h.counts.length := by omega
    rw [List.take_succ_eq_append_getElem hlt, List.sum_append, ih (by omega), List.sum_singleton,
      hh.counts (List.getElem?_eq_getElem hlt), countP_slot_succ]
    push_cast
    rfl

theorem Histogram.snapshot_cumulative_length (h : Histogram F) :
    (h.snapshot ops.toFloatOps).cumulative.length = 11 := by
  have hlen : h.counts.length = 12 := h.counts_length
  rw [snapshot, List.length_tail, List.length_scanl, List.length_take, hlen]
  rfl

theorem Histogram.Holds.cumulative {h : Histogram F} {vs : List F} (hh : h.Holds ops vs) {i : ℕ}
    {n : ℤ} (hn : (h.snapshot ops.toFloatOps).cumulative[i]? = some n) :
    i < 11 ∧ n = (vs.countP fun v => latencySlot ops 12 v ≤ i : ℕ) := by
  have hi : i < 11 := by
    have := (List.getElem?_eq_some_iff.mp hn).1
    rwa [snapshot_cumulative_length] at this
  refine ⟨hi, ?_⟩
  rw [snapshot, List.getElem?_tail, List.getElem?_scanl] at hn
  split at hn
  · have hbuckets : latencyBucketsMs.length = 11 := rfl
    rw [Option.some_inj, ← List.sum_eq_foldl, List.take_take, hbuckets,
      min_eq_left (by omega)] at hn
    rw [← hn, hh.sum_take (by omega)]
  · cases hn

/-- A number not at most another is above it. -/
theorem FloatOrder.lt_iff {a b : F} (ha : (ops.place a).isSome) (hb : (ops.place b).isSome) :
    ops.lt b a ↔ ¬ ops.le a b := by
  obtain ⟨x, hx⟩ := Option.isSome_iff_exists.mp ha
  obtain ⟨y, hy⟩ := Option.isSome_iff_exists.mp hb
  rw [lt, le, hx, hy]
  show decide (y < x) = true ↔ ¬ decide (x ≤ y) = true
  rw [decide_eq_true_iff, decide_eq_true_iff, not_le]

/-- Above every bound is what does not fit in the last bucket. -/
theorem above_iff {v : F} (hv : (ops.place v).isSome) :
    (latencyBounds ops).all (ops.lt · v) ↔ ¬ latencySlot ops 12 v ≤ 10 := by
  have hplace : ∀ b ∈ latencyBounds ops, (ops.place b).isSome := by
    intro b hb
    obtain ⟨i, hi⟩ := List.getElem?_of_mem hb
    obtain ⟨n, -, hp⟩ := place_latencyBound hi
    rw [hp]
    rfl
  rw [List.all_eq_true]
  constructor
  · intro h hle
    obtain ⟨b, hb⟩ : ∃ b, (latencyBounds ops)[10]? = some b := ⟨_, rfl⟩
    have hmem := List.mem_of_getElem? hb
    exact (FloatOrder.lt_iff hv (hplace b hmem)).mp (h b hmem) ((latencySlot_le_iff hb).mp hle)
  · intro h b hb
    obtain ⟨i, hi⟩ := List.getElem?_of_mem hb
    have hlt : i < 11 := (List.getElem?_eq_some_iff.mp hi).1
    refine (FloatOrder.lt_iff hv (hplace b hb)).mpr fun hle => h ?_
    have := (latencySlot_le_iff hi).mpr hle
    omega

theorem Histogram.Holds.exact {h : Histogram F} {vs : List F} (hh : h.Holds ops vs)
    (hvs : ∀ v ∈ vs, (ops.place v).isSome) : (h.snapshot ops.toFloatOps).Exact ops vs where
  buckets := rfl
  length := h.snapshot_cumulative_length
  cumulative {i b n} hb hn := by
    obtain ⟨-, rfl⟩ := hh.cumulative hn
    refine congrArg Nat.cast (List.countP_congr fun v _ => ?_)
    rw [decide_eq_true_iff]
    exact latencySlot_le_iff hb
  monotone := by
    refine List.pairwise_iff_getElem.mpr fun i j hi hj hij => ?_
    obtain ⟨-, hn⟩ := hh.cumulative (List.getElem?_eq_getElem hi)
    obtain ⟨-, hm⟩ := hh.cumulative (List.getElem?_eq_getElem hj)
    rw [hn, hm]
    refine Int.ofNat_le.mpr (List.countP_mono_left fun v _ hv => ?_)
    rw [decide_eq_true_iff] at hv ⊢
    omega
  le_count n hn := by
    obtain ⟨i, hi⟩ := List.getElem?_of_mem hn
    obtain ⟨-, rfl⟩ := hh.cumulative hi
    show _ ≤ h.count
    rw [hh.count]
    exact Int.ofNat_le.mpr List.countP_le_length
  count := hh.count
  above n hn := by
    rw [Option.mem_def, List.getLast?_eq_getElem?, h.snapshot_cumulative_length] at hn
    have hlast : (h.snapshot ops.toFloatOps).cumulative[10]? = some n := hn
    obtain ⟨-, rfl⟩ := hh.cumulative hlast
    show h.count - _ = _
    have hsplit := List.length_eq_countP_add_countP (fun v => latencySlot ops 12 v ≤ 10) (l := vs)
    have habove : (vs.countP fun v => (latencyBounds ops).all (ops.lt · v)) =
        vs.countP fun v => ¬ latencySlot ops 12 v ≤ 10 := by
      refine List.countP_congr fun v hv => ?_
      rw [decide_eq_true_iff]
      exact above_iff (hvs v hv)
    rw [hh.count]
    show (vs.length : ℤ) - _ = (vs.countP fun v => (latencyBounds ops).all (ops.lt · v) : ℕ)
    rw [habove]
    simp only [decide_eq_true_eq] at hsplit
    omega
  sum := hh.sum

/-! ### Every run -/

theorem valuesOf_concat (source src : GoString) (obs : List (GoString × F)) (ms : F) :
    valuesOf src (obs ++ [(source, ms)]) =
      if src = source then valuesOf src obs ++ [ms] else valuesOf src obs := by
  rw [valuesOf, List.filter_append, List.map_append]
  by_cases hs : src = source
  · simp [hs, valuesOf]
  · simp [hs, Ne.symm hs, valuesOf]

theorem valuesOf_ne_nil {source : GoString} {obs : List (GoString × F)} :
    valuesOf source obs ≠ [] ↔ ∃ o ∈ obs, o.1 = source := by
  rw [valuesOf, Ne, List.map_eq_nil_iff, List.filter_eq_nil_iff]
  simp

/-- The histogram of a source holds the values of the source, and there is one if there are
any. -/
structure Histograms.Books (ops : FloatOrder F) (hist : Histograms F)
    (obs : List (GoString × F)) : Prop where
  isSome : ∀ source, (hist.lookup source).isSome ↔ valuesOf source obs ≠ []
  holds : ∀ {source h}, hist.lookup source = some h → h.Holds ops (valuesOf source obs)

theorem Histograms.books_empty (ops : FloatOrder F) : (∅ : Histograms F).Books ops [] where
  isSome source := by
    rw [AList.lookup_empty]
    exact ⟨nofun, fun h => absurd rfl h⟩
  holds {source h} hl := by
    rw [AList.lookup_empty] at hl
    cases hl

/-- A call of `Observe` finds its slot, and books the value under its source alone. -/
theorem Histograms.Books.observe {hist : Histograms F} {obs : List (GoString × F)}
    (hB : hist.Books ops obs) (source : GoString) (ms : F) :
    ∃ hist', XetDcCache.observe ops hist source ms = some hist' ∧
      Books ops hist' (obs ++ [(source, ms)]) := by
  have hold : ((hist.lookup source).getD (.new ops)).Holds ops (valuesOf source obs) := by
    cases hl : hist.lookup source with
    | some h => exact hB.holds hl
    | none =>
      -- a source that has no histogram has no values yet
      have hnone : valuesOf source obs = [] := by
        by_contra hne
        have := (hB.isSome source).mpr hne
        rw [hl] at this
        cases this
      rw [hnone]
      exact Histogram.holds_new
  obtain ⟨h', hobs, hh'⟩ := hold.observe ms
  refine ⟨hist.insert source h', by rw [XetDcCache.observe, hobs, Option.map_some], ?_, ?_⟩
  · intro src
    rw [valuesOf_concat]
    by_cases hs : src = source
    · subst hs
      rw [AList.lookup_insert, if_pos rfl]
      simp
    · rw [AList.lookup_insert_ne hs, hB.isSome, if_neg hs]
  · intro src h hl
    rw [valuesOf_concat]
    by_cases hs : src = source
    · subst hs
      rw [AList.lookup_insert, Option.some_inj] at hl
      rw [if_pos rfl, ← hl]
      exact hh'
    · rw [AList.lookup_insert_ne hs] at hl
      rw [if_neg hs]
      exact hB.holds hl

theorem Histograms.Books.observeAll {hist : Histograms F} {obs : List (GoString × F)}
    (hB : hist.Books ops obs) (rest : List (GoString × F)) :
    ∃ hist', XetDcCache.observeAll ops hist rest = some hist' ∧ Books ops hist' (obs ++ rest) := by
  induction rest generalizing hist obs with
  | nil => exact ⟨hist, rfl, by rwa [List.append_nil]⟩
  | cons o rest ih =>
    obtain ⟨hist₁, h₁, hB₁⟩ := hB.observe o.1 o.2
    obtain ⟨hist₂, h₂, hB₂⟩ := ih hB₁
    refine ⟨hist₂, by rw [XetDcCache.observeAll, h₁, Option.bind_some, h₂], ?_⟩
    rwa [List.append_assoc] at hB₂

/-- The values decide the histogram. -/
theorem Histogram.Holds.unique {h h' : Histogram F} {vs : List F} (hh : h.Holds ops vs)
    (hh' : h'.Holds ops vs) : h = h' := by
  have hcounts : h.counts = h'.counts := by
    refine List.ext_getElem (h.counts_length.trans h'.counts_length.symm) fun i hi hi' => ?_
    rw [hh.counts (List.getElem?_eq_getElem hi), hh'.counts (List.getElem?_eq_getElem hi')]
  obtain ⟨counts, sum, count, hlen⟩ := h
  obtain ⟨counts', sum', count', hlen'⟩ := h'
  obtain rfl : counts = counts' := hcounts
  obtain rfl : sum = sum' := hh.sum.trans hh'.sum.symm
  obtain rfl : count = count' := hh.count.trans hh'.count.symm
  rfl

/-- A source has the histogram of its own values. -/
theorem Histograms.Books.lookup_eq {hist hist' : Histograms F} {obs obs' : List (GoString × F)}
    (hB : hist.Books ops obs) (hB' : hist'.Books ops obs') {source : GoString}
    (heq : valuesOf source obs' = valuesOf source obs) :
    hist'.lookup source = hist.lookup source := by
  have hsome : (hist'.lookup source).isSome ↔ (hist.lookup source).isSome := by
    rw [hB'.isSome, hB.isSome, heq]
  cases hl : hist.lookup source with
  | none =>
    rw [hl] at hsome
    cases hl' : hist'.lookup source with
    | none => rfl
    | some h' =>
      rw [hl'] at hsome
      cases hsome.mp rfl
  | some h =>
    rw [hl] at hsome
    obtain ⟨h', hl'⟩ := Option.isSome_iff_exists.mp (hsome.mpr rfl)
    have hh' := hB'.holds hl'
    rw [heq] at hh'
    rw [hl', (hB.holds hl).unique hh']

/-- **The latency histogram is exact**, whatever is observed in whatever order: no call of
`Observe` is out of range, the snapshot of a source counts its values bucket by bucket, and the
values of the others make no difference to it. -/
theorem latency_histogram_exact (ops : FloatOrder F) (obs : List (GoString × F))
    (hobs : ∀ o ∈ obs, (ops.place o.2).isSome) :
    ∃ hist, observeAll ops ∅ obs = some hist ∧
      (∀ source, (snapshotOf ops hist source).isSome ↔ ∃ o ∈ obs, o.1 = source) ∧
      (∀ source, ∀ s ∈ snapshotOf ops hist source, s.Exact ops (valuesOf source obs)) ∧
      ∀ source obs' hist', valuesOf source obs' = valuesOf source obs →
        observeAll ops ∅ obs' = some hist' →
        snapshotOf ops hist' source = snapshotOf ops hist source := by
  obtain ⟨hist, hall, hB⟩ := (Histograms.books_empty ops).observeAll obs
  rw [List.nil_append] at hB
  refine ⟨hist, hall, fun source => ?_, fun source s hs => ?_,
    fun source obs' hist' heq hall' => ?_⟩
  · rw [snapshotOf, Option.isSome_map, hB.isSome, valuesOf_ne_nil]
  · obtain ⟨h, hl, rfl⟩ := Option.map_eq_some_iff.mp hs
    refine (hB.holds hl).exact fun v hv => ?_
    obtain ⟨o, ho, rfl⟩ := List.mem_map.mp hv
    exact hobs o (List.mem_of_mem_filter ho)
  · obtain ⟨hist₂, hall₂, hB₂⟩ := (Histograms.books_empty ops).observeAll obs'
    rw [hall', Option.some_inj] at hall₂
    subst hall₂
    rw [List.nil_append] at hB₂
    rw [snapshotOf, snapshotOf, hB.lookup_eq hB₂ heq]

/-- Whole numbers, as they are ordered. -/
def wholeOrder : FloatOrder ℤ where
  toFloatOps := wholeOps
  add := (· + ·)
  place n := some (((n : ℚ) : WithTop ℚ) : WithBot (WithTop ℚ))
  place_ofInt _ _ := rfl

/-- One value below 5 ms, one equal to a bound and one above them all, with one of another source
between them. -/
def threeValues : List (GoString × ℤ) :=
  let cdn := GoString.ofStr "cdn".toList
  [(cdn, 3), (cdn, 50), (.ofStr "hit".toList, 3), (cdn, 7000)]

theorem latency_histogram_exact_threeValues :
    ∃ hist, observeAll wholeOrder ∅ threeValues = some hist ∧
      ∀ s ∈ snapshotOf wholeOrder hist (.ofStr "cdn".toList),
        s.Exact wholeOrder [3, 50, 7000] := by
  obtain ⟨hist, hall, -, hexact, -⟩ :=
    latency_histogram_exact wholeOrder threeValues (by decide)
  exact ⟨hist, hall, hexact (.ofStr "cdn".toList)⟩

example :
    (observeAll wholeOrder ∅ threeValues).map (fun hist =>
        (snapshotOf wholeOrder hist (.ofStr "cdn".toList)).map HistogramSnapshot.cumulative) =
      some (some [0, 1, 1, 1, 2, 2, 2, 2, 2, 2, 2]) := by
  decide

end XetDcCache
