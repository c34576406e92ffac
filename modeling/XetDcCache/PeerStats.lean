/-
How long a peer is given before the hedge (peers.go `peerStats`).

`update` blends the throughput of a completed transfer into the average of its peer, so the
average of a peer is the `Ewma.ewma` of its own samples in their order (`lookup_after`), whatever
the transfers of the others are.  Rationals stand for the floating point numbers.

* `throughput_prediction` — what the average and the delay made of it are bound to be.
-/
import XetDcCache.Ewma
import XetDcCache.Upstream

namespace XetDcCache

/-! ### The delay -/

/-- Between `lo` and `hi`, where `hi` is applied last. -/
def clamp (lo hi ms : ℚ) : ℚ :=
  let ms := if ms < lo then lo else ms
  if hi < ms then hi else ms

/-- `hedgeDelay` in milliseconds, with rationals for the floating point numbers. -/
def hedgeDelay (ewma : Option ℚ) (size : ℤ) (factor : ℚ) (minMs maxMs : ℕ) : ℕ :=
  match ewma with
  | none => maxMs
  | some tp => if tp ≤ 0 then maxMs else ⌊clamp minMs maxMs ((size : ℚ) / tp * factor)⌋₊

/-- The `time.Duration` of so many milliseconds. -/
def duration (ms : ℕ) : Int64 := Int64.ofNat ms * 1000000

/-! ### The averages -/

/-- A completed GET to a peer: what `update` is called with. -/
structure Transfer where
  base : Url
  bytes : ℕ
  /-- In nanoseconds, of a clock that may be set back. -/
  elapsed : ℤ

/-- Its throughput in bytes per millisecond. -/
def Transfer.sample (x : Transfer) : ℚ :=
  let ms := x.elapsed.tdiv 1000000
  let ms := if ms ≤ 0 then 1 else ms
  x.bytes / ms

def ewmaAlpha : ℚ := 3 / 10

abbrev PeerStats := AList fun _ : Url => ℚ

def PeerStats.update (p : PeerStats) (x : Transfer) : PeerStats :=
  match p.lookup x.base with
  | some cur => p.insert x.base (ewmaAlpha * x.sample + (1 - ewmaAlpha) * cur)
  | none => p.insert x.base x.sample

/-- The statistics after these transfers, in the order of their updates. -/
def PeerStats.after (history : List Transfer) : PeerStats := history.foldl update ∅

/-- The samples of one peer. -/
def samplesOf (base : Url) (history : List Transfer) : List ℚ :=
  (history.filter (·.base = base)).map Transfer.sample

/-- The delay for a range of a peer. -/
def PeerStats.hedgeDelay (p : PeerStats) (base : Url) (size : ℤ) (factor : ℚ) (minMs maxMs : ℕ) :
    ℕ :=
  XetDcCache.hedgeDelay (p.lookup base) size factor minMs maxMs

/-! ### The average of a peer -/

theorem PeerStats.lookup_update (p : PeerStats) (x : Transfer) (base : Url) :
    (p.update x).lookup base =
      if x.base = base then some (Ewma.next ewmaAlpha (p.lookup base) x.sample)
      else p.lookup base := by
  rw [update]
  by_cases hb : x.base = base
  · subst hb
    rw [if_pos rfl]
    cases p.lookup x.base with
    | none => exact AList.lookup_insert p
    | some cur => exact AList.lookup_insert p
  · rw [if_neg hb]
    cases p.lookup x.base with
    | none => exact AList.lookup_insert_ne (Ne.symm hb)
    | some cur => exact AList.lookup_insert_ne (Ne.symm hb)

/-- The average of a peer is that of its own samples. -/
theorem PeerStats.lookup_after (history : List Transfer) (base : Url) :
    (after history).lookup base = Ewma.ewma ewmaAlpha (samplesOf base history) := by
  have hfold : ∀ p : PeerStats, (history.foldl update p).lookup base =
      Ewma.ewmaFrom ewmaAlpha (p.lookup base) (samplesOf base history) := by
    induction history with
    | nil => exact fun _ => rfl
    | cons x history ih =>
      intro p
      rw [List.foldl_cons, ih, lookup_update]
      by_cases hb : x.base = base
      · rw [if_pos hb, samplesOf, samplesOf, List.filter_cons_of_pos (by simpa using hb),
          List.map_cons, Ewma.ewmaFrom_cons]
      · rw [if_neg hb, samplesOf, samplesOf, List.filter_cons_of_neg (by simpa using hb)]
  exact hfold ∅

theorem samplesOf_ne_nil {base : Url} {history : List Transfer} :
    samplesOf base history ≠ [] ↔ ∃ x ∈ history, x.base = base := by
  rw [samplesOf, Ne, List.map_eq_nil_iff, List.filter_eq_nil_iff]
  simp

theorem ewmaAlpha_between : 0 ≤ ewmaAlpha ∧ ewmaAlpha ≤ 1 := by
  rw [ewmaAlpha]
  norm_num

/-- The average of a peer is between its least and its greatest sample. -/
theorem PeerStats.after_between {history : List Transfer} {base : Url} {tp : ℚ}
    (h : (after history).lookup base = some tp) :
    ∃ lo ∈ samplesOf base history, ∃ hi ∈ samplesOf base history,
      (∀ x ∈ samplesOf base history, lo ≤ x ∧ x ≤ hi) ∧ lo ≤ tp ∧ tp ≤ hi := by
  rw [lookup_after] at h
  have hne : samplesOf base history ≠ [] := by
    rw [← Ewma.ewma_isSome (α := ewmaAlpha), h]
    rfl
  have hfin : (samplesOf base history).toFinset.Nonempty := by
    rwa [List.toFinset_nonempty_iff]
  obtain ⟨lo, hlo, hmin⟩ := Finset.exists_min_image _ id hfin
  obtain ⟨hi, hhi, hmax⟩ := Finset.exists_max_image _ id hfin
  rw [List.mem_toFinset] at hlo hhi
  have hbounds : ∀ x ∈ samplesOf base history, lo ≤ x ∧ x ≤ hi := fun x hx =>
    ⟨hmin x (List.mem_toFinset.mpr hx), hmax x (List.mem_toFinset.mpr hx)⟩
  exact ⟨lo, hlo, hi, hhi, hbounds,
    Ewma.ewma_between ewmaAlpha_between.1 ewmaAlpha_between.2 hbounds tp h⟩

/-! ### What the delay depends on -/

theorem clamp_eq (lo hi ms : ℚ) : clamp lo hi ms = min hi (max lo ms) := by
  have hmax : (if ms < lo then lo else ms) = max lo ms := by
    split
    · next h => exact (max_eq_left (le_of_lt h)).symm
    · next h => exact (max_eq_right (not_lt.mp h)).symm
  rw [clamp, hmax]
  split
  · next h => exact (min_eq_left (le_of_lt h)).symm
  · next h => exact (min_eq_right (not_lt.mp h)).symm

theorem clamp_mono {lo hi ms ms' : ℚ} (h : ms ≤ ms') : clamp lo hi ms ≤ clamp lo hi ms' := by
  rw [clamp_eq, clamp_eq]
  exact min_le_min_left hi (max_le_max_left lo h)

theorem hedgeDelay_le (ewma : Option ℚ) (size : ℤ) (factor : ℚ) (minMs maxMs : ℕ) :
    hedgeDelay ewma size factor minMs maxMs ≤ maxMs := by
  cases ewma with
  | none => exact le_rfl
  | some tp =>
    rw [hedgeDelay]
    split
    · exact le_rfl
    · refine Nat.floor_le_of_le ?_
      rw [clamp_eq]
      exact min_le_left _ _

theorem le_hedgeDelay (ewma : Option ℚ) (size : ℤ) (factor : ℚ) {minMs maxMs : ℕ}
    (h : minMs ≤ maxMs) : minMs ≤ hedgeDelay ewma size factor minMs maxMs := by
  cases ewma with
  | none => exact h
  | some tp =>
    rw [hedgeDelay]
    split
    · exact h
    · refine Nat.le_floor ?_
      rw [clamp_eq]
      exact le_min (Nat.cast_le.mpr h) (le_max_left _ _)

/-- A peer that has no positive average is given all the time there is. -/
theorem hedgeDelay_of_not_pos {ewma : Option ℚ} (h : ∀ tp ∈ ewma, tp ≤ 0) (size : ℤ) (factor : ℚ)
    (minMs maxMs : ℕ) : hedgeDelay ewma size factor minMs maxMs = maxMs := by
  cases ewma with
  | none => rfl
  | some tp => rw [hedgeDelay, if_pos (h tp rfl)]

theorem hedgeDelay_mono (ewma : Option ℚ) {size size' : ℤ} {factor : ℚ} (hf : 0 ≤ factor)
    (minMs maxMs : ℕ) (h : size ≤ size') :
    hedgeDelay ewma size factor minMs maxMs ≤ hedgeDelay ewma size' factor minMs maxMs := by
  cases ewma with
  | none => exact le_rfl
  | some tp =>
    rw [hedgeDelay, hedgeDelay]
    split
    · exact le_rfl
    · next htp =>
      have hpos : 0 < tp := not_le.mp htp
      have hcast : (size : ℚ) ≤ size' := Int.cast_le.mpr h
      refine Nat.floor_mono (clamp_mono ?_)
      gcongr

/-- A better average never makes the delay longer. -/
theorem hedgeDelay_antitone {ewma ewma' : Option ℚ} (h : ewma.Rel (· ≤ ·) ewma') (size : ℤ)
    {factor : ℚ} (hf : 0 ≤ factor) (minMs maxMs : ℕ) :
    hedgeDelay ewma' size factor minMs maxMs ≤ hedgeDelay ewma size factor minMs maxMs := by
  cases h with
  | none => exact le_rfl
  | @some tp tp' htp =>
    by_cases hpos : tp ≤ 0
    · have hnone : ∀ t ∈ some tp, t ≤ 0 := fun _ h => Option.some_inj.mp h ▸ hpos
      rw [hedgeDelay_of_not_pos hnone]
      exact hedgeDelay_le _ _ _ _ _
    · have hpos := not_le.mp hpos
      have hpos' : 0 < tp' := lt_of_lt_of_le hpos htp
      rw [hedgeDelay, hedgeDelay, if_neg (not_le.mpr hpos), if_neg (not_le.mpr hpos')]
      refine Nat.floor_mono ?_
      rcases le_total 0 size with hs | hs
      · have hcast : (0 : ℚ) ≤ size := Int.cast_nonneg hs
        refine clamp_mono ?_
        gcongr
      · -- a range of negative size has the shortest delay whatever the throughput
        have hcast : (size : ℚ) ≤ 0 := Int.cast_nonpos.mpr hs
        have hleast : ∀ t : ℚ, 0 < t → max (minMs : ℚ) (size / t * factor) = minMs := fun t ht =>
          max_eq_left ((mul_nonpos_of_nonpos_of_nonneg (div_nonpos_of_nonpos_of_nonneg hcast
            (le_of_lt ht)) hf).trans (Nat.cast_nonneg _))
        rw [clamp_eq, clamp_eq, hleast tp hpos, hleast tp' hpos']

/-- **The prediction of a peer's throughput**, after any history: there is an average of a peer
just when it was updated, it is between the least and the greatest of the peer's own samples, and
the updates of other peers make no difference to it; and the delay it predicts is within its
limits, grows with the size, is the longest where no throughput is known, and no longer where any
of the samples is greater. -/
theorem throughput_prediction (history : List Transfer) (base : Url) {factor : ℚ}
    {minMs maxMs : ℕ} (hfactor : 0 ≤ factor) (hlimits : minMs ≤ maxMs) :
    (((PeerStats.after history).lookup base).isSome ↔ ∃ x ∈ history, x.base = base) ∧
    (∀ tp ∈ (PeerStats.after history).lookup base,
      ∃ lo ∈ samplesOf base history, ∃ hi ∈ samplesOf base history,
        (∀ x ∈ samplesOf base history, lo ≤ x ∧ x ≤ hi) ∧ lo ≤ tp ∧ tp ≤ hi) ∧
    (∀ history', samplesOf base history' = samplesOf base history →
      (PeerStats.after history').lookup base = (PeerStats.after history).lookup base) ∧
    (∀ size, minMs ≤ (PeerStats.after history).hedgeDelay base size factor minMs maxMs ∧
      (PeerStats.after history).hedgeDelay base size factor minMs maxMs ≤ maxMs) ∧
    (∀ size size', size ≤ size' →
      (PeerStats.after history).hedgeDelay base size factor minMs maxMs ≤
        (PeerStats.after history).hedgeDelay base size' factor minMs maxMs) ∧
    ((∀ tp ∈ (PeerStats.after history).lookup base, tp ≤ 0) → ∀ size,
      (PeerStats.after history).hedgeDelay base size factor minMs maxMs = maxMs) ∧
    ∀ history', List.Forall₂ (· ≤ ·) (samplesOf base history) (samplesOf base history') →
      ∀ size, (PeerStats.after history').hedgeDelay base size factor minMs maxMs ≤
        (PeerStats.after history).hedgeDelay base size factor minMs maxMs := by
  refine ⟨?_, fun tp htp => PeerStats.after_between htp, ?_, ?_, ?_, ?_, ?_⟩
  · rw [PeerStats.lookup_after, Ewma.ewma_isSome, samplesOf_ne_nil]
  · intro history' heq
    rw [PeerStats.lookup_after, PeerStats.lookup_after, heq]
  · exact fun size => ⟨le_hedgeDelay _ _ _ hlimits, hedgeDelay_le _ _ _ _ _⟩
  · exact fun size size' h => hedgeDelay_mono _ hfactor _ _ h
  · exact fun h size => hedgeDelay_of_not_pos h _ _ _ _
  · intro history' hraised size
    refine hedgeDelay_antitone ?_ size hfactor minMs maxMs
    rw [PeerStats.lookup_after, PeerStats.lookup_after]
    exact Ewma.ewma_mono ewmaAlpha_between.1 ewmaAlpha_between.2 hraised

/-- A megabyte in a second, and then ten of another peer. -/
def twoTransfers : List Transfer :=
  [⟨lit "https://a:8000", 1000000, 1000000000⟩, ⟨lit "https://b:8000", 1000000, 100000000⟩]

theorem throughput_prediction_twoTransfers :
    (∀ size, 50 ≤ (PeerStats.after twoTransfers).hedgeDelay (lit "https://a:8000") size (3 / 2)
        50 1000 ∧
      (PeerStats.after twoTransfers).hedgeDelay (lit "https://a:8000") size (3 / 2) 50 1000 ≤
        1000) ∧
      (PeerStats.after twoTransfers).hedgeDelay (lit "https://a:8000") 500000 (3 / 2) 50 1000 =
        750 := by
  have hfactor : (0 : ℚ) ≤ 3 / 2 := by norm_num
  have hms : 50 ≤ 1000 := by decide
  obtain ⟨-, -, -, hlimits, -⟩ :=
    throughput_prediction twoTransfers (lit "https://a:8000") hfactor hms
  exact ⟨hlimits, by decide +kernel⟩

/-- The `int64` of nanoseconds holds the delay. -/
theorem duration_toInt {ms : ℕ} (h : ms ≤ 9223372036854) :
    (duration ms).toInt = ms * 1000000 := by
  have hmillion : (1000000 : Int64) = Int64.ofNat 1000000 := by decide
  rw [duration, hmillion, ← Int64.ofNat_mul, Int64.toInt_ofNat_of_lt (by omega)]
  push_cast
  rfl

end XetDcCache
