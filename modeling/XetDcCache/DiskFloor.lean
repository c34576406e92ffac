/-
The free-space watermark (disk.go, main.go `minFree` and `freeFn`).

A reply of statfs counts blocks in unsigned 64-bit words; the bytes, the floor and the free space
are `int64` products of them.  Each is the `int64` of the product of integers it is meant to be
(`diskAvailBytes_eq`, `watermark_minFree`), so the floor is right as long as the largest of these
products, `Blocks * Bsize * pct`, is an `int64`.

* `failed_stat_spares` — a statfs that fails breaches no floor;
* `floor_exact_iff` — when the floor is what it is meant to be.
-/
import XetDcCache.Lru
import XetDcCache.Text

namespace XetDcCache

/-! ### The watermark -/

/-- What statfs says of a volume. -/
structure Statfs where
  blocks : UInt64
  bavail : UInt64
  bsize : Int64
  bavail_le : bavail ≤ blocks
  bsize_pos : 0 < bsize

/-- The bytes available and in total, `none` when the volume cannot be stat'd. -/
def diskAvailBytes (st : Option Statfs) : Option (Int64 × Int64) :=
  st.map fun st => (st.bavail.toInt64 * st.bsize, st.blocks.toInt64 * st.bsize)

/-- `CACHE_MIN_FREE_PCT` as `main` uses it. -/
def clampPct (minFreePct : Int64) : Int64 :=
  let minFreePct := if 100 ≤ minFreePct then 99 else minFreePct
  if minFreePct < 0 then 0 else minFreePct

/-- The two parameters of `newLRU` that make the floor; `measured` says that there is a
`freeFn`. -/
structure Watermark where
  minFree : Int64
  measured : Bool

/-- `main` up to `newLRU`; `boot` is the reply of statfs. -/
def watermark (minFreePct : Int64) (boot : Option Statfs) : Watermark :=
  let minFreePct := clampPct minFreePct
  if 0 < minFreePct then
    match diskAvailBytes boot with
    | some (_, total) => ⟨total * minFreePct / 100, true⟩
    | none => ⟨0, false⟩
  else ⟨0, false⟩

/-- `freeFn` for a reply of statfs, `none` where it is nil. -/
def Watermark.freeFn (w : Watermark) (st : Option Statfs) : Option Int64 :=
  if w.measured then
    match diskAvailBytes st with
    | some (avail, _) => some avail
    | none => some ((1 : Int64) <<< (62 : Int64))
  else none

/-! ### What it is meant to be -/

namespace Statfs

/-- The bytes of the volume. -/
def total (st : Statfs) : ℤ := st.blocks.toNat * st.bsize.toInt

/-- The bytes available. -/
def avail (st : Statfs) : ℤ := st.bavail.toNat * st.bsize.toInt

/-- A later reply for the same volume. -/
def SameVolume (boot st : Statfs) : Prop := st.blocks = boot.blocks ∧ st.bsize = boot.bsize

end Statfs

/-- The percentage, clamped. -/
def pctOf (minFreePct : Int64) : ℤ := max 0 (min 99 minFreePct.toInt)

/-- The floor is the share of the volume that was asked for, and the LRU takes it for breached
exactly when less is available. -/
structure FloorExact (minFreePct : Int64) (boot : Statfs) : Prop where
  minFree : (watermark minFreePct (some boot)).minFree.toInt = boot.total * pctOf minFreePct / 100
  nonneg : 0 ≤ (watermark minFreePct (some boot)).minFree.toInt
  le_total : (watermark minFreePct (some boot)).minFree.toInt ≤ boot.total
  breached : ∀ st, boot.SameVolume st → ∀ c : LruCache Bytes,
    c.raw.minFree = (watermark minFreePct (some boot)).minFree →
    (c.overLimitLocked ((watermark minFreePct (some boot)).freeFn (some st)) ↔
      (0 < c.raw.max ∧ c.raw.max < c.totalBytes) ∨
        st.avail < boot.total * pctOf minFreePct / 100)

/-! ### The products -/

theorem toInt64_eq (n : UInt64) : n.toInt64 = Int64.ofInt n.toNat := by
  conv_lhs => rw [← UInt64.ofNat_toNat (x := n)]
  rw [UInt64.toInt64_ofNat', Int64.ofInt_eq_ofNat]

/-- Both products are the `int64` of what they are meant to be. -/
theorem diskAvailBytes_eq (st : Statfs) :
    diskAvailBytes (some st) = some (Int64.ofInt st.avail, Int64.ofInt st.total) := by
  have hprod : ∀ n : UInt64, n.toInt64 * st.bsize = Int64.ofInt (n.toNat * st.bsize.toInt) := by
    intro n
    rw [toInt64_eq, Int64.ofInt_mul, Int64.ofInt_toInt]
  rw [diskAvailBytes, Option.map_some, hprod, hprod]
  rfl

theorem clampPct_toInt (minFreePct : Int64) : (clampPct minFreePct).toInt = pctOf minFreePct := by
  have h99 : (99 : Int64).toInt = 99 := by decide
  have h0 : (0 : Int64).toInt = 0 := by decide
  have hge : (100 : Int64) ≤ minFreePct ↔ 100 ≤ minFreePct.toInt := Int64.le_iff_toInt_le
  have hlt : minFreePct < (0 : Int64) ↔ minFreePct.toInt < 0 := Int64.lt_iff_toInt_lt
  rw [clampPct, pctOf]
  by_cases h : (100 : Int64) ≤ minFreePct
  · have := hge.mp h
    rw [if_pos h, if_neg (by decide), h99]
    omega
  · have := mt hge.mpr h
    rw [if_neg h]
    by_cases hneg : minFreePct < 0
    · have := hlt.mp hneg
      rw [if_pos hneg, h0]
      omega
    · have := mt hlt.mpr hneg
      rw [if_neg hneg]
      omega

theorem clampPct_pos (minFreePct : Int64) :
    (0 : Int64) < clampPct minFreePct ↔ 0 < pctOf minFreePct := by
  rw [Int64.lt_iff_toInt_lt, clampPct_toInt]
  rfl

theorem pctOf_bounds (minFreePct : Int64) : 0 ≤ pctOf minFreePct ∧ pctOf minFreePct ≤ 99 := by
  rw [pctOf]
  omega

theorem Statfs.bsize_toInt_pos (st : Statfs) : 0 < st.bsize.toInt := by
  have h : (0 : Int64).toInt < st.bsize.toInt := Int64.lt_iff_toInt_lt.mp st.bsize_pos
  exact h

theorem Statfs.total_nonneg (st : Statfs) : 0 ≤ st.total :=
  mul_nonneg (Int.natCast_nonneg _) (le_of_lt st.bsize_toInt_pos)

theorem Statfs.avail_nonneg (st : Statfs) : 0 ≤ st.avail :=
  mul_nonneg (Int.natCast_nonneg _) (le_of_lt st.bsize_toInt_pos)

theorem Statfs.avail_le_total (st : Statfs) : st.avail ≤ st.total := by
  have hle : st.bavail.toNat ≤ st.blocks.toNat := UInt64.le_iff_toNat_le.mp st.bavail_le
  exact mul_le_mul_of_nonneg_right (by omega) (le_of_lt st.bsize_toInt_pos)

theorem Statfs.SameVolume.total_eq {boot st : Statfs} (h : boot.SameVolume st) :
    st.total = boot.total := by
  rw [total, total, h.1, h.2]

/-- The floor is a quotient of one product, also where none is asked for. -/
theorem watermark_minFree (minFreePct : Int64) (boot : Statfs) :
    (watermark minFreePct (some boot)).minFree.toInt =
      (Int64.ofInt (boot.total * pctOf minFreePct)).toInt.tdiv 100 := by
  rw [watermark]
  by_cases h : (0 : Int64) < clampPct minFreePct
  · simp only [if_pos h, diskAvailBytes_eq]
    rw [Int64.toInt_div_of_ne_right _ _ (by decide), ← Int64.ofInt_toInt (clampPct minFreePct),
      clampPct_toInt, ← Int64.ofInt_mul]
    rfl
  · have hp : pctOf minFreePct = 0 := by
      have := mt (clampPct_pos minFreePct).mpr h
      have := pctOf_bounds minFreePct
      omega
    simp only [if_neg h]
    rw [hp, mul_zero]
    rfl

/-- There is a `freeFn` where a share was asked for. -/
theorem watermark_measured (minFreePct : Int64) (boot : Statfs) :
    (watermark minFreePct (some boot)).measured ↔ 0 < pctOf minFreePct := by
  rw [watermark, ← clampPct_pos]
  by_cases h : (0 : Int64) < clampPct minFreePct
  · simp only [if_pos h, diskAvailBytes_eq]
    exact ⟨fun _ => h, fun _ => trivial⟩
  · simp only [if_neg h]
    exact ⟨nofun, fun h' => absurd h' h⟩

/-- An `int64` product is divided right exactly if it has not wrapped. -/
theorem tdiv_wrapped_iff {n : ℤ} (h0 : 0 ≤ n) :
    (Int64.ofInt n).toInt.tdiv 100 = n / 100 ↔ n < 2 ^ 63 := by
  constructor
  · intro h
    by_contra hge
    have hlt := Int64.toInt_lt (Int64.ofInt n)
    rcases lt_or_ge (Int64.ofInt n).toInt 0 with hneg | hnn
    · -- a negative product makes no positive floor
      have hle := Int.tdiv_le_tdiv (c := 100) (by decide) (le_of_lt hneg)
      rw [Int.zero_tdiv] at hle
      omega
    · -- and one that came round is less by at least a whole turn
      rw [Int.tdiv_eq_ediv_of_nonneg hnn] at h
      rw [Int64.toInt_ofInt, Int.bmod_def] at h hnn hlt
      simp only [Int64.size] at h hnn hlt
      split at h <;> omega
  · intro h
    rw [Lru.ofInt_toInt_of_lt h0 h, Int.tdiv_eq_ediv_of_nonneg h0]

/-- Whatever the products are, the floor is below what a failed statfs reports. -/
theorem watermark_minFree_lt (minFreePct : Int64) (boot : Statfs) :
    (watermark minFreePct (some boot)).minFree.toInt < 2 ^ 62 := by
  rw [watermark_minFree]
  have hlt := Int64.toInt_lt (Int64.ofInt (boot.total * pctOf minFreePct))
  have hle := Int.tdiv_le_tdiv (c := 100) (by decide) (le_of_lt hlt)
  have : (2 ^ 63 : ℤ).tdiv 100 < 2 ^ 62 := by decide
  omega

/-! ### The floor -/

theorem belowFloor_iff {minFree free : Int64} :
    Lru.belowFloor minFree (some free) ↔ 0 < minFree.toInt ∧ free.toInt < minFree.toInt := by
  have hzero : (0 : Int64).toInt = 0 := by decide
  rw [Lru.belowFloor, Bool.and_eq_true, decide_eq_true_iff, decide_eq_true_iff,
    Int64.lt_iff_toInt_lt, Int64.lt_iff_toInt_lt, hzero]

theorem overLimitLocked_iff {c : LruCache Bytes} {free : Option Int64} :
    c.overLimitLocked free ↔
      (0 < c.raw.max ∧ c.raw.max < c.totalBytes) ∨ Lru.belowFloor c.raw.minFree free := by
  rw [LruCache.overLimitLocked, Lru.overLimit, Bool.or_eq_true, Bool.and_eq_true,
    decide_eq_true_iff, decide_eq_true_iff]
  rfl

/-- A statfs that fails breaches no floor, whatever the floor is. -/
theorem failed_stat_spares (minFreePct : Int64) (boot : Statfs) :
    Lru.belowFloor (watermark minFreePct (some boot)).minFree
      ((watermark minFreePct (some boot)).freeFn none) = false := by
  rw [Watermark.freeFn]
  by_cases hm : (watermark minFreePct (some boot)).measured
  · have hlt := watermark_minFree_lt minFreePct boot
    have hfree : ((1 : Int64) <<< (62 : Int64)).toInt = 2 ^ 62 := by decide
    rw [if_pos hm, ← Bool.not_eq_true]
    show ¬ Lru.belowFloor _ (some _) = true
    rw [belowFloor_iff, hfree]
    omega
  · rw [if_neg hm]
    rfl

/-- What `freeFn` reports of the volume, where the whole volume is an `int64`. -/
theorem Watermark.freeFn_toInt {w : Watermark} {st : Statfs} (hm : w.measured)
    (hlt : st.total < 2 ^ 63) : ∃ free, w.freeFn (some st) = some free ∧ free.toInt = st.avail := by
  refine ⟨Int64.ofInt st.avail, ?_, ?_⟩
  · rw [freeFn, if_pos hm, diskAvailBytes_eq]
  · exact Lru.ofInt_toInt_of_lt st.avail_nonneg (lt_of_le_of_lt st.avail_le_total hlt)

/-- **The arithmetic of the watermark** is exact just when the product of the bytes of the volume
and the percentage is an `int64`. -/
theorem floor_exact_iff (minFreePct : Int64) (boot : Statfs) :
    FloorExact minFreePct boot ↔ boot.total * pctOf minFreePct < 2 ^ 63 := by
  obtain ⟨hp0, hp99⟩ := pctOf_bounds minFreePct
  have hn : 0 ≤ boot.total * pctOf minFreePct := mul_nonneg boot.total_nonneg hp0
  constructor
  · intro h
    have hmin := h.minFree
    rw [watermark_minFree] at hmin
    exact (tdiv_wrapped_iff hn).mp hmin
  · intro hlt
    have hmin : (watermark minFreePct (some boot)).minFree.toInt =
        boot.total * pctOf minFreePct / 100 := by
      rw [watermark_minFree]
      exact (tdiv_wrapped_iff hn).mpr hlt
    have hshare : boot.total * pctOf minFreePct ≤ boot.total * 99 :=
      mul_le_mul_of_nonneg_left hp99 boot.total_nonneg
    refine ⟨hmin, by omega, by have := boot.total_nonneg; omega, fun st hst c hc => ?_⟩
    rw [overLimitLocked_iff, hc]
    refine or_congr_right ?_
    have havail := st.avail_nonneg
    by_cases hm : (watermark minFreePct (some boot)).measured
    · -- a share is asked for, so the volume is no more than its product with the percentage
      have hp : 1 ≤ pctOf minFreePct := (watermark_measured minFreePct boot).mp hm
      have htotal : boot.total * 1 ≤ boot.total * pctOf minFreePct :=
        mul_le_mul_of_nonneg_left hp boot.total_nonneg
      have hvolume : st.total < 2 ^ 63 := by
        rw [hst.total_eq]
        omega
      obtain ⟨free, hfree, havail'⟩ := Watermark.freeFn_toInt hm hvolume
      rw [hfree, belowFloor_iff, hmin, havail']
      omega
    · have hp : pctOf minFreePct = 0 := by
        have := mt (watermark_measured minFreePct boot).mpr hm
        omega
      rw [Watermark.freeFn, if_neg hm, hp, mul_zero]
      exact ⟨nofun, fun h => by omega⟩

/-- A product that wraps below 100 leaves no floor: whatever statfs says, none is breached. -/
theorem unguarded_of_wrapped {minFreePct : Int64} {boot : Statfs}
    (h : (Int64.ofInt (boot.total * pctOf minFreePct)).toInt < 100) (free : Option Int64) :
    Lru.belowFloor (watermark minFreePct (some boot)).minFree free = false := by
  have hmin : (watermark minFreePct (some boot)).minFree.toInt ≤ 0 := by
    rw [watermark_minFree]
    rcases lt_or_ge (Int64.ofInt (boot.total * pctOf minFreePct)).toInt 0 with hneg | hnn
    · exact Int.tdiv_le_tdiv (c := 100) (by decide) (le_of_lt hneg)
    · rw [Int.tdiv_eq_ediv_of_nonneg hnn]
      omega
  cases free with
  | none => rfl
  | some free =>
    rw [← Bool.not_eq_true, belowFloor_iff]
    omega

/-- A volume of 4 EiB, as a mount of an object store may report, with nothing available. -/
def objectStore : Statfs := ⟨2 ^ 50, 0, 4096, by decide, by decide⟩

/-- A tenth of it is a negative floor, and no floor is breached. -/
theorem huge_volume_unguarded :
    objectStore.total = 2 ^ 62 ∧ (watermark 10 (some objectStore)).minFree = -92233720368547758 ∧
      Lru.belowFloor (watermark 10 (some objectStore)).minFree
        ((watermark 10 (some objectStore)).freeFn (some objectStore)) = false ∧
      ¬ FloorExact 10 objectStore := by
  refine ⟨by decide, by decide, by decide, fun h => ?_⟩
  have := h.nonneg
  revert this
  decide

/-- Of 12 EiB all are available, and 11% of them are not. -/
example :
    let st : Statfs := ⟨3 * 2 ^ 50, 3 * 2 ^ 50, 4096, by decide, by decide⟩
    Lru.belowFloor (watermark 11 (some st)).minFree
      ((watermark 11 (some st)).freeFn (some st)) := by
  decide

end XetDcCache
