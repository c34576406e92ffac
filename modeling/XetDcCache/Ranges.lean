/-
What `parseRange` accepts (util.go).

`parseRange` drops `bytes=` if it is there, cuts at the first `-` and reads two 64-bit numbers;
`parts` are the texts of the two.

* `closedRange_iff` — the closed ranges by their parts;
* `parseRange_grammar_iff` — the strings on which `parseRange` keeps to the grammar of closed
  ranges, and what else it takes: `Lenient`.
-/
import XetDcCache.Text

namespace XetDcCache

/-! ### The two numbers -/

/-- The texts around the first `-`, without `bytes=`. -/
def parts (s : Bytes) : Option (Bytes × Bytes) := cut (trimPrefix s (lit "bytes=")) 45

theorem parseRange_eq_some {s : Bytes} {l h : Int64} :
    parseRange s = some (l, h) ↔
      ∃ a b last, parts s = some (a, b) ∧ parseInt a = some l ∧ parseInt b = some last ∧
        h = last + 1 := by
  rw [parseRange, ← parts]
  constructor
  · intro heq
    split at heq
    · cases heq
    · next a b hparts =>
      split at heq
      · next first last ha hb =>
        cases heq
        exact ⟨a, b, last, hparts, ha, hb, rfl⟩
      · cases heq
  · rintro ⟨a, b, last, hparts, ha, hb, rfl⟩
    rw [hparts]
    simp only [ha, hb]

theorem cut_eq_some {s a b : Bytes} {sep : UInt8} (h : cut s sep = some (a, b)) :
    s = a ++ sep :: b := by
  rw [cut, List.span_eq_takeWhile_dropWhile] at h
  have hsplit := List.takeWhile_append_dropWhile (p := fun c => decide (c ≠ sep)) (l := s)
  cases hdrop : s.dropWhile fun c => decide (c ≠ sep) with
  | nil =>
    rw [hdrop] at h
    cases h
  | cons c rest =>
    have hc : c = sep := by
      have hhead := List.head?_dropWhile_not (fun c => decide (c ≠ sep)) s
      rw [hdrop] at hhead
      simpa using hhead
    rw [hdrop] at h hsplit
    obtain ⟨rfl, rfl⟩ := Prod.mk.inj (Option.some_inj.mp h)
    rw [hc] at hsplit
    exact hsplit.symm

/-- Digits are read as the number they denote. -/
theorem parseInt_digits {ds : Bytes} (hall : ds.all isDigit) {i : Int64} :
    parseInt ds = some i ↔ ∃ n, Decimal ds n ∧ n < 2 ^ 63 ∧ i = Int64.ofNat n := by
  by_cases hne : ds = []
  · rw [hne]
    constructor
    · intro h
      cases h
    · rintro ⟨_, hd, _⟩
      exact absurd rfl hd.1
  · have hd : Decimal ds (digitsValue ds) := ⟨hne, hall, rfl⟩
    rw [parseInt_decimal hd]
    constructor
    · intro h
      split at h
      · next hlt => exact ⟨_, hd, hlt, (Option.some_inj.mp h).symm⟩
      · cases h
    · rintro ⟨n, hn, hlt, rfl⟩
      rw [hn.2.2, if_pos hlt]

theorem parts_closed {a b : Bytes} (ha : a.all isDigit) :
    parts (lit "bytes=" ++ (a ++ 45 :: b)) = some (a, b) := by
  rw [parts, trimPrefix_append]
  refine cut_append fun c hc h => ?_
  rw [h] at hc
  have hdigit := List.all_eq_true.mp ha _ hc
  rw [not_digit_minus] at hdigit
  cases hdigit

/-- A closed range has its prefix, and digits around the first `-`. -/
theorem closedRange_iff {s : Bytes} {lo hi : ℕ} :
    ClosedRange s lo hi ↔
      lit "bytes=" <+: s ∧ ∃ a b, parts s = some (a, b) ∧ Decimal a lo ∧ Decimal b hi := by
  constructor
  · rintro ⟨a, b, rfl, ha, hb⟩
    exact ⟨List.prefix_append _ _, a, b, parts_closed ha.2.1, ha, hb⟩
  · rintro ⟨⟨rest, rfl⟩, a, b, hparts, ha, hb⟩
    rw [parts, trimPrefix_append] at hparts
    exact ⟨a, b, by rw [cut_eq_some hparts], ha, hb⟩

/-! ### The grammar of closed ranges -/

/-- `parseRange` accepts just the closed ranges that fit, and computes their bounds, a positive
length, and the last position of every body that is not longer. -/
structure KeepsToGrammar (s : Bytes) : Prop where
  accepts : (parseRange s).isSome ↔ ∃ lo hi, ClosedRange s lo hi ∧ lo ≤ hi ∧ hi < 2 ^ 63 - 1
  returns : ∀ lo hi, ClosedRange s lo hi → lo ≤ hi → hi < 2 ^ 63 - 1 →
    ∃ l h, parseRange s = some (l, h) ∧ l.toInt = lo ∧ h.toInt = hi + 1
  size : (parseRange s).isSome → 0 < (rangeSize s).toInt
  position : ∀ l h, parseRange s = some (l, h) → ∀ n : ℤ, 0 < n → n ≤ h.toInt - l.toInt →
    (l + Int64.ofInt n - 1).toInt = l.toInt + n - 1

/-- What `parseRange` accepts beyond the grammar: two numbers without `bytes=`, with a sign,
in the wrong order, or up to the last 64-bit position. -/
def Lenient (s : Bytes) : Prop :=
  ∃ a b first last, parts s = some (a, b) ∧ parseInt a = some first ∧ parseInt b = some last ∧
    (¬lit "bytes=" <+: s ∨ a.all isDigit = false ∨ b.all isDigit = false ∨ last < first ∨
      last.toInt = 2 ^ 63 - 1)

theorem bmod_of_fits {n : ℤ} (hlo : -2 ^ 63 ≤ n) (hhi : n < 2 ^ 63) : n.bmod (2 ^ 64) = n :=
  Int.bmod_eq_of_le (by omega) (by omega)

/-- In the grammar no 64-bit operation of `parseRange` wraps. -/
theorem parseRange_fits {s : Bytes} {lo hi : ℕ} (h : ClosedRange s lo hi) (hle : lo ≤ hi)
    (hlt : hi < 2 ^ 63 - 1) :
    parseRange s = some (Int64.ofNat lo, Int64.ofNat (hi + 1)) ∧
      (Int64.ofNat lo).toInt = lo ∧ (Int64.ofNat (hi + 1)).toInt = hi + 1 := by
  refine ⟨?_, Int64.toInt_ofNat_of_lt (by omega), Int64.toInt_ofNat_of_lt (by omega)⟩
  rw [parseRange_closed h, if_pos (by omega), Int64.ofNat_add]
  rfl

theorem not_lenient_closed {s : Bytes} (hs : ¬Lenient s) {r : Int64 × Int64}
    (h : parseRange s = some r) :
    ∃ lo hi, ClosedRange s lo hi ∧ lo ≤ hi ∧ hi < 2 ^ 63 - 1 := by
  obtain ⟨a, b, last, hparts, ha, hb, -⟩ := parseRange_eq_some.mp h
  have hstrict : lit "bytes=" <+: s ∧ a.all isDigit ∧ b.all isDigit ∧ ¬last < r.1 ∧
      last.toInt ≠ 2 ^ 63 - 1 := by
    by_contra hnot
    refine hs ⟨a, b, r.1, last, hparts, ha, hb, ?_⟩
    by_contra hnone
    simp only [not_or, Bool.not_eq_false] at hnone
    exact hnot ⟨not_not.mp hnone.1, hnone.2.1, hnone.2.2.1, hnone.2.2.2.1, hnone.2.2.2.2⟩
  obtain ⟨hbytes, hda, hdb, hle, hmax⟩ := hstrict
  obtain ⟨lo, hlo, hlo', hfirst⟩ := (parseInt_digits hda).mp ha
  obtain ⟨hi, hhi, hhi', hlast⟩ := (parseInt_digits hdb).mp hb
  rw [hlast, hfirst, Int64.lt_iff_toInt_lt, Int64.toInt_ofNat_of_lt hlo',
    Int64.toInt_ofNat_of_lt hhi'] at hle
  rw [hlast, Int64.toInt_ofNat_of_lt hhi'] at hmax
  exact ⟨lo, hi, closedRange_iff.mpr ⟨hbytes, a, b, hparts, hlo, hhi⟩, by omega, by omega⟩

theorem lenient_not_closed {s : Bytes} (hs : Lenient s) {lo hi : ℕ} (h : ClosedRange s lo hi)
    (hle : lo ≤ hi) : ¬hi < 2 ^ 63 - 1 := by
  intro hlt
  obtain ⟨a, b, first, last, hparts, ha, hb, hstray⟩ := hs
  obtain ⟨hbytes, a', b', hparts', hda, hdb⟩ := closedRange_iff.mp h
  rw [hparts, Option.some_inj, Prod.mk.injEq] at hparts'
  obtain ⟨rfl, rfl⟩ := hparts'
  rw [parseInt_decimal hda, if_pos (by omega), Option.some_inj] at ha
  rw [parseInt_decimal hdb, if_pos (by omega), Option.some_inj] at hb
  subst ha hb
  rcases hstray with hno | hno | hno | hrev | hmax
  · exact hno hbytes
  · rw [hda.2.1] at hno
    cases hno
  · rw [hdb.2.1] at hno
    cases hno
  · rw [Int64.lt_iff_toInt_lt, Int64.toInt_ofNat_of_lt (by omega),
      Int64.toInt_ofNat_of_lt (by omega)] at hrev
    omega
  · rw [Int64.toInt_ofNat_of_lt (by omega)] at hmax
    omega

/-- `parseRange` keeps to the grammar of closed ranges on a string just when that is not one of
those it is lenient about. -/
theorem parseRange_grammar_iff (s : Bytes) : KeepsToGrammar s ↔ ¬Lenient s := by
  constructor
  · intro hs hlenient
    have hsome : (parseRange s).isSome := by
      obtain ⟨a, b, first, last, hparts, ha, hb, -⟩ := hlenient
      rw [parseRange_eq_some.mpr ⟨a, b, last, hparts, ha, hb, rfl⟩]
      rfl
    obtain ⟨lo, hi, hclosed, hle, hlt⟩ := hs.accepts.mp hsome
    exact lenient_not_closed hlenient hclosed hle hlt
  · intro hs
    have hclosed : ∀ {l h : Int64}, parseRange s = some (l, h) → ∃ lo hi : ℕ, lo ≤ hi ∧
        hi < 2 ^ 63 - 1 ∧ l.toInt = lo ∧ h.toInt = hi + 1 := by
      intro l h heq
      obtain ⟨lo, hi, hc, hle, hlt⟩ := not_lenient_closed hs heq
      obtain ⟨hfits, hl, hh⟩ := parseRange_fits hc hle hlt
      rw [heq, Option.some_inj, Prod.mk.injEq] at hfits
      rw [← hfits.1] at hl
      rw [← hfits.2] at hh
      exact ⟨lo, hi, hle, hlt, hl, hh⟩
    refine ⟨⟨fun h => ?_, ?_⟩, ?_, fun h => ?_, fun l h heq n hpos hn => ?_⟩
    · obtain ⟨r, hr⟩ := Option.isSome_iff_exists.mp h
      exact not_lenient_closed hs hr
    · rintro ⟨lo, hi, hc, hle, hlt⟩
      rw [(parseRange_fits hc hle hlt).1]
      rfl
    · intro lo hi hc hle hlt
      obtain ⟨hfits, hl, hh⟩ := parseRange_fits hc hle hlt
      exact ⟨_, _, hfits, hl, hh⟩
    · obtain ⟨⟨l, h'⟩, hr⟩ := Option.isSome_iff_exists.mp h
      obtain ⟨lo, hi, hle, hlt, hl, hh⟩ := hclosed hr
      simp only [rangeSize, hr]
      rw [Int64.toInt_sub, bmod_of_fits (by omega) (by omega)]
      omega
    · -- neither the sum nor the difference leaves the 64-bit numbers
      obtain ⟨lo, hi, hle, hlt, hl, hh⟩ := hclosed heq
      have hn' : (Int64.ofInt n).toInt = n := by
        rw [Int64.toInt_ofInt]
        exact bmod_of_fits (by omega) (by omega)
      have hone : (1 : Int64).toInt = 1 := by decide
      rw [Int64.toInt_sub, Int64.toInt_add, hn', hone, bmod_of_fits (n := l.toInt + n) (by omega)
        (by omega), bmod_of_fits (by omega) (by omega)]

/-- `parseRange` takes a range whose bounds are in the wrong order, and its length is negative. -/
theorem reversed_range_accepted :
    ¬KeepsToGrammar (lit "bytes=5-3") ∧ parseRange (lit "bytes=5-3") = some (5, 4) ∧
      rangeSize (lit "bytes=5-3") = -1 := by
  have hparse : parseRange (lit "bytes=5-3") = some (5, 4) := by decide +kernel
  refine ⟨fun hkeeps => ?_, hparse, by decide +kernel⟩
  have hpos := hkeeps.size (by rw [hparse]; rfl)
  revert hpos
  decide +kernel

/-! ### Satisfiable ranges -/

/-- A single-range request that a representation of `size` bytes satisfies, with the first and
the last position it asks for. -/
inductive Satisfiable (byteRange : Bytes) (size : ℕ) : ℕ → ℕ → Prop
  | closed {lo hi : ℕ} (h : ClosedRange byteRange lo hi) (hle : lo ≤ hi) (hlt : lo < size) :
    Satisfiable byteRange size lo (min hi (size - 1))
  | openEnded {lo : ℕ} {a : Bytes} (h : byteRange = lit "bytes=" ++ (a ++ [45]))
    (ha : Decimal a lo) (hlt : lo < size) : Satisfiable byteRange size lo (size - 1)
  | suffix {n : ℕ} {b : Bytes} (h : byteRange = lit "bytes=" ++ 45 :: b) (hb : Decimal b n)
    (hn : 0 < n) (hsize : 0 < size) : Satisfiable byteRange size (size - n) (size - 1)

/-- A closed range whose last position is an `int64`. -/
def Reconstructible (byteRange : Bytes) : Prop :=
  ∃ lo hi, ClosedRange byteRange lo hi ∧ hi < 2 ^ 63

section Satisfiable

variable {byteRange : Bytes} {size p q : ℕ}

theorem Satisfiable.bounds (h : Satisfiable byteRange size p q) : p ≤ q ∧ q < size := by
  cases h <;> omega

theorem ClosedRange.unique {lo hi lo' hi' : ℕ} (h : ClosedRange byteRange lo hi)
    (h' : ClosedRange byteRange lo' hi') : lo = lo' ∧ hi = hi' := by
  obtain ⟨-, a, b, hparts, ha, hb⟩ := closedRange_iff.mp h
  obtain ⟨-, a', b', hparts', ha', hb'⟩ := closedRange_iff.mp h'
  rw [hparts, Option.some_inj, Prod.mk.injEq] at hparts'
  obtain ⟨rfl, rfl⟩ := hparts'
  exact ⟨ha.2.2.symm.trans ha'.2.2, hb.2.2.symm.trans hb'.2.2⟩

/-- Without a number before or after the `-`, `parseRange` fails. -/
theorem parseRange_none {a b : Bytes} (hparts : parts byteRange = some (a, b))
    (h : a = [] ∨ b = []) : parseRange byteRange = none := by
  rw [Option.eq_none_iff_forall_ne_some]
  rintro ⟨l, r⟩ heq
  obtain ⟨a', b', last, hparts', ha, hb, -⟩ := parseRange_eq_some.mp heq
  rw [hparts, Option.some_inj, Prod.mk.injEq] at hparts'
  obtain ⟨rfl, rfl⟩ := hparts'
  rcases h with rfl | rfl
  · cases ha
  · cases hb

/-- Nor is it a closed range then. -/
theorem not_closed {a b : Bytes} (hparts : parts byteRange = some (a, b))
    (h : a = [] ∨ b = []) {lo hi : ℕ} : ¬ ClosedRange byteRange lo hi := by
  intro hc
  obtain ⟨-, a', b', hparts', ha, hb⟩ := closedRange_iff.mp hc
  rw [hparts, Option.some_inj, Prod.mk.injEq] at hparts'
  obtain ⟨rfl, rfl⟩ := hparts'
  exact h.elim ha.1 hb.1

/-- A satisfiable range is closed, or has no number on one side of the `-`. -/
theorem Satisfiable.cases_closed (h : Satisfiable byteRange size p q) :
    (∃ hi, ClosedRange byteRange p hi ∧ p ≤ hi ∧ p < size ∧ q = min hi (size - 1)) ∨
      ∃ a b, parts byteRange = some (a, b) ∧ (a = [] ∨ b = []) := by
  cases h with
  | @closed _ hi hc hle hlt => exact Or.inl ⟨hi, hc, hle, hlt, rfl⟩
  | @openEnded _ a hr ha hlt =>
    refine Or.inr ⟨a, [], ?_, Or.inr rfl⟩
    rw [hr]
    exact parts_closed ha.2.1
  | @suffix n b hr hb hn hsize' =>
    refine Or.inr ⟨[], b, ?_, Or.inl rfl⟩
    rw [hr]
    exact parts_closed (a := []) rfl

/-- The parts of a satisfiable range, with what its positions are by them. -/
theorem Satisfiable.parts (h : Satisfiable byteRange size p q) :
    (∃ hi, ClosedRange byteRange p hi ∧ q = min hi (size - 1)) ∨
      (∃ a, parts byteRange = some (a, []) ∧ Decimal a p ∧ q = size - 1) ∨
      ∃ b n, XetDcCache.parts byteRange = some ([], b) ∧ Decimal b n ∧ p = size - n ∧
        q = size - 1 := by
  cases h with
  | @closed _ hi hc hle hlt => exact Or.inl ⟨hi, hc, rfl⟩
  | @openEnded _ a hr ha hlt =>
    refine Or.inr (Or.inl ⟨a, ?_, ha, rfl⟩)
    rw [hr]
    exact parts_closed ha.2.1
  | @suffix n b hr hb hn hsize' =>
    refine Or.inr (Or.inr ⟨b, n, ?_, hb, rfl, rfl⟩)
    rw [hr]
    exact parts_closed (a := []) rfl

/-- A range asks for one pair of positions. -/
theorem Satisfiable.unique {p' q' : ℕ} (h : Satisfiable byteRange size p q)
    (h' : Satisfiable byteRange size p' q') : p = p' ∧ q = q' := by
  rcases h.parts with ⟨hi, hc, rfl⟩ | ⟨a, ha, hda, rfl⟩ | ⟨b, n, hb, hdb, rfl, rfl⟩ <;>
    rcases h'.parts with ⟨hi', hc', rfl⟩ | ⟨a', ha', hda', rfl⟩ | ⟨b', n', hb', hdb', rfl, rfl⟩
  · obtain ⟨rfl, rfl⟩ := hc.unique hc'
    exact ⟨rfl, rfl⟩
  · exact absurd hc (not_closed ha' (Or.inr rfl))
  · exact absurd hc (not_closed hb' (Or.inl rfl))
  · exact absurd hc' (not_closed ha (Or.inr rfl))
  · rw [ha, Option.some_inj, Prod.mk.injEq] at ha'
    obtain ⟨rfl, -⟩ := ha'
    exact ⟨hda.2.2.symm.trans hda'.2.2, rfl⟩
  · rw [ha, Option.some_inj, Prod.mk.injEq] at hb'
    exact absurd hb'.1 hda.1
  · exact absurd hc' (not_closed hb (Or.inl rfl))
  · rw [hb, Option.some_inj, Prod.mk.injEq] at ha'
    exact absurd ha'.1.symm hda'.1
  · rw [hb, Option.some_inj, Prod.mk.injEq] at hb'
    obtain ⟨-, rfl⟩ := hb'
    obtain rfl : n = n' := hdb.2.2.symm.trans hdb'.2.2
    exact ⟨rfl, rfl⟩

/-- Of the satisfiable ranges of a representation whose size is an `int64`, `parseRange` takes
the closed ones whose last position is one too. -/
theorem Satisfiable.parseRange (h : Satisfiable byteRange size p q) (hsize : size < 2 ^ 63) :
    (Reconstructible byteRange ∧ ∃ r, parseRange byteRange = some (Int64.ofNat p, r)) ∨
      (¬ Reconstructible byteRange ∧ XetDcCache.parseRange byteRange = none) := by
  obtain ⟨hi, hc, hle, hlt, -⟩ | ⟨a, b, hparts, hab⟩ := h.cases_closed
  · by_cases hhi : hi < 2 ^ 63
    · refine Or.inl ⟨⟨p, hi, hc, hhi⟩, Int64.ofNat hi + 1, ?_⟩
      rw [parseRange_closed hc, if_pos ⟨by omega, hhi⟩]
    · refine Or.inr ⟨?_, ?_⟩
      · rintro ⟨lo', hi', hc', hhi'⟩
        obtain ⟨-, rfl⟩ := hc.unique hc'
        exact hhi hhi'
      · rw [parseRange_closed hc, if_neg fun h => hhi h.2]
  · exact Or.inr ⟨fun ⟨_, _, hc, _⟩ => not_closed hparts hab hc, parseRange_none hparts hab⟩

/-- The `Content-Range` of a hit on the slice: its positions, or none at all. -/
theorem Satisfiable.contentRangeForHit (h : Satisfiable byteRange size p q)
    (hsize : size < 2 ^ 63) :
    contentRangeForHit byteRange (Int64.ofNat (q - p + 1)) =
        lit "bytes " ++ lit (toString p) ++ lit "-" ++ lit (toString q) ++ lit "/*" ∧
      Reconstructible byteRange ∨
    contentRangeForHit byteRange (Int64.ofNat (q - p + 1)) = [] ∧ ¬ Reconstructible byteRange := by
  obtain ⟨hle, hlt⟩ := h.bounds
  rcases h.parseRange hsize with ⟨hrec, r, hparse⟩ | ⟨hrec, hparse⟩
  · refine Or.inl ⟨?_, hrec⟩
    -- neither the sum nor the difference leaves the 64-bit numbers
    have hpos : ¬ Int64.ofNat (q - p + 1) ≤ 0 := by
      rw [Int64.le_iff_toInt_le, Int64.toInt_ofNat_of_lt (by omega)]
      have hzero : (0 : Int64).toInt = 0 := rfl
      omega
    have hlast : Int64.ofNat p + Int64.ofNat (q - p + 1) - 1 = Int64.ofNat q := by
      rw [← Int64.ofNat_add, show p + (q - p + 1) = q + 1 by omega, Int64.ofNat_add]
      exact Int64.add_sub_cancel _ _
    simp only [XetDcCache.contentRangeForHit, hparse, if_neg hpos, hlast]
    rw [formatInt_ofNat (by omega), formatInt_ofNat (by omega)]
  · refine Or.inr ⟨?_, hrec⟩
    simp only [XetDcCache.contentRangeForHit, hparse]

end Satisfiable

end XetDcCache
