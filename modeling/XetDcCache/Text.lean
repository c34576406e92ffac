/-
Go strings, byte ranges and cache file names (util.go).

A Go `string` or `[]byte` is a list of bytes.  `parseRange` is translated with
its 64-bit arithmetic; `parseRange_closed` says what it does on the closed
ranges `bytes=lo-hi`, and `length_eq_of_accepts` is the use the peer path makes
of it: a body no longer than the range, of the length `parseRange` computes, is
the whole of the range.
-/
import Mathlib

namespace XetDcCache

/-- A Go string or byte slice. -/
abbrev Bytes := List UInt8

instance : LawfulBEq Bytes := inferInstance

/-- A Python string. -/
abbrev Str := List Char

/-- A string literal of the source. -/
def lit (s : String) : Bytes := s.toList.map fun c => UInt8.ofNat c.toNat

/-- `%d` and `strconv.FormatInt`. -/
def formatInt (i : Int64) : Bytes := lit (toString i.toInt)

theorem formatInt_ofNat {n : ℕ} (h : n < 2 ^ 63) : formatInt (Int64.ofNat n) = lit (toString n) := by
  rw [formatInt, Int64.toInt_ofNat_of_lt h]
  rfl

/-! ### Integers -/

def isDigit (b : UInt8) : Bool := 48 ≤ b && b ≤ 57

/-- The number a string of decimal digits denotes. -/
def digitsValue (ds : Bytes) : ℕ := ds.foldl (fun n d => 10 * n + (d.toNat - 48)) 0

/-- The magnitude in `strconv.ParseInt`: a non-empty string of digits. -/
def parseDigits (s : Bytes) : Option ℕ :=
  if s ≠ [] ∧ s.all isDigit then some (digitsValue s) else none

/-- `strconv.ParseInt(s, 10, 64)`, `none` for either of its errors. -/
def parseInt (s : Bytes) : Option Int64 :=
  match s with
  | [] => none
  | c :: rest =>
    let neg := c = 45
    match parseDigits (if c = 43 ∨ c = 45 then rest else s) with
    | none => none
    | some n =>
      if neg then if n ≤ 2 ^ 63 then some (-Int64.ofNat n) else none
      else if n < 2 ^ 63 then some (Int64.ofNat n) else none

/-! ### Ranges -/

/-- `strings.TrimPrefix`. -/
def trimPrefix (s p : Bytes) : Bytes := if p <+: s then s.drop p.length else s

/-- `strings.Cut` at a one-byte separator. -/
def cut (s : Bytes) (sep : UInt8) : Option (Bytes × Bytes) :=
  match s.span (· ≠ sep) with
  | (_, []) => none
  | (before, _ :: after) => some (before, after)

/-- The range `[lo, hi)` of a `Range` header, `none` when it is unsupported. -/
def parseRange (byteRange : Bytes) : Option (Int64 × Int64) :=
  match cut (trimPrefix byteRange (lit "bytes=")) 45 with
  | none => none
  | some (lo, hi) =>
    match parseInt lo, parseInt hi with
    | some l, some h => some (l, h + 1)
    | _, _ => none

/-- The byte length of a range, 0 if unparseable. -/
def rangeSize (byteRange : Bytes) : Int64 :=
  match parseRange byteRange with
  | none => 0
  | some (lo, hi) => hi - lo

/-- The `Content-Range` of a 206 served from disk; empty when the range is
unparseable or the body is empty. -/
def contentRangeForHit (byteRange : Bytes) (n : Int64) : Bytes :=
  match parseRange byteRange with
  | none => []
  | some (lo, _) =>
    if n ≤ 0 then []
    else lit "bytes " ++ formatInt lo ++ lit "-" ++ formatInt (lo + n - 1) ++ lit "/*"

/-- A non-empty string of digits denoting `n`. -/
def Decimal (ds : Bytes) (n : ℕ) : Prop :=
  ds ≠ [] ∧ ds.all isDigit ∧ digitsValue ds = n

/-- A closed byte range `bytes=lo-hi`. -/
def ClosedRange (byteRange : Bytes) (lo hi : ℕ) : Prop :=
  ∃ a b, byteRange = lit "bytes=" ++ (a ++ 45 :: b) ∧ Decimal a lo ∧ Decimal b hi

theorem not_digit_minus : isDigit 45 = false := by decide

theorem not_digit_plus : isDigit 43 = false := by decide

theorem parseInt_decimal {ds : Bytes} {n : ℕ} (h : Decimal ds n) :
    parseInt ds = if n < 2 ^ 63 then some (Int64.ofNat n) else none := by
  obtain ⟨hne, hall, hval⟩ := h
  rcases ds with _ | ⟨c, rest⟩
  · exact absurd rfl hne
  · have hc : isDigit c = true := List.all_eq_true.mp hall c (by simp)
    have hplus : c ≠ 43 := by
      rintro rfl
      rw [not_digit_plus] at hc
      cases hc
    have hminus : c ≠ 45 := by
      rintro rfl
      rw [not_digit_minus] at hc
      cases hc
    have hdigits : parseDigits (c :: rest) = some n := by
      rw [parseDigits, if_pos ⟨hne, hall⟩, hval]
    simp only [parseInt, hplus, hminus, or_self, if_false, hdigits]

theorem cut_append {a b : Bytes} {sep : UInt8} (h : ∀ c ∈ a, c ≠ sep) :
    cut (a ++ sep :: b) sep = some (a, b) := by
  have hspan : (a ++ sep :: b).span (· ≠ sep) = (a, sep :: b) := by
    rw [List.span_eq_takeWhile_dropWhile]
    have hall : ∀ c ∈ a, (decide (c ≠ sep)) = true := fun c hc => by simpa using h c hc
    rw [List.takeWhile_append_of_pos hall, List.dropWhile_append_of_pos hall]
    simp
  rw [cut, hspan]

theorem trimPrefix_append (p s : Bytes) : trimPrefix (p ++ s) p = s := by
  rw [trimPrefix, if_pos (List.prefix_append p s), List.drop_left]

/-- On a closed range `parseRange` returns `(lo, hi + 1)`, unless a bound does
not fit in 64 bits. -/
theorem parseRange_closed {r : Bytes} {lo hi : ℕ} (h : ClosedRange r lo hi) :
    parseRange r =
      if lo < 2 ^ 63 ∧ hi < 2 ^ 63 then some (Int64.ofNat lo, Int64.ofNat hi + 1) else none := by
  obtain ⟨a, b, rfl, ha, hb⟩ := h
  have hsep : ∀ c ∈ a, c ≠ 45 := by
    rintro c hc rfl
    have := List.all_eq_true.mp ha.2.1 _ hc
    rw [not_digit_minus] at this
    cases this
  rw [parseRange, trimPrefix_append, cut_append hsep]
  simp only [parseInt_decimal ha, parseInt_decimal hb]
  by_cases hlo : lo < 2 ^ 63
  · by_cases hhi : hi < 2 ^ 63
    · simp only [if_pos hlo, if_pos hhi, if_pos (And.intro hlo hhi)]
    · simp only [if_pos hlo, if_neg hhi, if_neg (fun h : lo < 2 ^ 63 ∧ hi < 2 ^ 63 => hhi h.2)]
  · simp only [if_neg hlo, if_neg (fun h : lo < 2 ^ 63 ∧ hi < 2 ^ 63 => hlo h.1)]

/-- `peerGet`'s length check: the body has the length of the parsed range. -/
def rangeAccepts (byteRange : Bytes) (body : Bytes) : Bool :=
  match parseRange byteRange with
  | none => false
  | some (lo, hi) => Int64.ofNat body.length == hi - lo

/-- A body no longer than the closed range that passes the length check has
exactly the length of the range. -/
theorem length_eq_of_accepts {r body : Bytes} {lo hi : ℕ} (h : ClosedRange r lo hi)
    (hle : lo ≤ hi) (hbody : body.length ≤ hi - lo + 1) (hacc : rangeAccepts r body) :
    body.length = hi - lo + 1 := by
  rw [rangeAccepts, parseRange_closed h] at hacc
  by_cases hb : lo < 2 ^ 63 ∧ hi < 2 ^ 63
  · rw [if_pos hb] at hacc
    have heq : Int64.ofNat body.length = Int64.ofNat hi + 1 - Int64.ofNat lo := by
      simpa using hacc
    -- both sides lie in `[0, 2^63]`, where 64-bit equality is equality
    have hint : ((body.length : ℤ)).bmod (2 ^ 64) = ((hi : ℤ) + 1 - lo).bmod (2 ^ 64) := by
      have h2 : Int64.ofNat hi + 1 - Int64.ofNat lo = Int64.ofInt ((hi : ℤ) + 1 - lo) := by
        rw [Int64.ofInt_sub, Int64.ofInt_add, Int64.ofInt_eq_ofNat, Int64.ofInt_eq_ofNat]
        rfl
      rw [← Int64.ofInt_eq_ofNat, h2] at heq
      have := congrArg Int64.toInt heq
      rwa [Int64.toInt_ofInt, Int64.toInt_ofInt] at this
    have hdvd := Int.bmod_eq_bmod_iff_bmod_sub_eq_zero.mp hint
    have hdvd' := Int.dvd_of_bmod_eq_zero hdvd
    omega
  · rw [if_neg hb] at hacc
    cases hacc

/-! ### Cache file names -/

/-- The hex digit of a number below 16. -/
def hexDigit (n : ℕ) : UInt8 := UInt8.ofNat (if n < 10 then 48 + n else 87 + n)

/-- `hex.EncodeToString`. -/
def hexEncode (bs : Bytes) : Bytes :=
  bs.flatMap fun b => [hexDigit (b.toNat / 16), hexDigit (b.toNat % 16)]

/-- The file name of `cachePath`: the SHA-256 of `hash:range`, in hex. -/
def cacheName (sum256 : Bytes → Bytes) (hash byteRange : Bytes) : Bytes :=
  hexEncode (sum256 (hash ++ lit ":" ++ byteRange))

/-- `hexEncode` writes hex digits only. -/
theorem hexDigit_of_mem {bs : Bytes} {x : UInt8} (h : x ∈ hexEncode bs) :
    ∃ i : Fin 16, x = hexDigit i := by
  rw [hexEncode, List.mem_flatMap] at h
  obtain ⟨b, -, hx⟩ := h
  have hb := b.toNat_lt
  simp only [List.mem_cons, List.not_mem_nil, or_false] at hx
  rcases hx with rfl | rfl
  · exact ⟨⟨b.toNat / 16, by omega⟩, rfl⟩
  · exact ⟨⟨b.toNat % 16, by omega⟩, rfl⟩

theorem hexDigit_inj {m n : ℕ} (hm : m < 16) (hn : n < 16) (h : hexDigit m = hexDigit n) :
    m = n := by
  have : ∀ i : Fin 16, ∀ j : Fin 16, hexDigit i = hexDigit j → i = j := by decide
  exact congrArg Fin.val (this ⟨m, hm⟩ ⟨n, hn⟩ h)

theorem hexEncode_injective : Function.Injective hexEncode := by
  intro a
  induction a with
  | nil =>
    intro b h
    rcases b with _ | ⟨y, b⟩
    · rfl
    · simp [hexEncode] at h
  | cons x a ih =>
    intro b h
    rcases b with _ | ⟨y, b⟩
    · simp [hexEncode] at h
    · simp only [hexEncode, List.flatMap_cons, List.cons_append, List.nil_append,
        List.cons.injEq] at h
      obtain ⟨h1, h2, h3⟩ := h
      have hx := x.toNat_lt
      have hy := y.toNat_lt
      have hdiv := hexDigit_inj (by omega) (by omega) h1
      have hmod := hexDigit_inj (by omega) (by omega) h2
      have hxy : x.toNat = y.toNat := by omega
      rw [UInt8.toNat_inj.mp hxy, ih h3]

/-- `hash:range` determines both when the hashes hold no colon. -/
theorem key_inj {h h' r r' : Bytes} (hh : (58 : UInt8) ∉ h) (hh' : (58 : UInt8) ∉ h')
    (heq : h ++ 58 :: r = h' ++ 58 :: r') : h = h' ∧ r = r' := by
  induction h generalizing h' with
  | nil =>
    rcases h' with _ | ⟨c, h'⟩
    · exact ⟨rfl, by simpa using heq⟩
    · simp only [List.nil_append, List.cons_append, List.cons.injEq] at heq
      rw [← heq.1] at hh'
      exact absurd List.mem_cons_self hh'
  | cons c h ih =>
    rcases h' with _ | ⟨c', h'⟩
    · simp only [List.nil_append, List.cons_append, List.cons.injEq] at heq
      rw [heq.1] at hh
      exact absurd List.mem_cons_self hh
    · simp only [List.cons_append, List.cons.injEq] at heq
      obtain ⟨rfl, hrest⟩ := heq
      obtain ⟨rfl, rfl⟩ := ih (fun hc => hh (List.mem_cons_of_mem _ hc))
        (fun hc => hh' (List.mem_cons_of_mem _ hc)) hrest
      exact ⟨rfl, rfl⟩

/-- Distinct `(hash, range)` pairs have distinct cache files. -/
theorem cacheName_inj {sum256 : Bytes → Bytes} (hsha : Function.Injective sum256)
    {h h' r r' : Bytes} (hh : (58 : UInt8) ∉ h) (hh' : (58 : UInt8) ∉ h')
    (heq : cacheName sum256 h r = cacheName sum256 h' r') : h = h' ∧ r = r' := by
  have hkey := hsha (hexEncode_injective heq)
  refine key_inj hh hh' ?_
  simpa [lit] using hkey

end XetDcCache
