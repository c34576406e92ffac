/-
The escaping of paths in net/url.

`escape` writes each byte that must not stand in a path as `%XX` and `unescape` reads them back.
Several texts denote one path: `validEncoded` are those that net/url keeps as they are.

* `unescape_escape` — the round trip;
* `unescape_eq_self_iff` — a text denotes itself exactly if it has no `%`;
* `pathText_again_iff` — which texts survive a second reading.
-/
import Mathlib.Data.List.Basic
import Mathlib.Tactic.Common

namespace PathEscape

/-! ### Bytes -/

def isAlnum (c : UInt8) : Bool :=
  (97 ≤ c && c ≤ 122) || (65 ≤ c && c ≤ 90) || (48 ≤ c && c ≤ 57)

def isHex (c : UInt8) : Bool :=
  (48 ≤ c && c ≤ 57) || (97 ≤ c && c ≤ 102) || (65 ≤ c && c ≤ 70)

def unhex (c : UInt8) : UInt8 :=
  if 48 ≤ c && c ≤ 57 then c - 48
  else if 97 ≤ c && c ≤ 102 then c - 97 + 10
  else if 65 ≤ c && c ≤ 70 then c - 65 + 10
  else 0

def upperHex (n : UInt8) : UInt8 := if n < 10 then 48 + n else 55 + n

/-- An ASCII control character. -/
def isCTL (c : UInt8) : Bool := c < 32 || c = 127

/-- `shouldEscape(c, encodePath)`; the marks are `-_.~` and, in a path, `$&+,/:;=@`. -/
def shouldEscape (c : UInt8) : Bool :=
  !(isAlnum c || [45, 95, 46, 126].contains c || [36, 38, 43, 44, 47, 58, 59, 61, 64].contains c)

/-- A byte of a text that is kept: `!$&'()*+,;=:@`, `[]`, `%`, or one that is not escaped. -/
def validByte (c : UInt8) : Bool :=
  [33, 36, 38, 39, 40, 41, 42, 43, 44, 59, 61, 58, 64].contains c || [91, 93].contains c ||
    c = 37 || !shouldEscape c

/-! ### Texts -/

def escapeByte (c : UInt8) : List UInt8 :=
  if shouldEscape c then [37, upperHex (c >>> 4), upperHex (c &&& 15)] else [c]

def escape (s : List UInt8) : List UInt8 := s.flatMap escapeByte

/-- `none` for a `%` without two hex digits. -/
def unescape : List UInt8 → Option (List UInt8)
  | [] => some []
  | c :: s =>
    if c = 37 then
      match s with
      | a :: b :: s' =>
        if isHex a && isHex b then
          (unescape s').map fun d => ((unhex a <<< 4) ||| unhex b) :: d
        else none
      | _ => none
    else (unescape s).map fun d => c :: d

def validEncoded (s : List UInt8) : Bool := s.all validByte

/-- The text net/url has for the path that `s` denotes. -/
def pathText (s d : List UInt8) : List UInt8 := if validEncoded s then s else escape d

/-! ### Single bytes -/

/-- A check of all bytes. -/
theorem forall_byte {p : UInt8 → Prop} (h : ∀ n < 256, p (UInt8.ofNat n)) (c : UInt8) : p c := by
  have hc := h c.toNat c.toNat_lt
  rwa [UInt8.ofNat_toNat] at hc

theorem shouldEscape_percent : shouldEscape 37 = true := by decide

/-- An escaped byte reads back, and its text is kept. -/
theorem escapeByte_hex (c : UInt8) :
    (isHex (upperHex (c >>> 4)) && isHex (upperHex (c &&& 15))) = true ∧
      (unhex (upperHex (c >>> 4)) <<< 4) ||| unhex (upperHex (c &&& 15)) = c :=
  forall_byte (p := fun c =>
    (isHex (upperHex (c >>> 4)) && isHex (upperHex (c &&& 15))) = true ∧
      (unhex (upperHex (c >>> 4)) <<< 4) ||| unhex (upperHex (c &&& 15)) = c)
    (by decide +kernel) c

theorem validEncoded_escapeByte (c : UInt8) : validEncoded (escapeByte c) = true :=
  forall_byte (p := fun c => validEncoded (escapeByte c) = true) (by decide +kernel) c

/-- The bytes that end a path, or that a URL must not have, are not kept. -/
theorem not_validByte {c : UInt8} (h : c = 63 ∨ c = 35 ∨ isCTL c = true) : validByte c = false :=
  forall_byte (p := fun c => (c = 63 ∨ c = 35 ∨ isCTL c = true) → validByte c = false)
    (by decide +kernel) c h

/-! ### Reading -/

@[simp] theorem unescape_nil : unescape [] = some [] := rfl

theorem unescape_cons {c : UInt8} (hc : c ≠ 37) (s : List UInt8) :
    unescape (c :: s) = (unescape s).map fun d => c :: d := by
  rw [unescape.eq_def]
  exact if_neg hc

theorem unescape_percent (a b : UInt8) (s : List UInt8) :
    unescape (37 :: a :: b :: s) =
      if isHex a && isHex b then
        (unescape s).map fun d => ((unhex a <<< 4) ||| unhex b) :: d
      else none := by
  rw [unescape, if_pos rfl]

theorem unescape_append {b : List UInt8} (hb : 37 ∉ b) (s : List UInt8) :
    unescape (b ++ s) = (unescape s).map fun d => b ++ d := by
  induction b with
  | nil => exact (congrFun Option.map_id (unescape s)).symm
  | cons c b ih =>
    rw [List.mem_cons, not_or] at hb
    rw [List.cons_append, unescape_cons (Ne.symm hb.1), ih hb.2, Option.map_map]
    rfl

theorem unescape_of_no_percent {s : List UInt8} (h : 37 ∉ s) : unescape s = some s := by
  have happend := unescape_append h []
  rwa [List.append_nil, unescape_nil, Option.map_some, List.append_nil] at happend

/-- A `%` makes the path shorter than its text. -/
theorem unescape_length {s d : List UInt8} (h : unescape s = some d) :
    d.length ≤ s.length ∧ (37 ∈ s → d.length < s.length) := by
  induction s using unescape.induct generalizing d with
  | case1 =>
    injection h with h
    subst h
    exact ⟨Nat.le_refl _, fun h => (List.not_mem_nil h).elim⟩
  | case2 a b s hhex ih =>
    rw [unescape_percent, if_pos hhex, Option.map_eq_some_iff] at h
    obtain ⟨e, he, rfl⟩ := h
    have := (ih he).1
    simp only [List.length_cons]
    omega
  | case3 a b s hhex =>
    rw [unescape_percent, if_neg hhex] at h
    cases h
  | case4 s hs =>
    rw [unescape, if_pos rfl] at h
    · cases h
    · exact hs
  | case5 c s hc ih =>
    rw [unescape_cons hc, Option.map_eq_some_iff] at h
    obtain ⟨e, he, rfl⟩ := h
    obtain ⟨hle, hlt⟩ := ih he
    simp only [List.length_cons, List.mem_cons]
    refine ⟨by omega, ?_⟩
    rintro (hmem | hmem)
    · exact absurd hmem.symm hc
    · have := hlt hmem
      omega

theorem unescape_eq_self_iff (s : List UInt8) : unescape s = some s ↔ 37 ∉ s :=
  ⟨fun h hmem => Nat.lt_irrefl _ ((unescape_length h).2 hmem), unescape_of_no_percent⟩

/-! ### Writing -/

theorem escape_append (b s : List UInt8) : escape (b ++ s) = escape b ++ escape s :=
  List.flatMap_append

theorem unescape_escapeByte_append (c : UInt8) (s : List UInt8) :
    unescape (escapeByte c ++ s) = (unescape s).map fun d => c :: d := by
  rw [escapeByte]
  by_cases hc : shouldEscape c
  · obtain ⟨hhex, hbyte⟩ := escapeByte_hex c
    rw [if_pos hc, List.cons_append, List.cons_append, List.singleton_append, unescape_percent,
      if_pos hhex, hbyte]
  · have hne : c ≠ 37 := by
      rintro rfl
      exact hc shouldEscape_percent
    rw [if_neg hc, List.singleton_append, unescape_cons hne]

theorem unescape_escape (d : List UInt8) : unescape (escape d) = some d := by
  induction d with
  | nil => rfl
  | cons c d ih =>
    rw [escape, List.flatMap_cons, ← escape, unescape_escapeByte_append, ih, Option.map_some]

theorem validEncoded_append (b s : List UInt8) :
    validEncoded (b ++ s) = (validEncoded b && validEncoded s) :=
  List.all_append

theorem validEncoded_escape (d : List UInt8) : validEncoded (escape d) = true := by
  induction d with
  | nil => rfl
  | cons c d ih =>
    rw [escape, List.flatMap_cons, ← escape, validEncoded_append, validEncoded_escapeByte, ih]
    rfl

/-! ### The text of a path -/

theorem validEncoded_pathText (s d : List UInt8) : validEncoded (pathText s d) = true := by
  rw [pathText]
  split_ifs with h
  · exact h
  · exact validEncoded_escape d

theorem unescape_pathText {s d : List UInt8} (h : unescape s = some d) :
    unescape (pathText s d) = some d := by
  rw [pathText]
  split_ifs
  · exact h
  · exact unescape_escape d

/-- A text that is read once too often, from the path it denotes, comes out as it was exactly if it
has no `%`, or it is what the path is written as and the path has a byte that must be escaped, but
no `%`. -/
theorem pathText_again_iff {s d : List UInt8} (hs : validEncoded s = true)
    (hd : unescape s = some d) :
    (∃ e, unescape d = some e ∧ pathText d e = s) ↔
      37 ∉ s ∨ s = escape d ∧ 37 ∉ d ∧ validEncoded d = false := by
  constructor
  · rintro ⟨e, he, hnormal⟩
    -- both read to the same path, so the second reading changes nothing
    have hsame := unescape_pathText he
    rw [hnormal, hd] at hsame
    obtain rfl := Option.some.inj hsame
    have hpercent := (unescape_eq_self_iff d).mp he
    rw [pathText] at hnormal
    split_ifs at hnormal with hvalid
    · exact .inl (hnormal ▸ hpercent)
    · exact .inr ⟨hnormal.symm, hpercent, by simpa using hvalid⟩
  · rintro (hpercent | ⟨hescape, hpercent, hvalid⟩)
    · obtain rfl : s = d := Option.some.inj ((unescape_of_no_percent hpercent).symm.trans hd)
      exact ⟨s, hd, if_pos hs⟩
    · exact ⟨d, unescape_of_no_percent hpercent, (if_neg (by simp [hvalid])).trans hescape.symm⟩

/-- A shorter text denotes another path. -/
theorem pathText_ne_of_shorter {s d t e : List UInt8} (hd : unescape s = some d)
    (he : unescape t = some e) (ht : t.length < d.length) : pathText t e ≠ s := by
  intro h
  have hsame := unescape_pathText he
  rw [h, hd] at hsame
  obtain rfl := Option.some.inj hsame
  exact absurd (unescape_length he).1 (Nat.not_le.mpr ht)

/-! ### Bytes that are not escaped -/

theorem plain_byte {c : UInt8} (h : shouldEscape c = false) :
    validByte c = true ∧ c ≠ 37 ∧ c ≠ 63 ∧ c ≠ 35 ∧ isCTL c = false :=
  forall_byte (p := fun c => shouldEscape c = false →
    validByte c = true ∧ c ≠ 37 ∧ c ≠ 63 ∧ c ≠ 35 ∧ isCTL c = false) (by decide +kernel) c h

section Plain

variable {b : List UInt8} (hb : ∀ c ∈ b, shouldEscape c = false)
include hb

theorem escape_of_plain : escape b = b := by
  induction b with
  | nil => rfl
  | cons c b ih =>
    have hc : ¬ shouldEscape c = true := by simp [hb c List.mem_cons_self]
    rw [escape, List.flatMap_cons, ← escape, ih fun c hc => hb c (List.mem_cons_of_mem _ hc),
      escapeByte, if_neg hc, List.singleton_append]

theorem pathText_append (s d : List UInt8) : pathText (b ++ s) (b ++ d) = b ++ pathText s d := by
  have hvalid : validEncoded b = true := List.all_eq_true.mpr fun c hc => (plain_byte (hb c hc)).1
  rw [pathText, pathText, validEncoded_append, hvalid, Bool.true_and, escape_append,
    escape_of_plain hb]
  split_ifs <;> rfl

end Plain

end PathEscape
