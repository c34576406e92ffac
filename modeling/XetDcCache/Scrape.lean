/-
The scraper's reading of an exposition (runpod_testbed/harvest/scrape.py).

The two regular expressions are written as functions: every part of `_LINE` and of `_LBL` ends
at a character that the part cannot match, so there is one way to match and no backtracking.

* `labelValue_iff` — what `"((?:[^"\\]|\\.)*)"` matches at the start of a string;
* `findLabels_render` — the labels of a rendered line are all found;
* `parseLine_render`, `parseLine_cut` — a rendered line is read as it was written, or, when a
  label has a closing brace in it, not at all;
* `parsePrometheus_unlines` — a text is read line by line.
-/
import XetDcCache.OrderedDict
import XetDcCache.Text

namespace XetDcCache

/-! ### Python's characters -/

/-- `str.isspace` and `\s`. -/
def isSpace (c : Char) : Bool :=
  let n := c.toNat
  (9 ≤ n && n ≤ 13) || (28 ≤ n && n ≤ 32) || n = 0x85 || n = 0xA0 || n = 0x1680 ||
    (0x2000 ≤ n && n ≤ 0x200A) || n = 0x2028 || n = 0x2029 || n = 0x202F || n = 0x205F || n = 0x3000

/-- Where `splitlines` breaks a line. -/
def isBreak (c : Char) : Bool :=
  let n := c.toNat
  (10 ≤ n && n ≤ 13) || (28 ≤ n && n ≤ 30) || n = 0x85 || n = 0x2028 || n = 0x2029

def isAsciiWord (c : Char) : Bool := c.isAlphanum || c = '_'

/-- What numbers are written with. -/
def isNumeric (c : Char) : Bool := isAsciiWord c || c = '+' || c = '-' || c = '.'

/-- The tables of Unicode: what Go prints as it is, and what `\w` matches. -/
structure CharTables where
  isPrint : Char → Bool
  isWord : Char → Bool
  isPrint_ascii : ∀ c, c.toNat < 128 → isPrint c = (32 ≤ c.toNat && c.toNat < 127)
  isPrint_space : ∀ c, isPrint c → isSpace c → c = ' '
  isWord_ascii : ∀ c, c.toNat < 128 → isWord c = isAsciiWord c
  isWord_space : ∀ c, isSpace c → isWord c = false

/-- Floating point numbers with what `%g` writes of them and `float` reads. -/
structure FloatFormat (F : Type*) where
  formatG : F → Str
  float : Str → Option F
  ofInt : ℤ → F
  formatG_ne : ∀ x, formatG x ≠ []
  formatG_chars : ∀ x, ∀ c ∈ formatG x, isNumeric c
  float_formatG : ∀ x, float (formatG x) = some x
  float_decimal : ∀ n : ℤ, |n| < 2 ^ 53 → float (toString n).toList = some (ofInt n)

/-! ### Lines -/

def splitLines : Str → List Str
  | [] => []
  | '\r' :: '\n' :: rest => [] :: splitLines rest
  | c :: rest =>
    if isBreak c then [] :: splitLines rest
    else
      match splitLines rest with
      | [] => [[c]]
      | line :: lines => (c :: line) :: lines

def strip (s : Str) : Str := ((s.dropWhile isSpace).reverse.dropWhile isSpace).reverse

/-! ### The regular expressions -/

section Regex

variable (u : CharTables)

def isNameStart (c : Char) : Bool := c.isAlpha || c = '_' || c = ':'

/-- The labels of a line, without their braces, and what follows; no group is none. -/
def matchLabels : Str → Str × Str
  | '{' :: body =>
    match body.span (· ≠ '}') with
    | (labels, '}' :: rest) => (labels, rest)
    | _ => ([], '{' :: body)
  | rest => ([], rest)

/-- `\s+(?P<val>[^\s]+)\s*$`. -/
def matchValue (s : Str) : Option Str :=
  let (spaces, rest) := s.span isSpace
  let (val, rest) := rest.span fun c => !isSpace c
  if spaces ≠ [] ∧ val ≠ [] ∧ rest.all isSpace then some val else none

/-- `_LINE`: the name, the labels and the value. -/
def matchLine : Str → Option (Str × Str × Str)
  | [] => none
  | c :: cs =>
    if isNameStart c then
      let (name, rest) := cs.span fun c => u.isWord c || c = ':'
      let (labels, rest) := matchLabels rest
      (matchValue rest).map fun val => (c :: name, labels, val)
    else none

/-- The value of a label up to its closing quote, and what follows. -/
def labelValue : Str → Option (Str × Str)
  | [] => none
  | '"' :: rest => some ([], rest)
  | ['\\'] => none
  | '\\' :: c :: rest =>
    if c = '\n' then none else (labelValue rest).map fun r => ('\\' :: c :: r.1, r.2)
  | c :: rest => (labelValue rest).map fun r => (c :: r.1, r.2)

/-- `_LBL` at the start of a string. -/
def matchLabel (s : Str) : Option ((Str × Str) × Str) :=
  match s.span u.isWord with
  | (key, '=' :: '"' :: body) =>
    if key = [] then none else (labelValue body).map fun r => ((key, r.1), r.2)
  | _ => none

/-- `findall`, on at most `n` characters. -/
def findLabels : ℕ → Str → List (Str × Str)
  | 0, _ => []
  | n + 1, s =>
    match matchLabel u s with
    | some (label, rest) => label :: findLabels n rest
    | none => findLabels n s.tail

end Regex

/-! ### The parser -/

/-- A row that is read; the labels are in the order of their dictionary. -/
structure Row (F : Type*) where
  name : Str
  labels : List (Str × Str)
  value : F

section Parser

variable {F : Type*} (u : CharTables) (fmt : FloatFormat F)

/-- One turn of the loop of `parse_prometheus`. -/
def parseLine (line : Str) : Option (Row F) :=
  let line := strip line
  if line = [] ∨ ['#'] <+: line then none
  else
    match matchLine u line with
    | none => none
    | some (name, labels, val) =>
      let dict := OrderedDict.ofPairs (findLabels u labels.length labels)
      (fmt.float val).map fun value => ⟨name, dict.items, value⟩

def parsePrometheus (text : Str) : List (Row F) := (splitLines text).filterMap (parseLine u fmt)

end Parser

/-! ### What the expressions match -/

theorem span_stop {α : Type*} {p : α → Bool} {xs ys : List α} {y : α} (hx : ∀ x ∈ xs, p x)
    (hy : p y = false) : (xs ++ y :: ys).span p = (xs, y :: ys) := by
  rw [List.span_eq_takeWhile_dropWhile, List.takeWhile_append_of_pos hx,
    List.dropWhile_append_of_pos hx, List.takeWhile_cons_of_neg (by simp [hy]),
    List.dropWhile_cons_of_neg (by simp [hy]), List.append_nil]

theorem span_all {α : Type*} {p : α → Bool} {xs : List α} (hx : ∀ x ∈ xs, p x) :
    xs.span p = (xs, []) := by
  rw [List.span_eq_takeWhile_dropWhile, List.takeWhile_eq_self_iff.mpr hx,
    List.dropWhile_eq_nil_iff.mpr hx]

section Match

variable {u : CharTables} {s v w key rest : Str}

/-- What stands between the quotes of a label: `(?:[^"\\]|\\.)*`. -/
inductive Quoted : Str → Prop
  | nil : Quoted []
  | plain {c : Char} {v : Str} (hq : c ≠ '"') (hb : c ≠ '\\') (hv : Quoted v) : Quoted (c :: v)
  | escaped {c : Char} {v : Str} (hc : c ≠ '\n') (hv : Quoted v) : Quoted ('\\' :: c :: v)

theorem Quoted.append (hv : Quoted v) (hw : Quoted w) : Quoted (v ++ w) := by
  induction hv with
  | nil => exact hw
  | plain hq hb _ ih => exact .plain hq hb ih
  | escaped hc _ ih => exact .escaped hc ih

theorem labelValue_plain {c : Char} (hq : c ≠ '"') (hb : c ≠ '\\') :
    labelValue (c :: s) = (labelValue s).map fun r => (c :: r.1, r.2) := by
  rw [labelValue]
  · exact fun h => hq h
  · exact fun h _ => hb h
  · exact fun _ _ h _ => hb h

theorem labelValue_iff : labelValue s = some (v, rest) ↔ s = v ++ '"' :: rest ∧ Quoted v := by
  constructor
  · intro h
    fun_induction labelValue s generalizing v with
    | case1 => cases h
    | case2 rest' =>
      cases h
      exact ⟨rfl, .nil⟩
    | case3 => cases h
    | case4 rest' => cases h
    | case5 c rest' hc ih =>
      obtain ⟨⟨v', r'⟩, hv', heq⟩ := Option.map_eq_some_iff.mp h
      cases heq
      obtain ⟨rfl, hq⟩ := ih hv'
      exact ⟨rfl, .escaped hc hq⟩
    | case6 c rest' hq hb hb' ih =>
      obtain ⟨⟨v', r'⟩, hv', heq⟩ := Option.map_eq_some_iff.mp h
      cases heq
      obtain ⟨hs, hv⟩ := ih hv'
      refine ⟨by rw [hs, List.cons_append], .plain hq (fun hbs => ?_) hv⟩
      -- a lone backslash and a backslash before a character are the two cases above
      cases rest' with
      | nil => exact hb hbs rfl
      | cons d r => exact hb' d r hbs rfl
  · rintro ⟨rfl, hv⟩
    induction hv with
    | nil => rfl
    | plain hq hb _ ih =>
      rw [List.cons_append, labelValue_plain hq hb, ih]
      rfl
    | escaped hc _ ih =>
      rw [List.cons_append, List.cons_append, labelValue, if_neg hc, ih]
      rfl

/-! ### A rendered line -/

/-- `k="v",k="v"` with what stands between the quotes. -/
def renderLabels : List (Str × Str) → Str
  | [] => []
  | [(key, v)] => key ++ '=' :: '"' :: v ++ ['"']
  | (key, v) :: label :: labels =>
    key ++ '=' :: '"' :: v ++ '"' :: ',' :: renderLabels (label :: labels)

/-- A sample line; without labels it has no braces. -/
def renderLine (name : Str) (labels : List (Str × Str)) (val : Str) : Str :=
  match labels with
  | [] => name ++ ' ' :: val
  | labels => name ++ '{' :: renderLabels labels ++ '}' :: ' ' :: val

def IsKey (key : Str) : Prop := key ≠ [] ∧ ∀ c ∈ key, isAsciiWord c

instance (key : Str) : Decidable (IsKey key) :=
  decidable_of_iff (key ≠ [] ∧ key.all isAsciiWord) (and_congr_right' List.all_eq_true)

theorem toNat_of_word {c : Char} (hc : isAsciiWord c) : 48 ≤ c.toNat ∧ c.toNat < 123 := by
  have hval : c.toNat = c.val.toNat := rfl
  simp only [isAsciiWord, Char.isAlphanum, Char.isAlpha, Char.isUpper, Char.isLower, Char.isDigit,
    Bool.or_eq_true, Bool.and_eq_true, decide_eq_true_eq, UInt32.le_iff_toNat_le, ge_iff_le] at hc
  rcases hc with ((⟨hlo, hhi⟩ | ⟨hlo, hhi⟩) | ⟨hlo, hhi⟩) | rfl
  · have hA : 'A'.val.toNat = 65 := rfl
    have hZ : 'Z'.val.toNat = 90 := rfl
    omega
  · have ha : 'a'.val.toNat = 97 := rfl
    have hz : 'z'.val.toNat = 122 := rfl
    omega
  · have h0 : '0'.val.toNat = 48 := rfl
    have h9 : '9'.val.toNat = 57 := rfl
    omega
  · decide

theorem isWord_of_ascii (u : CharTables) {c : Char} (hc : isAsciiWord c) : u.isWord c := by
  rw [u.isWord_ascii c (by have := toNat_of_word hc; omega)]
  exact hc

theorem matchLabel_render (hk : IsKey key) (hv : Quoted v) :
    matchLabel u (key ++ '=' :: '"' :: v ++ '"' :: rest) = some ((key, v), rest) := by
  have hstop : u.isWord '=' = false := by
    rw [u.isWord_ascii _ (by decide)]
    decide
  have hspan : (key ++ '=' :: '"' :: (v ++ '"' :: rest)).span u.isWord =
      (key, '=' :: '"' :: (v ++ '"' :: rest)) :=
    span_stop (fun c hc => isWord_of_ascii u (hk.2 c hc)) hstop
  have hval : labelValue (v ++ '"' :: rest) = some (v, rest) := labelValue_iff.mpr ⟨rfl, hv⟩
  rw [List.append_assoc, List.cons_append, List.cons_append, matchLabel, hspan]
  simp only [if_neg hk.1, hval, Option.map_some]

/-- A comma is no label, so the search goes on after it. -/
theorem matchLabel_comma : matchLabel u (',' :: s) = none := by
  have hstop : u.isWord ',' = false := by
    rw [u.isWord_ascii _ (by decide)]
    decide
  have hspan : (',' :: s).span u.isWord = ([], ',' :: s) :=
    span_stop (fun _ hc => absurd hc List.not_mem_nil) hstop
  rw [matchLabel, hspan]
  rfl

theorem findLabels_nil (n : ℕ) : findLabels u n [] = [] := by
  induction n with
  | zero => rfl
  | succ n ih =>
    show findLabels u n [] = []
    exact ih

theorem findLabels_render {labels : List (Str × Str)} (hl : ∀ l ∈ labels, IsKey l.1 ∧ Quoted l.2)
    {n : ℕ} (hn : (renderLabels labels).length ≤ n) :
    findLabels u n (renderLabels labels) = labels := by
  induction labels using renderLabels.induct generalizing n with
  | case1 => exact findLabels_nil n
  | case2 key v =>
    obtain ⟨hk, hv⟩ := hl _ (List.mem_singleton_self _)
    obtain ⟨n, rfl⟩ : ∃ m, n = m + 1 := ⟨n - 1, by simp [renderLabels] at hn; omega⟩
    rw [renderLabels, findLabels, matchLabel_render hk hv]
    simp only [findLabels_nil]
  | case3 key v label labels ih =>
    obtain ⟨hk, hv⟩ := hl _ (List.mem_cons_self ..)
    -- one character for the label and one for the comma
    obtain ⟨n, rfl⟩ : ∃ m, n = m + 2 := ⟨n - 2, by simp [renderLabels] at hn; omega⟩
    have hrest : (renderLabels (label :: labels)).length ≤ n := by
      simp [renderLabels] at hn
      omega
    rw [renderLabels, findLabels, matchLabel_render hk hv]
    simp only [findLabels, matchLabel_comma, List.tail_cons]
    rw [ih (fun l hl' => hl l (List.mem_cons_of_mem _ hl')) hrest]

def isName : Str → Bool
  | [] => false
  | c :: cs => isNameStart c && cs.all fun c => isAsciiWord c || c = ':'

/-- What `[^\s]+` matches whole. -/
structure IsWritten (val : Str) : Prop where
  ne_nil : val ≠ []
  chars : ∀ c ∈ val, isSpace c = false

theorem isSpace_of_nameStart {c : Char} (hc : isNameStart c) : isSpace c = false := by
  have hval : c.toNat = c.val.toNat := rfl
  have hA : 'A'.val.toNat = 65 := rfl
  have hZ : 'Z'.val.toNat = 90 := rfl
  have ha : 'a'.val.toNat = 97 := rfl
  have hz : 'z'.val.toNat = 122 := rfl
  simp only [isNameStart, Char.isAlpha, Char.isUpper, Char.isLower, Bool.or_eq_true,
    Bool.and_eq_true, decide_eq_true_eq, UInt32.le_iff_toNat_le, ge_iff_le] at hc
  rcases hc with ((hc | hc) | rfl) | rfl
  · simp only [isSpace, Bool.or_eq_false_iff, Bool.and_eq_false_iff, decide_eq_false_iff_not]
    omega
  · simp only [isSpace, Bool.or_eq_false_iff, Bool.and_eq_false_iff, decide_eq_false_iff_not]
    omega
  · decide
  · decide

variable {name val labels : Str}

/-- A space after the name and what follows it, or a brace, ends the name. -/
theorem matchLine_name {c : Char} (hn : isName name) (hc : c = ' ' ∨ c = '{') :
    matchLine u (name ++ c :: s) =
      (matchValue (matchLabels (c :: s)).2).map fun v => (name, (matchLabels (c :: s)).1, v) := by
  have hstop : (u.isWord c || c = ':') = false := by
    rcases hc with rfl | rfl
    · rw [u.isWord_ascii _ (by decide)]
      decide
    · rw [u.isWord_ascii _ (by decide)]
      decide
  cases name with
  | nil => cases hn
  | cons d cs =>
    obtain ⟨hd, hcs⟩ := Bool.and_eq_true_iff.mp hn
    have hword : ∀ e ∈ cs, (u.isWord e || e = ':') = true := fun e he => by
      rcases Bool.or_eq_true_iff.mp (List.all_eq_true.mp hcs e he) with hw | hcolon
      · rw [isWord_of_ascii u hw, Bool.true_or]
      · rw [hcolon, Bool.or_true]
    rw [List.cons_append, matchLine, if_pos hd, span_stop hword hstop]

theorem matchValue_written (hv : IsWritten val) : matchValue (' ' :: val) = some val := by
  obtain ⟨hne, hw⟩ := hv
  cases val with
  | nil => exact absurd rfl hne
  | cons d ds =>
    have hspaces : ([' '] ++ d :: ds).span isSpace = ([' '], d :: ds) :=
      span_stop (List.forall_mem_singleton.mpr (by decide)) (hw d (List.mem_cons_self ..))
    have hall : (d :: ds).span (fun c => !isSpace c) = (d :: ds, []) :=
      span_all fun c hc => by rw [hw c hc]; rfl
    rw [List.singleton_append] at hspaces
    rw [matchValue, hspaces]
    simp only [hall]
    rfl

theorem dropWhile_stop {α : Type*} {p : α → Bool} (xs ys : List α) {y : α} (hy : p y = false) :
    (xs ++ y :: ys).dropWhile p = xs.dropWhile p ++ y :: ys := by
  rw [List.dropWhile_append, List.dropWhile_cons_of_neg (by simp [hy])]
  split
  · next h => rw [List.isEmpty_iff.mp h, List.nil_append]
  · rfl

/-- What follows a brace inside the labels holds a space before the value, so it is no value. -/
theorem matchValue_cut (hv : IsWritten val) : matchValue (s ++ '}' :: ' ' :: val) = none := by
  have hspaces := dropWhile_stop s (' ' :: val) (show isSpace '}' = false by decide)
  have hval := dropWhile_stop (p := fun c => !isSpace c) (s.dropWhile isSpace ++ ['}']) val
    (show (!isSpace ' ') = false by decide)
  rw [List.append_assoc, List.singleton_append] at hval
  simp only [matchValue, List.span_eq_takeWhile_dropWhile, hspaces, hval]
  refine if_neg fun ⟨_, _, hall⟩ => ?_
  -- all that is left after the first word would be spaces, the value with it
  obtain ⟨d, hd⟩ := List.exists_mem_of_ne_nil val hv.ne_nil
  have hspace : isSpace d := List.all_eq_true.mp hall d
    (List.mem_append_right _ (List.mem_cons_of_mem _ hd))
  rw [hv.chars d hd] at hspace
  cases hspace

theorem matchLine_plain (hn : isName name) (hv : IsWritten val) :
    matchLine u (name ++ ' ' :: val) = some (name, [], val) := by
  have hnone : matchLabels (' ' :: val) = ([], ' ' :: val) := rfl
  rw [matchLine_name hn (.inl rfl), hnone, matchValue_written hv]
  rfl

theorem matchLabels_braces (hl : '}' ∉ labels) :
    matchLabels ('{' :: labels ++ '}' :: s) = (labels, s) := by
  have hspan : (labels ++ '}' :: s).span (· ≠ '}') = (labels, '}' :: s) :=
    span_stop (fun c hc => decide_eq_true fun h => hl (h ▸ hc)) (by decide)
  rw [List.cons_append, matchLabels, hspan]
  rfl

theorem matchLine_labels (hn : isName name) (hl : '}' ∉ labels) (hv : IsWritten val) :
    matchLine u (name ++ '{' :: labels ++ '}' :: ' ' :: val) = some (name, labels, val) := by
  rw [List.append_assoc, List.cons_append, matchLine_name hn (.inr rfl), ← List.cons_append,
    matchLabels_braces hl]
  simp only [matchValue_written hv, Option.map_some]

theorem matchLine_cut (hn : isName name) (hl : '}' ∈ labels) (hv : IsWritten val) :
    matchLine u (name ++ '{' :: labels ++ '}' :: ' ' :: val) = none := by
  obtain ⟨l, r, rfl, hl'⟩ := List.eq_append_cons_of_mem hl
  have hbraces := matchLabels_braces (s := r ++ '}' :: ' ' :: val) hl'
  rw [List.append_assoc, List.cons_append, matchLine_name hn (.inr rfl)]
  simp only [List.cons_append, List.append_assoc] at hbraces ⊢
  rw [hbraces, matchValue_cut hv]
  rfl

theorem strip_eq {c d : Char} {cs ds : Str} (hc : isSpace c = false) (hd : isSpace d = false)
    (h : s = c :: cs) (h' : s = ds ++ [d]) : strip s = s := by
  have hdrop : s.dropWhile isSpace = s := by
    rw [h, List.dropWhile_cons_of_neg (by simp [hc])]
  have hrev : s.reverse = d :: ds.reverse := by
    rw [h', List.reverse_append, List.reverse_singleton, List.singleton_append]
  rw [strip, hdrop, hrev, List.dropWhile_cons_of_neg (by simp [hd]), ← hrev, List.reverse_reverse]

theorem strip_line (hn : isName name) (hv : IsWritten val) :
    strip (name ++ s ++ val) = name ++ s ++ val := by
  cases name with
  | nil => cases hn
  | cons c cs =>
    have hc := isSpace_of_nameStart (Bool.and_eq_true_iff.mp hn).1
    have hlast := hv.chars _ (List.getLast_mem hv.ne_nil)
    have hline : c :: cs ++ s ++ val = c :: cs ++ s ++ val.dropLast ++ [val.getLast hv.ne_nil] := by
      rw [List.append_assoc _ val.dropLast, List.dropLast_append_getLast hv.ne_nil]
    exact strip_eq hc hlast rfl hline

section

variable {F : Type*} {fmt : FloatFormat F}

/-- A line that starts with a name is not empty and no comment. -/
theorem parseLine_line (u : CharTables) (fmt : FloatFormat F) (s : Str) (hn : isName name)
    (hv : IsWritten val) : parseLine u fmt (name ++ s ++ val) =
      (matchLine u (name ++ s ++ val)).bind fun m => (fmt.float m.2.2).map fun value =>
        ⟨m.1, (OrderedDict.ofPairs (findLabels u m.2.1.length m.2.1)).items, value⟩ := by
  cases name with
  | nil => cases hn
  | cons c cs =>
    have hstart := (Bool.and_eq_true_iff.mp hn).1
    have hcomment : ¬['#'] <+: c :: cs ++ s ++ val := fun hpre => by
      have hc : '#' = c := (List.cons_prefix_cons.mp hpre).1
      rw [← hc] at hstart
      revert hstart
      decide
    have hread : ¬(c :: cs ++ s ++ val = [] ∨ ['#'] <+: c :: cs ++ s ++ val) := by
      rintro (hnil | hpre)
      · cases hnil
      · exact hcomment hpre
    rw [parseLine, strip_line hn hv, if_neg hread]
    cases matchLine u (c :: cs ++ s ++ val) with
    | none => rfl
    | some m => rfl

theorem brace_mem_renderLabels {labels : List (Str × Str)} (hl : ∀ l ∈ labels, IsKey l.1) :
    '}' ∈ renderLabels labels ↔ ∃ l ∈ labels, '}' ∈ l.2 := by
  have hkey : ∀ {key : Str}, IsKey key → '}' ∉ key := fun hk hmem => by
    have := hk.2 _ hmem
    revert this
    decide
  induction labels using renderLabels.induct with
  | case1 => simp [renderLabels]
  | case2 key v =>
    have hk := hkey (hl _ (List.mem_singleton_self _))
    simp [renderLabels, hk]
  | case3 key v label labels ih =>
    have hk := hkey (hl _ (List.mem_cons_self ..))
    have hrest : '}' ∈ renderLabels (label :: labels) ↔ ∃ l ∈ label :: labels, '}' ∈ l.2 :=
      ih fun l hl' => hl l (List.mem_cons_of_mem _ hl')
    simp only [renderLabels, List.mem_append, List.mem_cons, hrest, hk]
    simp

theorem renderLine_cons {label : Str × Str} {labels : List (Str × Str)} :
    renderLine name (label :: labels) val =
      name ++ '{' :: renderLabels (label :: labels) ++ '}' :: ' ' :: val := rfl

/-- A rendered line is read as it was written. -/
theorem parseLine_render (u : CharTables) {labels : List (Str × Str)} {value : F} (hn : isName name)
    (hl : ∀ l ∈ labels, IsKey l.1 ∧ Quoted l.2) (hkeys : (labels.map Prod.fst).Nodup)
    (hbrace : ∀ l ∈ labels, '}' ∉ l.2) (hv : IsWritten val) (hf : fmt.float val = some value) :
    parseLine u fmt (renderLine name labels val) = some ⟨name, labels, value⟩ := by
  cases labels with
  | nil =>
    have hline : renderLine name [] val = name ++ [' '] ++ val := by
      rw [List.append_assoc]
      rfl
    have hmatch : matchLine u (name ++ [' '] ++ val) = some (name, [], val) := by
      rw [List.append_assoc]
      exact matchLine_plain hn hv
    rw [hline, parseLine_line u fmt [' '] hn hv, hmatch]
    simp only [Option.bind_some, hf, Option.map_some]
    rfl
  | cons label labels =>
    have hnot : '}' ∉ renderLabels (label :: labels) := fun hmem => by
      obtain ⟨l, hl', hv'⟩ := (brace_mem_renderLabels fun l hl' => (hl l hl').1).mp hmem
      exact hbrace l hl' hv'
    have hmatch := matchLine_labels (u := u) hn hnot hv
    have hline := parseLine_line u fmt ('{' :: renderLabels (label :: labels) ++ ['}', ' ']) hn hv
    simp only [List.append_assoc, List.cons_append, List.nil_append] at hmatch hline
    rw [renderLine_cons, List.append_assoc, List.cons_append, hline, hmatch]
    simp only [Option.bind_some, hf, Option.map_some, findLabels_render hl le_rfl,
      OrderedDict.ofPairs_items hkeys]

/-- A line with a closing brace in a label is not read. -/
theorem parseLine_cut (u : CharTables) (fmt : FloatFormat F) {labels : List (Str × Str)}
    {l : Str × Str} (hn : isName name)
    (hl : ∀ l ∈ labels, IsKey l.1) (hmem : l ∈ labels) (hbrace : '}' ∈ l.2) (hv : IsWritten val) :
    parseLine u fmt (renderLine name labels val) = none := by
  cases labels with
  | nil => cases hmem
  | cons label labels =>
    have hcut := matchLine_cut (u := u) hn
      ((brace_mem_renderLabels hl).mpr ⟨l, hmem, hbrace⟩) hv
    have hline := parseLine_line u fmt ('{' :: renderLabels (label :: labels) ++ ['}', ' ']) hn hv
    simp only [List.append_assoc, List.cons_append, List.nil_append] at hcut hline
    rw [renderLine_cons, List.append_assoc, List.cons_append, hline, hcut]
    rfl

theorem parseLine_comment (u : CharTables) (fmt : FloatFormat F) (s : Str) :
    parseLine u fmt ('#' :: s) = none := by
  have hstrip : strip ('#' :: s) = '#' :: (s.reverse.dropWhile isSpace).reverse := by
    rw [strip, List.dropWhile_cons_of_neg (by decide), List.reverse_cons,
      dropWhile_stop _ _ (by decide), List.reverse_append]
    rfl
  rw [parseLine, hstrip]
  exact if_pos (.inr (List.cons_prefix_cons.mpr ⟨rfl, List.nil_prefix⟩))

end

/-! ### A text of lines -/

/-- Lines, each with its end. -/
def unlines (lines : List Str) : Str := lines.flatMap (· ++ ['\n'])

theorem isBreak_of_not_space {c : Char} (hc : isSpace c = false) : isBreak c = false := by
  simp only [isSpace, isBreak, Bool.or_eq_false_iff, Bool.and_eq_false_iff,
    decide_eq_false_iff_not] at hc ⊢
  omega

theorem isBreak_of_print {c : Char} (hc : u.isPrint c) : isBreak c = false := by
  by_cases hspace : isSpace c
  · rw [u.isPrint_space c hc hspace]
    decide
  · exact isBreak_of_not_space (Bool.eq_false_of_not_eq_true hspace)

theorem isSpace_of_word {c : Char} (hc : isAsciiWord c) : isSpace c = false := by
  have hlo := toNat_of_word hc
  simp only [isSpace, Bool.or_eq_false_iff, Bool.and_eq_false_iff, decide_eq_false_iff_not]
  omega

theorem isNumeric_cases {c : Char} (hc : isNumeric c) :
    isAsciiWord c ∨ c = '+' ∨ c = '-' ∨ c = '.' := by
  simpa only [isNumeric, Bool.or_eq_true, decide_eq_true_eq, or_assoc] using hc

theorem isSpace_of_numeric {c : Char} (hc : isNumeric c) : isSpace c = false := by
  rcases isNumeric_cases hc with hword | rfl | rfl | rfl
  · exact isSpace_of_word hword
  · decide
  · decide
  · decide

theorem isSpace_of_mem_name {name : Str} (hn : isName name) {c : Char}
    (hc : c ∈ name) : isSpace c = false := by
  cases name with
  | nil => cases hn
  | cons d cs =>
    obtain ⟨hd, hcs⟩ := Bool.and_eq_true_iff.mp hn
    rcases List.mem_cons.mp hc with rfl | hc
    · exact isSpace_of_nameStart hd
    · rcases Bool.or_eq_true_iff.mp (List.all_eq_true.mp hcs c hc) with hword | hcolon
      · exact isSpace_of_word hword
      · rw [of_decide_eq_true hcolon]
        decide

theorem renderLabels_no_break {labels : List (Str × Str)}
    (hk : ∀ l ∈ labels, IsKey l.1) (hv : ∀ l ∈ labels, ∀ c ∈ l.2, isBreak c = false) :
    ∀ c ∈ renderLabels labels, isBreak c = false := by
  have hkey : ∀ {key : Str}, IsKey key → ∀ c ∈ key, isBreak c = false := fun hk c hc =>
    isBreak_of_not_space (isSpace_of_word (hk.2 c hc))
  induction labels using renderLabels.induct with
  | case1 => simp [renderLabels]
  | case2 key v =>
    have hk := hkey (hk _ (List.mem_singleton_self _))
    have hv := hv _ (List.mem_singleton_self _)
    intro c hc
    simp only [renderLabels, List.mem_append, List.mem_cons, List.not_mem_nil, or_false] at hc
    rcases hc with (hc | rfl | rfl | hc) | rfl
    · exact hk c hc
    · decide
    · decide
    · exact hv c hc
    · decide
  | case3 key v label labels ih =>
    have hk' := hkey (hk _ (List.mem_cons_self ..))
    have hv' := hv _ (List.mem_cons_self ..)
    have hrest := ih (fun l hl => hk l (List.mem_cons_of_mem _ hl))
      fun l hl => hv l (List.mem_cons_of_mem _ hl)
    intro c hc
    simp only [renderLabels, List.mem_append, List.mem_cons] at hc
    rcases hc with (hc | rfl | rfl | hc) | rfl | rfl | hc
    · exact hk' c hc
    · decide
    · decide
    · exact hv' c hc
    · decide
    · decide
    · exact hrest c hc

theorem renderLine_no_break {name val : Str} {labels : List (Str × Str)}
    (hn : isName name) (hk : ∀ l ∈ labels, IsKey l.1)
    (hv : ∀ l ∈ labels, ∀ c ∈ l.2, isBreak c = false) (hval : IsWritten val) :
    ∀ c ∈ renderLine name labels val, isBreak c = false := by
  have hname : ∀ c ∈ name, isBreak c = false := fun c hc =>
    isBreak_of_not_space (isSpace_of_mem_name hn hc)
  have hvalue : ∀ c ∈ val, isBreak c = false := fun c hc => isBreak_of_not_space (hval.chars c hc)
  intro c hc
  cases labels with
  | nil =>
    rcases List.mem_append.mp hc with hc | hc
    · exact hname c hc
    rcases List.mem_cons.mp hc with rfl | hc
    · decide
    · exact hvalue c hc
  | cons label labels =>
    have hlabels := renderLabels_no_break hk hv
    simp only [renderLine, List.mem_append, List.mem_cons] at hc
    rcases hc with (hc | rfl | hc) | rfl | rfl | hc
    · exact hname c hc
    · decide
    · exact hlabels c hc
    · decide
    · decide
    · exact hvalue c hc

theorem splitLines_line {line : Str} (h : ∀ c ∈ line, isBreak c = false) :
    splitLines (line ++ '\n' :: rest) = line :: splitLines rest := by
  induction line with
  | nil =>
    show splitLines ('\n' :: rest) = _
    rw [splitLines, if_pos (by decide)]
    exact fun _ h => absurd h (by decide)
  | cons c line ih =>
    have hc := h c (List.mem_cons_self ..)
    rw [List.cons_append, splitLines, if_neg (by simp [hc]),
      ih fun d hd => h d (List.mem_cons_of_mem _ hd)]
    rintro _ rfl
    exact absurd hc (by decide)

theorem splitLines_unlines {lines : List Str} (h : ∀ line ∈ lines, ∀ c ∈ line, isBreak c = false) :
    splitLines (unlines lines) = lines := by
  induction lines with
  | nil => rfl
  | cons line lines ih =>
    have hcons : unlines (line :: lines) = line ++ '\n' :: unlines lines := by
      rw [unlines, List.flatMap_cons, List.append_assoc]
      rfl
    rw [hcons, splitLines_line (h line (List.mem_cons_self ..)),
      ih fun l hl => h l (List.mem_cons_of_mem _ hl)]

theorem parsePrometheus_unlines {F : Type*} {fmt : FloatFormat F} {lines : List Str}
    (h : ∀ line ∈ lines, ∀ c ∈ line, isBreak c = false) :
    parsePrometheus u fmt (unlines lines) = lines.filterMap (parseLine u fmt) := by
  rw [parsePrometheus, splitLines_unlines h]

end Match

end XetDcCache
