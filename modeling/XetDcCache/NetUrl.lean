/-
URLs in net/url.

`parse` reads a request target or, up to its fragment, a URL; `Url.escapedPath` is the text its path
is sent as.

* `escapedPath_setPath` — that text for a path that was read;
* `parse_path` — every path is read by `Url.setPath`;
* `parseURL_text_path`, `parseURL_text_of_plain` — the URLs of an origin.
-/
import XetDcCache.PathEscape
import Mathlib.Data.List.Infix

namespace NetUrl

open PathEscape

/-! ### Definitions -/

/-- `rootless` is the field `Opaque`. -/
structure Url where
  scheme : List UInt8
  rootless : List UInt8
  host : List UInt8
  path : List UInt8
  rawPath : List UInt8
  forceQuery : Bool
  rawQuery : List UInt8
  fragment : List UInt8
deriving DecidableEq, Repr

namespace Url

def setPath (u : Url) (p : List UInt8) : Option Url :=
  (unescape p).map fun d => { u with path := d, rawPath := if p = escape d then [] else p }

def escapedPath (u : Url) : List UInt8 :=
  if u.rawPath ≠ [] ∧ validEncoded u.rawPath ∧ unescape u.rawPath = some u.path then u.rawPath
  else if u.path = [42] then [42]
  else escape u.path

/-- What follows the `?` of a URL that has one. -/
def query (u : Url) : Option (List UInt8) :=
  if u.forceQuery || u.rawQuery ≠ [] then some u.rawQuery else none

end Url

/-- The text before the first `c` and the text after it. -/
def cutAt (c : UInt8) (s : List UInt8) : List UInt8 × List UInt8 :=
  (s.takeWhile (· ≠ c), (s.dropWhile (· ≠ c)).drop 1)

def isLetter (c : UInt8) : Bool := (97 ≤ c && c ≤ 122) || (65 ≤ c && c ≤ 90)

/-- A byte of a scheme: a letter, a digit or one of `+-.`. -/
def isSchemeByte (c : UInt8) : Bool :=
  isLetter c || (48 ≤ c && c ≤ 57) || c = 43 || c = 45 || c = 46

/-- The scheme of a URL and what follows its colon; `none` if there is nothing before it. -/
def getScheme (raw : List UInt8) : Option (List UInt8 × List UInt8) :=
  let scheme := raw.takeWhile isSchemeByte
  match raw.dropWhile isSchemeByte with
  | 58 :: rest =>
    if scheme = [] then none
    else if scheme.head?.any isLetter then some (scheme, rest)
    else some ([], raw)
  | _ => some ([], raw)

/-- A URL before its query, with `ForceQuery` and `RawQuery`. -/
def splitQuery (rest : List UInt8) : List UInt8 × Bool × List UInt8 :=
  if rest.getLast? = some 63 ∧ rest.count 63 = 1 then (rest.dropLast, true, [])
  else ((cutAt 63 rest).1, false, (cutAt 63 rest).2)

def lower (s : List UInt8) : List UInt8 := s.map fun c => if 65 ≤ c && c ≤ 90 then c + 32 else c

/-- `parse`; `authorityOk` says which authorities `parseAuthority` takes. -/
def parse (authorityOk : List UInt8 → Bool) (viaRequest : Bool) (raw : List UInt8) : Option Url :=
  if raw.any isCTL ∨ (raw = [] ∧ viaRequest) then none
  else if raw = [42] then some ⟨[], [], [], [42], [], false, [], []⟩
  else
    match getScheme raw with
    | none => none
    | some (scheme, rest) =>
      let (rest, forceQuery, rawQuery) := splitQuery rest
      let url : Url := ⟨lower scheme, [], [], [], [], forceQuery, rawQuery, []⟩
      if rest.head? ≠ some 47 then
        if scheme ≠ [] then some { url with rootless := rest }
        else if viaRequest || (rest.takeWhile (· ≠ 47)).contains 58 then none
        else url.setPath rest
      else if [47, 47] <+: rest ∧ (scheme ≠ [] ∨ (!viaRequest ∧ ¬ [47, 47, 47] <+: rest)) then
        let authority := (rest.drop 2).takeWhile (· ≠ 47)
        if authorityOk authority then
          { url with host := authority }.setPath ((rest.drop 2).dropWhile (· ≠ 47))
        else none
      else url.setPath rest

/-- `Parse`. -/
def parseURL (authorityOk : List UInt8 → Bool) (raw : List UInt8) : Option Url :=
  (parse authorityOk false (cutAt 35 raw).1).bind fun u =>
    if (cutAt 35 raw).2 = [] then some u
    else (unescape (cutAt 35 raw).2).map fun f => { u with fragment := f }

/-! ### Paths -/

theorem setPath_path {u u' : Url} {p : List UInt8} (h : u.setPath p = some u') :
    unescape p = some u'.path := by
  obtain ⟨d, hd, rfl⟩ := Option.map_eq_some_iff.mp h
  exact hd

/-- The path of a URL that was read is sent as `pathText` has it. -/
theorem escapedPath_setPath {u u' : Url} {p : List UInt8} (h : u.setPath p = some u')
    (hstar : u'.path ≠ [42]) : u'.escapedPath = pathText p u'.path := by
  obtain ⟨d, hd, rfl⟩ := Option.map_eq_some_iff.mp h
  simp only [Url.escapedPath, pathText]
  by_cases hp : p = escape d
  · -- the raw path is left out
    rw [if_pos hp, if_neg (fun h => h.1 rfl), if_neg hstar, hp, validEncoded_escape, if_pos rfl]
  · rw [if_neg hp]
    by_cases hvalid : validEncoded p = true
    · have hne : p ≠ [] := by
        rintro rfl
        obtain rfl := Option.some.inj hd
        exact hp rfl
      rw [if_pos ⟨hne, hvalid, hd⟩, if_pos hvalid]
    · rw [if_neg (fun h => hvalid h.2.1), if_neg hstar, if_neg hvalid]

/-! ### Cuts -/

theorem cutAt_append {c : UInt8} {a : List UInt8} (ha : c ∉ a) (s : List UInt8) :
    cutAt c (a ++ s) = (a ++ (cutAt c s).1, (cutAt c s).2) := by
  have hall : ∀ x ∈ a, decide (x ≠ c) = true := by
    intro x hx
    exact decide_eq_true fun h => ha (h ▸ hx)
  rw [cutAt, List.takeWhile_append_of_pos hall, List.dropWhile_append_of_pos hall, cutAt]

/-- A cut text starts as the text does, where that is not the cut. -/
theorem cutAt_cons {c x : UInt8} (h : x ≠ c) (s : List UInt8) :
    (cutAt c (x :: s)).1 = x :: (cutAt c s).1 := by
  exact List.takeWhile_cons_of_pos (p := fun y => y ≠ c) (decide_eq_true h)

theorem cutAt_of_not_mem {c : UInt8} {a : List UInt8} (ha : c ∉ a) : cutAt c a = (a, []) := by
  have happend := cutAt_append ha []
  rw [List.append_nil] at happend
  rw [happend]
  exact Prod.ext (List.append_nil a) rfl

/-- A cut that takes something off leaves less. -/
theorem cutAt_length_lt {c : UInt8} {a : List UInt8} (ha : c ∈ a) :
    (cutAt c a).1.length < a.length := by
  induction a with
  | nil => exact absurd ha List.not_mem_nil
  | cons x a ih =>
    by_cases hx : x = c
    · have hcut : (cutAt c (x :: a)).1 = [] :=
        List.takeWhile_cons_of_neg (p := fun y => y ≠ c) (by simpa using hx)
      rw [hcut]
      exact Nat.succ_pos _
    · rw [cutAt_cons hx, List.length_cons, List.length_cons]
      have hmem : c ∈ a := (List.mem_cons.mp ha).resolve_left (Ne.symm hx)
      exact Nat.succ_lt_succ (ih hmem)

theorem cutAt_length_le (c : UInt8) (a : List UInt8) : (cutAt c a).1.length ≤ a.length := by
  by_cases ha : c ∈ a
  · exact (cutAt_length_lt ha).le
  · rw [cutAt_of_not_mem ha]

/-- The query starts at the first question mark. -/
theorem splitQuery_fst (rest : List UInt8) : (splitQuery rest).1 = (cutAt 63 rest).1 := by
  rw [splitQuery]
  split_ifs with h
  · -- the only question mark is the last byte
    obtain ⟨hlast, hcount⟩ := h
    obtain ⟨a, rfl⟩ := List.getLast?_eq_some_iff.mp hlast
    have ha : (63 : UInt8) ∉ a := by
      rw [List.count_append, List.count_singleton_self] at hcount
      exact List.count_eq_zero.mp (by omega)
    rw [List.dropLast_concat, cutAt_append ha]
    simp [cutAt]
  · rfl

theorem splitQuery_append {a : List UInt8} (ha : (63 : UInt8) ∉ a) {s : List UInt8} (hs : s ≠ []) :
    splitQuery (a ++ s) = (a ++ (splitQuery s).1, (splitQuery s).2) := by
  have hlast : (a ++ s).getLast? = s.getLast? := List.getLast?_append_of_ne_nil a hs
  have hcount : (a ++ s).count 63 = s.count 63 := by
    rw [List.count_append, List.count_eq_zero.mpr ha, Nat.zero_add]
  rw [splitQuery, splitQuery, hlast, hcount, cutAt_append ha]
  split_ifs
  · rw [List.dropLast_append_of_ne_nil hs]
  · rfl

/-! ### Request targets -/

/-- A path that is read is set from a text, but for `*` and for no path. -/
theorem parse_path {authorityOk : List UInt8 → Bool} {viaRequest : Bool} {raw : List UInt8}
    {u : Url} (h : parse authorityOk viaRequest raw = some u) :
    u.path = [42] ∨ u.path = [] ∨ ∃ (v : Url) (p : List UInt8), v.setPath p = some u := by
  rw [parse] at h
  by_cases hbad : raw.any isCTL = true ∨ (raw = [] ∧ viaRequest = true)
  · rw [if_pos hbad] at h
    cases h
  · rw [if_neg hbad] at h
    by_cases hstar : raw = [42]
    · rw [if_pos hstar] at h
      obtain rfl := Option.some.inj h
      exact .inl rfl
    · rw [if_neg hstar] at h
      cases hscheme : getScheme raw with
      | none =>
        rw [hscheme] at h
        cases h
      | some e =>
        simp only [hscheme] at h
        split_ifs at h
        · obtain rfl := Option.some.inj h
          exact .inr (.inl rfl)
        · exact .inr (.inr ⟨_, _, h⟩)
        · exact .inr (.inr ⟨_, _, h⟩)
        · exact .inr (.inr ⟨_, _, h⟩)

/-! ### Origins -/

/-- A scheme and an authority, with nothing in them that would end them. -/
structure Origin (authorityOk : List UInt8 → Bool) where
  scheme : List UInt8
  authority : List UInt8
  scheme_ne : scheme ≠ []
  scheme_letter : ∀ c ∈ scheme, isLetter c = true
  authority_plain : ∀ c ∈ authority, c ≠ 47 ∧ c ≠ 63 ∧ c ≠ 35 ∧ isCTL c = false
  authority_ok : authorityOk authority = true

namespace Origin

variable {authorityOk : List UInt8 → Bool} (o : Origin authorityOk)

/-- `scheme://authority`. -/
def text : List UInt8 := o.scheme ++ 58 :: 47 :: 47 :: o.authority

theorem letter_plain {c : UInt8} (h : isLetter c = true) :
    isSchemeByte c = true ∧ c ≠ 63 ∧ c ≠ 35 ∧ isCTL c = false :=
  forall_byte (p := fun c => isLetter c = true →
    isSchemeByte c = true ∧ c ≠ 63 ∧ c ≠ 35 ∧ isCTL c = false) (by decide +kernel) c h

/-- No byte of an origin ends a URL's path. -/
theorem text_plain {c : UInt8} (hc : c ∈ o.text) : c ≠ 63 ∧ c ≠ 35 ∧ isCTL c = false := by
  simp only [text, List.mem_append, List.mem_cons] at hc
  rcases hc with hc | rfl | rfl | rfl | hc
  · exact (letter_plain (o.scheme_letter c hc)).2
  · decide
  · decide
  · decide
  · exact (o.authority_plain c hc).2

theorem getScheme_text (rest : List UInt8) :
    getScheme (o.scheme ++ 58 :: rest) = some (o.scheme, rest) := by
  have hall : ∀ c ∈ o.scheme, isSchemeByte c = true := fun c hc =>
    (letter_plain (o.scheme_letter c hc)).1
  have hhead : o.scheme.head?.any isLetter = true := by
    cases hs : o.scheme with
    | nil => exact absurd hs o.scheme_ne
    | cons c scheme => exact o.scheme_letter c (hs ▸ List.mem_cons_self)
  have hcolon : isSchemeByte 58 = false := by decide
  simp only [getScheme, List.takeWhile_append_of_pos hall, List.dropWhile_append_of_pos hall,
    List.takeWhile_cons_of_neg (Bool.eq_false_iff.mp hcolon),
    List.dropWhile_cons_of_neg (Bool.eq_false_iff.mp hcolon), List.append_nil, if_neg o.scheme_ne,
    hhead, if_true]

/-- The URL of an origin and a path, up to its fragment: `path` is read up to its query. -/
theorem parse_text (path : List UInt8) :
    parse authorityOk false (o.text ++ 47 :: path) =
      if (47 :: path).any isCTL then none
      else
        (⟨lower o.scheme, [], o.authority, [], [], (splitQuery (47 :: path)).2.1,
          (splitQuery (47 :: path)).2.2, []⟩ : Url).setPath (cutAt 63 (47 :: path)).1 := by
  have hctl : (o.text ++ 47 :: path).any isCTL = (47 :: path).any isCTL := by
    have htext : o.text.any isCTL = false :=
      List.any_eq_false.mpr fun c hc => by simp [(o.text_plain hc).2.2]
    rw [List.any_append, htext, Bool.false_or]
  have hne : o.text ++ 47 :: path ≠ [42] := by
    intro h
    have := congrArg List.length h
    simp only [text, List.length_append, List.length_cons, List.length_nil] at this
    omega
  have hauthority : ∀ c ∈ o.authority, decide (c ≠ 47) = true := fun c hc =>
    decide_eq_true (o.authority_plain c hc).1
  have hquery : (63 : UInt8) ∉ 47 :: 47 :: o.authority := by
    simp only [List.mem_cons, not_or]
    exact ⟨by decide, by decide, fun h => (o.authority_plain 63 h).2.1 rfl⟩
  have hsplit : splitQuery (47 :: 47 :: (o.authority ++ 47 :: path)) =
      (47 :: 47 :: (o.authority ++ 47 :: (cutAt 63 path).1), (splitQuery (47 :: path)).2) := by
    have happend := splitQuery_append hquery (List.cons_ne_nil 47 path)
    rw [splitQuery_fst, cutAt_cons (by decide)] at happend
    exact happend
  rw [parse, hctl]
  by_cases hbad : (47 :: path).any isCTL = true
  · rw [if_pos (.inl hbad), if_pos hbad]
  · have hscheme : getScheme (o.text ++ 47 :: path) =
        some (o.scheme, 47 :: 47 :: (o.authority ++ 47 :: path)) := by
      rw [text, List.append_assoc]
      exact o.getScheme_text _
    rw [if_neg (by simpa using hbad), if_neg hbad, if_neg hne, hscheme]
    -- the query is off, and the authority ends at the first slash
    simp only [hsplit]
    rw [if_neg (by simp), if_pos ⟨⟨_, rfl⟩, .inl o.scheme_ne⟩]
    simp only [List.drop_succ_cons, List.drop_zero, List.takeWhile_append_of_pos hauthority,
      List.dropWhile_append_of_pos hauthority, cutAt_cons (show (47 : UInt8) ≠ 63 by decide)]
    simp [o.authority_ok]

/-- The path of a URL is read up to its fragment and its query. -/
theorem parseURL_text_path {path : List UInt8} {u : Url}
    (h : parseURL authorityOk (o.text ++ 47 :: path) = some u) :
    (cutAt 35 (47 :: path)).1.any isCTL = false ∧
      unescape (cutAt 63 (cutAt 35 (47 :: path)).1).1 = some u.path ∧
      u.escapedPath = pathText (cutAt 63 (cutAt 35 (47 :: path)).1).1 u.path := by
  have hfragment : (35 : UInt8) ∉ o.text := fun h => (o.text_plain h).2.1 rfl
  rw [parseURL, cutAt_append hfragment, cutAt_cons (by decide), parse_text] at h
  rw [cutAt_cons (by decide)]
  obtain ⟨v, hv, hu⟩ := Option.bind_eq_some_iff.mp h
  split_ifs at hv with hctl
  have hpath := setPath_path hv
  -- the path starts with a slash, so it is not `*`
  have hstar : v.path ≠ [42] := by
    intro hstar
    rw [cutAt_cons (by decide), unescape_cons (by decide), hstar, Option.map_eq_some_iff] at hpath
    obtain ⟨d, -, hd⟩ := hpath
    injection hd with hd
    exact absurd hd (by decide)
  have hsame : u.path = v.path ∧ u.escapedPath = v.escapedPath := by
    split_ifs at hu
    · obtain rfl := Option.some.inj hu
      exact ⟨rfl, rfl⟩
    · obtain ⟨f, -, rfl⟩ := Option.map_eq_some_iff.mp hu
      exact ⟨rfl, rfl⟩
  rw [hsame.1, hsame.2]
  exact ⟨Bool.eq_false_iff.mpr hctl, hpath, escapedPath_setPath hv hstar⟩

/-- Nothing is cut from a path without such bytes. -/
theorem parseURL_text_of_plain {path d : List UInt8}
    (hplain : ∀ c ∈ 47 :: path, c ≠ 63 ∧ c ≠ 35 ∧ isCTL c = false)
    (hd : unescape (47 :: path) = some d) :
    ∃ u, parseURL authorityOk (o.text ++ 47 :: path) = some u ∧ u.forceQuery = false := by
  have hfragment : (35 : UInt8) ∉ o.text ++ 47 :: path := by
    rw [List.mem_append, not_or]
    exact ⟨fun h => (o.text_plain h).2.1 rfl, fun h => (hplain 35 h).2.1 rfl⟩
  have hctl : ¬ (47 :: path).any isCTL = true := by
    intro h
    obtain ⟨c, hc, hctl⟩ := List.any_eq_true.mp h
    simp [(hplain c hc).2.2] at hctl
  have hquery : (63 : UInt8) ∉ 47 :: path := fun h => (hplain 63 h).1 rfl
  have hsplit : (splitQuery (47 :: path)).2.1 = false := by
    rw [splitQuery, List.count_eq_zero.mpr hquery, if_neg (by simp)]
  rw [parseURL, cutAt_of_not_mem hfragment, parse_text, if_neg hctl, cutAt_of_not_mem hquery,
    Url.setPath, hd]
  exact ⟨_, rfl, hsplit⟩

end Origin

end NetUrl
