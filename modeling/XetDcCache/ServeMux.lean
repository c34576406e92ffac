/-
The patterns of a request multiplexer (net/http, `ServeMux`).

A node of the routing tree is the list of the patterns below it.  `matchPath` descends the tree with
the segments of a path: at each it tries the literal, then the wildcard, then the rest of the path,
and turns back where a branch fails.

* `matchPath_eq_some_iff` — it finds the most specific of the patterns that match, if any does;
* `path_of_segments` — the path that the segments are read from.
-/
import XetDcCache.PathEscape
import Mathlib.Data.List.Nodup

namespace ServeMux

open PathEscape

/-! ### The routing tree -/

/-- A segment of a pattern: a literal, `{name}`, or the rest of the path. -/
inductive Segment
  | literal (s : List UInt8)
  | single
  | multi
deriving DecidableEq

abbrev Pattern := List Segment

/-- What is left of the patterns below a node, with their handlers. -/
abbrev Node (α : Type*) := List (Pattern × α)

section Tree

variable {α : Type*}

/-- A pattern below the child of a segment. -/
def descend (s : Segment) : Pattern × α → Option (Pattern × α)
  | ([], _) => none
  | (s' :: p, h) => if s' = s then some (p, h) else none

def Node.child (n : Node α) (s : Segment) : Node α := n.filterMap (descend s)

/-- The handler of the pattern that ends at a node. -/
def Node.leaf (n : Node α) : Option α := n.lookup []

/-- The handler for a path with these segments, and what its wildcards match; a single wildcard
matches no trailing slash. -/
def matchPath : List (List UInt8) → Node α → Option (α × List (List UInt8))
  | [], n => n.leaf.map fun h => (h, [])
  | s :: segs, n =>
    (matchPath segs (n.child (.literal s))).or <|
      (if s = [47] then none
        else (matchPath segs (n.child .single)).map fun m => (m.1, s :: m.2)).or <|
      (n.child .multi).leaf.map fun h => (h, [])

end Tree

/-! ### What a pattern matches -/

/-- A pattern matches the segments of a path, and its wildcards the given ones. -/
inductive Matches : Pattern → List (List UInt8) → List (List UInt8) → Prop
  | nil : Matches [] [] []
  | literal {s p segs vs} : Matches p segs vs → Matches (.literal s :: p) (s :: segs) vs
  | single {s p segs vs} : s ≠ [47] → Matches p segs vs →
      Matches (.single :: p) (s :: segs) (s :: vs)
  | multi {s segs} : Matches [.multi] (s :: segs) []

@[simp] theorem matches_nil_iff {segs vs : List (List UInt8)} :
    Matches [] segs vs ↔ segs = [] ∧ vs = [] := by
  constructor
  · intro h
    cases h
    exact ⟨rfl, rfl⟩
  · rintro ⟨rfl, rfl⟩
    exact .nil

@[simp] theorem matches_literal_iff {s : List UInt8} {p : Pattern} {segs vs : List (List UInt8)} :
    Matches (.literal s :: p) segs vs ↔ ∃ rest, segs = s :: rest ∧ Matches p rest vs := by
  constructor
  · intro h
    cases h with
    | literal h => exact ⟨_, rfl, h⟩
  · rintro ⟨rest, rfl, h⟩
    exact .literal h

@[simp] theorem matches_single_iff {p : Pattern} {segs vs : List (List UInt8)} :
    Matches (.single :: p) segs vs ↔
      ∃ v rest vs', v ≠ [47] ∧ segs = v :: rest ∧ vs = v :: vs' ∧ Matches p rest vs' := by
  constructor
  · intro h
    cases h with
    | single hv h => exact ⟨_, _, _, hv, rfl, rfl, h⟩
  · rintro ⟨v, rest, vs', hv, rfl, rfl, h⟩
    exact .single hv h

@[simp] theorem matches_multi_iff {segs vs : List (List UInt8)} :
    Matches [.multi] segs vs ↔ segs ≠ [] ∧ vs = [] := by
  constructor
  · intro h
    cases h
    exact ⟨List.cons_ne_nil _ _, rfl⟩
  · rintro ⟨hne, rfl⟩
    obtain ⟨s, rest, rfl⟩ := List.exists_cons_of_ne_nil hne
    exact .multi

/-- A literal before a wildcard before the rest. -/
def Segment.rank : Segment → ℕ
  | .literal _ => 0
  | .single => 1
  | .multi => 2

/-- The first difference of rank decides. -/
def Precedes : Pattern → Pattern → Prop
  | [], _ => True
  | _ :: _, [] => False
  | s :: p, s' :: p' => s.rank < s'.rank ∨ s.rank = s'.rank ∧ Precedes p p'

section Best

variable {α : Type*} {n : Node α} {segs : List (List UInt8)} {m : α × List (List UInt8)}

/-- `m` is what a pattern of the node makes of the path, and no other that matches is before it. -/
def IsBest (n : Node α) (segs : List (List UInt8)) (m : α × List (List UInt8)) : Prop :=
  ∃ p, (p, m.1) ∈ n ∧ Matches p segs m.2 ∧
    ∀ q h vs, (q, h) ∈ n → Matches q segs vs → Precedes p q

def NoMatch (n : Node α) (segs : List (List UInt8)) : Prop :=
  ∀ q h vs, (q, h) ∈ n → ¬ Matches q segs vs

theorem mem_child {s : Segment} {p : Pattern} {h : α} :
    (p, h) ∈ n.child s ↔ (s :: p, h) ∈ n := by
  rw [Node.child, List.mem_filterMap]
  constructor
  · rintro ⟨⟨p, h⟩, hmem, hd⟩
    cases p with
    | nil => cases hd
    | cons s' p =>
      rw [descend] at hd
      split_ifs at hd with hs
      cases hd
      exact hs ▸ hmem
  · exact fun hmem => ⟨_, hmem, if_pos rfl⟩

/-- No pattern is registered twice. -/
def Functional (n : Node α) : Prop := ∀ p h h', (p, h) ∈ n → (p, h') ∈ n → h = h'

theorem functional_of_nodup (hn : (n.map Prod.fst).Nodup) : Functional n := by
  intro p h h' hmem hmem'
  have heq := List.inj_on_of_nodup_map hn hmem hmem' rfl
  exact (Prod.ext_iff.mp heq).2

theorem Functional.child (hn : Functional n) (s : Segment) : Functional (n.child s) :=
  fun p _ _ hmem hmem' => hn (s :: p) _ _ (mem_child.mp hmem) (mem_child.mp hmem')

theorem mem_of_leaf {h : α} (hleaf : n.leaf = some h) : ([], h) ∈ n := by
  obtain ⟨l₁, l₂, hsplit, -⟩ := List.lookup_eq_some_iff.mp hleaf
  rw [hsplit]
  exact List.mem_append_right _ List.mem_cons_self

theorem leaf_isSome {h : α} (hmem : ([], h) ∈ n) : ∃ h', n.leaf = some h' := by
  cases hleaf : n.leaf with
  | some h' => exact ⟨h', rfl⟩
  | none =>
    have hno := List.lookup_eq_none_iff.mp hleaf _ hmem
    exact absurd rfl (bne_iff_ne.mp hno)

/-! ### The search -/

section Step

variable {s : List UInt8}

/-- The literal comes before whatever else matches. -/
theorem IsBest.of_literal (h : IsBest (n.child (.literal s)) segs m) : IsBest n (s :: segs) m := by
  obtain ⟨p, hp, hmatch, hleast⟩ := h
  refine ⟨.literal s :: p, mem_child.mp hp, .literal hmatch, fun q h vs hq hvs => ?_⟩
  cases hvs with
  | literal hvs => exact .inr ⟨rfl, hleast _ _ _ (mem_child.mpr hq) hvs⟩
  | single => exact .inl Nat.one_pos
  | multi => exact .inl Nat.two_pos

theorem IsBest.of_single (hlit : NoMatch (n.child (.literal s)) segs) (hs : s ≠ [47])
    (h : IsBest (n.child .single) segs m) : IsBest n (s :: segs) (m.1, s :: m.2) := by
  obtain ⟨p, hp, hmatch, hleast⟩ := h
  refine ⟨.single :: p, mem_child.mp hp, .single hs hmatch, fun q h vs hq hvs => ?_⟩
  cases hvs with
  | literal hvs => exact absurd hvs (hlit _ _ _ (mem_child.mpr hq))
  | single _ hvs => exact .inr ⟨rfl, hleast _ _ _ (mem_child.mpr hq) hvs⟩
  | multi => exact .inl (Nat.lt_succ_self 1)

theorem IsBest.of_multi (hlit : NoMatch (n.child (.literal s)) segs)
    (hsingle : s ≠ [47] → NoMatch (n.child .single) segs) {h : α}
    (hh : (n.child .multi).leaf = some h) : IsBest n (s :: segs) (h, []) := by
  refine ⟨[.multi], mem_child.mp (mem_of_leaf hh), .multi, fun q h' vs hq hvs => ?_⟩
  cases hvs with
  | literal hvs => exact absurd hvs (hlit _ _ _ (mem_child.mpr hq))
  | single hs hvs => exact absurd hvs (hsingle hs _ _ _ (mem_child.mpr hq))
  | multi => exact .inr ⟨rfl, trivial⟩

theorem NoMatch.of_children (hlit : NoMatch (n.child (.literal s)) segs)
    (hsingle : s ≠ [47] → NoMatch (n.child .single) segs) (hmulti : (n.child .multi).leaf = none) :
    NoMatch n (s :: segs) := by
  intro q h vs hq hvs
  cases hvs with
  | literal hvs => exact hlit _ _ _ (mem_child.mpr hq) hvs
  | single hs hvs => exact hsingle hs _ _ _ (mem_child.mpr hq) hvs
  | multi =>
    obtain ⟨h', hh'⟩ := leaf_isSome (mem_child.mpr hq)
    rw [hmulti] at hh'
    cases hh'

end Step

/-- The search, one segment further: the literal, else the wildcard, else the rest. -/
theorem matchPath_step {s : List UInt8} (hnolit : NoMatch (n.child (.literal s)) segs)
    (hsingle : s ≠ [47] → NoMatch (n.child .single) segs) :
    (∀ m, ((n.child .multi).leaf.map fun h => (h, [])) = some m → IsBest n (s :: segs) m) ∧
      (((n.child .multi).leaf.map fun h => (h, ([] : List (List UInt8)))) = none →
        NoMatch n (s :: segs)) := by
  cases hm : (n.child .multi).leaf with
  | some h =>
    refine ⟨fun m hm' => ?_, fun h => by cases h⟩
    exact Option.some.inj hm' ▸ IsBest.of_multi hnolit hsingle hm
  | none =>
    refine ⟨fun m hm' => ?_, fun _ => .of_children hnolit hsingle hm⟩
    cases hm'

/-- What the search finds is best, and it turns back from no pattern that matches. -/
theorem matchPath_spec (segs : List (List UInt8)) : ∀ n : Node α,
    (∀ m, matchPath segs n = some m → IsBest n segs m) ∧
      (matchPath segs n = none → NoMatch n segs) := by
  induction segs with
  | nil =>
    refine fun n => ⟨fun m hm => ?_, ?_⟩
    · obtain ⟨h, hleaf, rfl⟩ := Option.map_eq_some_iff.mp hm
      exact ⟨[], mem_of_leaf hleaf, .nil, fun _ _ _ _ _ => trivial⟩
    · intro hnone q h vs hq hvs
      cases hvs
      obtain ⟨h', hh'⟩ := leaf_isSome hq
      rw [matchPath, hh'] at hnone
      cases hnone
  | cons s segs ih =>
    intro n
    obtain ⟨hlit, hnolit⟩ := ih (n.child (.literal s))
    obtain ⟨hsingle, hnosingle⟩ := ih (n.child .single)
    rw [matchPath]
    cases hl : matchPath segs (n.child (.literal s)) with
    | some ml =>
      rw [Option.some_or]
      exact ⟨fun m hm => Option.some.inj hm ▸ (hlit ml hl).of_literal, fun h => by cases h⟩
    | none =>
      have hnolit := hnolit hl
      rw [Option.none_or]
      -- the wildcard is not tried at a trailing slash
      by_cases hs : s = [47]
      · rw [if_pos hs, Option.none_or]
        exact matchPath_step hnolit fun hne => absurd hs hne
      · rw [if_neg hs]
        cases hw : matchPath segs (n.child .single) with
        | some mw =>
          rw [Option.map_some, Option.some_or]
          refine ⟨fun m hm => ?_, fun h => by cases h⟩
          exact Option.some.inj hm ▸ IsBest.of_single hnolit hs (hsingle mw hw)
        | none =>
          rw [Option.map_none, Option.none_or]
          exact matchPath_step hnolit fun _ => hnosingle hw

/-- Two patterns that match a path are one if each precedes the other. -/
theorem Matches.unique {p q : Pattern} {vs ws : List (List UInt8)} (hp : Matches p segs vs)
    (hq : Matches q segs ws) (hpq : Precedes p q) (hqp : Precedes q p) : p = q ∧ vs = ws := by
  induction hp generalizing q ws with
  | nil =>
    cases hq
    exact ⟨rfl, rfl⟩
  | literal hp ih =>
    cases hq with
    | literal hq =>
      obtain ⟨rfl, rfl⟩ := ih hq (hpq.resolve_left (Nat.lt_irrefl _)).2
        (hqp.resolve_left (Nat.lt_irrefl _)).2
      exact ⟨rfl, rfl⟩
    | single => simp [Precedes, Segment.rank] at hqp
    | multi => simp [Precedes, Segment.rank] at hqp
  | single hs hp ih =>
    cases hq with
    | literal => simp [Precedes, Segment.rank] at hpq
    | single _ hq =>
      obtain ⟨rfl, rfl⟩ := ih hq (hpq.resolve_left (Nat.lt_irrefl _)).2
        (hqp.resolve_left (Nat.lt_irrefl _)).2
      exact ⟨rfl, rfl⟩
    | multi => simp [Precedes, Segment.rank] at hqp
  | multi =>
    cases hq with
    | literal => simp [Precedes, Segment.rank] at hpq
    | single => simp [Precedes, Segment.rank] at hpq
    | multi => exact ⟨rfl, rfl⟩

/-- The search finds the most specific of the patterns that match. -/
theorem matchPath_eq_some_iff (hn : Functional n) :
    matchPath segs n = some m ↔ IsBest n segs m := by
  obtain ⟨hsound, hcomplete⟩ := matchPath_spec segs n
  refine ⟨hsound m, ?_⟩
  rintro ⟨p, hp, hmatch, hleast⟩
  cases hfound : matchPath segs n with
  | none => exact absurd hmatch (hcomplete hfound _ _ _ hp)
  | some m' =>
    obtain ⟨q, hq, hmatch', hleast'⟩ := hsound m' hfound
    obtain ⟨rfl, hvs⟩ :=
      hmatch.unique hmatch' (hleast _ _ _ hq hmatch') (hleast' _ _ _ hp hmatch)
    exact congrArg some (Prod.ext (hn _ _ _ hq hp) hvs.symm)

end Best

/-! ### The segments of a path -/

/-- A text that cannot be unescaped is kept. -/
def pathUnescape (s : List UInt8) : List UInt8 := (unescape s).getD s

/-- The segments between the slashes; a trailing slash is a segment of its own. -/
def readSegments : List (List UInt8) → List (List UInt8)
  | [] => []
  | [last] => [if last = [] then [47] else pathUnescape last]
  | part :: parts => pathUnescape part :: readSegments parts

/-- The segments of a path that is empty or begins with a slash. -/
def segments (path : List UInt8) : List (List UInt8) :=
  if path = [] then [] else readSegments ((path.drop 1).splitOn 47)

theorem readSegments_cons (part : List UInt8) {parts : List (List UInt8)} (h : parts ≠ []) :
    readSegments (part :: parts) = pathUnescape part :: readSegments parts := by
  cases parts with
  | nil => exact absurd rfl h
  | cons part' parts => rfl

theorem readSegments_ne_nil {parts : List (List UInt8)} (h : parts ≠ []) :
    readSegments parts ≠ [] := by
  cases parts with
  | nil => exact absurd rfl h
  | cons part parts => cases parts <;> exact List.cons_ne_nil _ _

/-- A slash ends what is read of a `%`. -/
theorem unescape_slash (a b : List UInt8) :
    unescape (a ++ 47 :: b) =
      (unescape a).bind fun x => (unescape b).map fun y => x ++ 47 :: y := by
  induction a using unescape.induct with
  | case1 => exact unescape_cons (by decide) b
  | case2 c d s hhex ih =>
    rw [List.cons_append, List.cons_append, List.cons_append, unescape_percent, unescape_percent,
      if_pos hhex, if_pos hhex, ih]
    cases unescape s <;> cases unescape b <;> rfl
  | case3 c d s hhex =>
    rw [List.cons_append, List.cons_append, List.cons_append, unescape_percent, unescape_percent,
      if_neg hhex, if_neg hhex]
    rfl
  | case4 s hs =>
    -- fewer than two bytes follow the `%`, and a slash is no digit
    have hnone : unescape (37 :: s) = none := by
      rw [unescape, if_pos rfl]
      exact hs
    rw [hnone]
    cases s with
    | nil =>
      cases b with
      | nil => rfl
      | cons d b => exact (unescape_percent 47 d b).trans (if_neg (by simp [isHex]))
    | cons c s =>
      cases s with
      | nil => exact (unescape_percent c 47 b).trans (if_neg (by simp [isHex]))
      | cons d s => exact absurd rfl (hs c d s)
  | case5 c s hc ih =>
    rw [List.cons_append, unescape_cons hc, unescape_cons hc, ih]
    cases unescape s <;> cases unescape b <;> rfl

/-- The path that segments without a trailing slash are read from. -/
theorem intercalate_readSegments {parts : List (List UInt8)} (hne : parts ≠ []) :
    ∀ {d : List UInt8}, unescape ([47].intercalate parts) = some d →
      (readSegments parts).getLast? ≠ some [47] → d = [47].intercalate (readSegments parts) := by
  induction parts with
  | nil => exact absurd rfl hne
  | cons part parts ih =>
    intro d hd hlast
    cases parts with
    | nil =>
      have hpart : part ≠ [] := fun h => hlast (by rw [h]; rfl)
      rw [List.intercalate_singleton] at hd
      simp [readSegments, if_neg hpart, pathUnescape, hd, List.intercalate]
    | cons part' parts =>
      have hrest : part' :: parts ≠ [] := List.cons_ne_nil _ _
      have hjoin : [47].intercalate (part :: part' :: parts) =
          part ++ 47 :: [47].intercalate (part' :: parts) := by
        rw [List.intercalate_cons_cons, List.append_assoc]
        rfl
      rw [hjoin, unescape_slash] at hd
      obtain ⟨x, hx, hmap⟩ := Option.bind_eq_some_iff.mp hd
      obtain ⟨y, hy, rfl⟩ := Option.map_eq_some_iff.mp hmap
      obtain ⟨s, segs, hsegs⟩ := List.exists_cons_of_ne_nil (readSegments_ne_nil hrest)
      rw [readSegments_cons part hrest, hsegs] at hlast ⊢
      rw [List.getLast?_cons_cons] at hlast
      have hy' := ih hrest hy (hsegs ▸ hlast)
      rw [List.intercalate_cons_cons, ← hsegs, ← hy', pathUnescape, hx]
      simp

theorem path_of_segments {path d : List UInt8} (hpath : unescape (47 :: path) = some d)
    (hlast : (segments (47 :: path)).getLast? ≠ some [47]) :
    d = 47 :: [47].intercalate (segments (47 :: path)) := by
  have hsegs : segments (47 :: path) = readSegments (path.splitOn 47) :=
    if_neg (List.cons_ne_nil _ _)
  rw [unescape_cons (by decide), Option.map_eq_some_iff] at hpath
  obtain ⟨d', hd', rfl⟩ := hpath
  rw [hsegs] at hlast ⊢
  have hsplit : [47].intercalate (path.splitOn 47) = path := List.intercalate_splitOn 47
  rw [← hsplit] at hd'
  rw [intercalate_readSegments (List.splitOn_ne_nil 47 path) hd' hlast]

theorem slash_mem_of_unescape {s d : List UInt8} (hs : unescape s = some d) (hmem : 47 ∈ s) :
    47 ∈ d := by
  obtain ⟨a, b, rfl⟩ := List.append_of_mem hmem
  rw [unescape_slash] at hs
  obtain ⟨x, -, hmap⟩ := Option.bind_eq_some_iff.mp hs
  obtain ⟨y, -, rfl⟩ := Option.map_eq_some_iff.mp hmap
  exact List.mem_append_right _ List.mem_cons_self

/-- A path with one segment. -/
theorem segments_of_no_slash {path d : List UInt8} (hpath : unescape path = some d) (hd : 47 ∉ d)
    (hne : d ≠ []) : segments (47 :: path) = [d] := by
  have hslash : 47 ∉ path := fun hmem => hd (slash_mem_of_unescape hpath hmem)
  have hpath' : path ≠ [] := by
    rintro rfl
    exact hne (Option.some.inj hpath).symm
  rw [segments, if_neg (List.cons_ne_nil _ _), List.drop_one, List.tail_cons,
    List.splitOn_eq_singleton hslash, readSegments, if_neg hpath', pathUnescape, hpath]
  rfl

/-- The segments of a path without a trailing slash, from its parts. -/
theorem segments_intercalate {parts : List (List UInt8)} (hne : parts ≠ [])
    (hparts : ∀ p ∈ parts, p ≠ [] ∧ 47 ∉ p) :
    segments (47 :: [47].intercalate parts) = parts.map pathUnescape := by
  have hread (l : List (List UInt8)) (hl : ∀ p ∈ l, p ≠ []) :
      readSegments l = l.map pathUnescape := by
    induction l with
    | nil => rfl
    | cons p l ih =>
      cases l with
      | nil => rw [readSegments, if_neg (hl p List.mem_cons_self), List.map_singleton]
      | cons q l =>
        rw [readSegments_cons p (List.cons_ne_nil q l),
          ih fun x hx => hl x (List.mem_cons_of_mem _ hx), List.map_cons (a := p)]
  rw [segments, if_neg (List.cons_ne_nil _ _), List.drop_one, List.tail_cons,
    List.splitOn_intercalate 47 (fun p hp => (hparts p hp).2) hne,
    hread parts fun p hp => (hparts p hp).1]

/-- The first segment, and those of the rest of the path. -/
theorem segments_cons {part : List UInt8} (hpart : 47 ∉ part) (path : List UInt8) :
    segments (47 :: (part ++ 47 :: path)) = pathUnescape part :: segments (47 :: path) := by
  rw [segments, if_neg (List.cons_ne_nil _ _), List.drop_one, List.tail_cons,
    List.splitOn_append_cons_self_of_not_mem hpart,
    readSegments_cons part (List.splitOn_ne_nil 47 path), segments,
    if_neg (List.cons_ne_nil _ _), List.drop_one, List.tail_cons]

/-- A path with one segment is not cut. -/
theorem no_slash_of_segments {path s : List UInt8} (h : segments (47 :: path) = [s]) :
    47 ∉ path := by
  intro hmem
  obtain ⟨a, b, rfl, ha⟩ := List.eq_append_cons_of_mem hmem
  rw [segments_cons ha] at h
  have hnil : segments (47 :: b) = [] := (List.cons.inj h).2
  rw [segments, if_neg (List.cons_ne_nil _ _)] at hnil
  exact readSegments_ne_nil (List.splitOn_ne_nil 47 _) hnil

end ServeMux
