/-
The dedup probe (tools/dedup_study.py).

`probe` asks for a file at each commit of a log, newest first, and counts how the file changed
from one commit that has it to the next.  It keeps the last hash it saw and, apart from it, the
rows of all commits; the pairs it suggests take their newer commit from the last row.

* `probe_spec` — what the loop knows after each commit;
* `change_pairs_iff` — when the suggested pairs are those of the changes.
-/
import XetDcCache.Transition

namespace XetDcCache

namespace Dedup

open Transition

/-! ### The loop -/

/-- What a HEAD for a file at a commit returns. -/
structure Reply where
  statusCode : ℕ
  xetHash : Option String
  linkedSize : Option String
  contentLength : Option String
deriving DecidableEq, Repr

/-- `x or y`: an empty string is false. -/
def orElse (x y : Option String) : Option String :=
  match x with
  | none => y
  | some s => if s = "" then y else some s

/-- `xet_hash`. -/
def xetHash (r : Reply) : Option String × Option String :=
  if r.statusCode ≠ 200 ∧ r.statusCode ≠ 302 then (none, none)
  else (r.xetHash, orElse r.linkedSize r.contentLength)

/-- A commit of the log, with the reply for the file. -/
structure Commit where
  id : String
  reply : Reply
deriving DecidableEq, Repr

/-- The hash of the file at a commit, if it is there. -/
def Commit.hash? (cm : Commit) : Option String := (xetHash cm.reply).1

inductive Mark
  | absent
  | first
  | identical
  | changed
deriving DecidableEq, Repr

def Mark.text : Mark → String
  | .absent => "—  (not xet/absent)"
  | .first => "first"
  | .identical => "= identical"
  | .changed => "≠ CHANGED"

/-- A line of the report. -/
structure Row where
  sha : String
  hash : Option String
  size : Option String
  mark : Mark
deriving DecidableEq, Repr

/-- The variables of the loop. -/
structure Probe where
  prev : Option String
  identical : ℕ
  changed : ℕ
  missing : ℕ
  changedPairs : List (String × String)
  rows : List Row
deriving DecidableEq, Repr

def Probe.start : Probe := ⟨none, 0, 0, 0, [], []⟩

/-- The body of the loop of `probe`; `rows[-1]` raises on an empty list. -/
def Probe.step (s : Probe) (cm : Commit) : Option Probe :=
  let (h, size) := xetHash cm.reply
  match h with
  | none => some { s with
      missing := s.missing + 1
      rows := s.rows ++ [⟨cm.id, none, size, .absent⟩] }
  | some h =>
    match s.prev with
    | none => some { s with
        rows := s.rows ++ [⟨cm.id, some h, size, .first⟩]
        prev := some h }
    | some prev =>
      if h = prev then some { s with
          identical := s.identical + 1
          rows := s.rows ++ [⟨cm.id, some h, size, .identical⟩]
          prev := some h }
      else
        match s.rows.getLast? with
        | none => none
        | some row => some { s with
            changed := s.changed + 1
            changedPairs := s.changedPairs ++ [(cm.id, row.sha)]
            rows := s.rows ++ [⟨cm.id, some h, size, .changed⟩]
            prev := some h }

/-- The loop over the commits of a log. -/
def probe (log : List Commit) : Option Probe := exec Probe.step .start log

/-! ### The changes of a log -/

/-- The commits with the file, as their ids and hashes. -/
def present (log : List Commit) : List (String × String) :=
  log.filterMap fun cm => cm.hash?.map (cm.id, ·)

/-- Neighbours in a list. -/
def neighbours {α : Type*} (xs : List α) : List (α × α) := xs.zip xs.tail

/-- The pairs of commits, the older one first, between which the file changed: both have it, their
hashes differ, and no commit between them has it. -/
def changes (log : List Commit) : List (String × String) :=
  ((neighbours (present log)).filter fun e => e.1.2 ≠ e.2.2).map fun e => (e.2.1, e.1.1)

/-- The neighbours with one hash. -/
def repeats (log : List Commit) : ℕ :=
  (neighbours (present log)).countP fun e => e.1.2 = e.2.2

theorem neighbours_concat {α : Type*} (xs : List α) (x : α) :
    neighbours (xs ++ [x]) = neighbours xs ++ (xs.getLast?.map (·, x)).toList := by
  induction xs with
  | nil => rfl
  | cons y ys ih =>
    cases ys with
    | nil => rfl
    | cons z zs =>
      have hcons : neighbours (y :: z :: zs ++ [x]) = (y, z) :: neighbours (z :: zs ++ [x]) := rfl
      rw [hcons, ih, List.getLast?_cons_cons]
      rfl

theorem present_concat (log : List Commit) (cm : Commit) :
    present (log ++ [cm]) = present log ++ (cm.hash?.map (cm.id, ·)).toList := by
  rw [present, List.filterMap_append]
  cases h : cm.hash? <;> simp [h, present]

theorem mem_neighbours {α : Type*} {xs : List α} {x y : α} :
    (x, y) ∈ neighbours xs ↔ ∃ pre post, xs = pre ++ x :: y :: post := by
  induction xs with
  | nil => simp [neighbours]
  | cons z zs ih =>
    cases zs with
    | nil =>
      refine iff_of_false (by simp [neighbours]) ?_
      rintro ⟨pre, post, hpre⟩
      have hlen := congrArg List.length hpre
      simp only [List.length_append, List.length_cons, List.length_nil] at hlen
      omega
    | cons w ws =>
      have hcons : neighbours (z :: w :: ws) = (z, w) :: neighbours (w :: ws) := rfl
      rw [hcons, List.mem_cons, ih]
      constructor
      · rintro (heq | ⟨pre, post, hpre⟩)
        · obtain ⟨rfl, rfl⟩ := Prod.mk.inj heq
          exact ⟨[], ws, rfl⟩
        · exact ⟨z :: pre, post, by rw [hpre, List.cons_append]⟩
      · rintro ⟨pre, post, hpre⟩
        cases pre with
        | nil =>
          rw [List.nil_append, List.cons.injEq, List.cons.injEq] at hpre
          exact Or.inl (by rw [hpre.1, hpre.2.1])
        | cons p pre =>
          rw [List.cons_append, List.cons.injEq] at hpre
          exact Or.inr ⟨pre, post, hpre.2⟩

/-- Two commits with different hashes, the newer one first, and between them none with the
file. -/
def Change (log : List Commit) (newer : Commit) (gap : List Commit) (older : Commit) : Prop :=
  (∃ pre post, log = pre ++ newer :: (gap ++ older :: post)) ∧ (∀ cm ∈ gap, cm.hash? = none) ∧
    ∃ h h', newer.hash? = some h ∧ older.hash? = some h' ∧ h ≠ h'

/-- The hash of a commit, with its id. -/
theorem found_iff {cm : Commit} {e : String × String} :
    cm.hash?.map (cm.id, ·) = some e ↔ cm.hash? = some e.2 ∧ cm.id = e.1 := by
  cases cm.hash? <;> simp [Prod.ext_iff, and_comm]

theorem mem_changes {log : List Commit} {e : String × String} : e ∈ changes log ↔
    ∃ newer gap older, Change log newer gap older ∧ e = (older.id, newer.id) := by
  rw [changes, List.mem_map]
  constructor
  · rintro ⟨⟨n, o⟩, hmem, rfl⟩
    obtain ⟨hmem, hdiff⟩ := List.mem_filter.mp hmem
    obtain ⟨xs, ys, hpresent⟩ := mem_neighbours.mp hmem
    obtain ⟨l, l', rfl, -, htail⟩ := List.filterMap_eq_append_iff.mp hpresent
    obtain ⟨skip, newer, rest, rfl, -, hnewer, htail⟩ := List.filterMap_eq_cons_iff.mp htail
    obtain ⟨gap, older, post, rfl, hgap, holder, -⟩ := List.filterMap_eq_cons_iff.mp htail
    obtain ⟨hn, hnid⟩ := found_iff.mp hnewer
    obtain ⟨ho, hoid⟩ := found_iff.mp holder
    refine ⟨newer, gap, older, ⟨⟨l ++ skip, post, by rw [List.append_assoc]⟩, fun cm hcm => ?_,
      n.2, o.2, hn, ho, of_decide_eq_true hdiff⟩, by rw [hnid, hoid]⟩
    exact Option.map_eq_none_iff.mp (hgap cm hcm)
  · rintro ⟨newer, gap, older, ⟨⟨pre, post, rfl⟩, hgap, h, h', hn, ho, hdiff⟩, rfl⟩
    refine ⟨((newer.id, h), (older.id, h')), List.mem_filter.mpr ⟨?_, decide_eq_true hdiff⟩, rfl⟩
    have hnone : present gap = [] :=
      List.filterMap_eq_nil_iff.mpr fun cm hcm => by simp [hgap cm hcm]
    refine mem_neighbours.mpr ⟨present pre, present post, ?_⟩
    have happend : present (pre ++ newer :: (gap ++ older :: post)) =
        present pre ++ (present [newer] ++ (present gap ++ (present [older] ++ present post))) := by
      simp only [present, ← List.filterMap_append, List.singleton_append]
    rw [happend, hnone]
    simp [present, hn, ho]

/-- The last commit with the file, and those without it since. -/
theorem getLast?_present {log : List Commit} {e : String × String} :
    (present log).getLast? = some e ↔ ∃ pre newer gap, log = pre ++ newer :: gap ∧
      (newer.hash? = some e.2 ∧ newer.id = e.1) ∧ ∀ cm ∈ gap, cm.hash? = none := by
  rw [List.getLast?_eq_some_iff]
  constructor
  · rintro ⟨ys, hys⟩
    obtain ⟨l, l', rfl, -, htail⟩ := List.filterMap_eq_append_iff.mp hys
    obtain ⟨skip, newer, gap, rfl, -, hnewer, htail⟩ := List.filterMap_eq_cons_iff.mp htail
    refine ⟨l ++ skip, newer, gap, by rw [List.append_assoc], found_iff.mp hnewer, ?_⟩
    exact fun cm hcm => Option.map_eq_none_iff.mp (List.filterMap_eq_nil_iff.mp htail cm hcm)
  · rintro ⟨pre, newer, gap, rfl, hnewer, hgap⟩
    have hnone : present gap = [] :=
      List.filterMap_eq_nil_iff.mpr fun cm hcm => by simp [hgap cm hcm]
    refine ⟨present pre, ?_⟩
    have happend : present (pre ++ newer :: gap) = present pre ++ (e :: present gap) := by
      rw [present, List.filterMap_append, List.filterMap_cons, found_iff.mpr hnewer]
      rfl
    rw [happend, hnone]

/-- The commit listed right before the older one of a change has the id of the newer one: with
distinct ids, it is the newer one. -/
def Aligned (log : List Commit) : Prop :=
  ∀ newer gap older, Change log newer gap older →
    (newer :: gap).getLast?.map Commit.id = some newer.id

theorem aligned_iff_of_nodup {log : List Commit} (hids : (log.map Commit.id).Nodup) :
    Aligned log ↔ ∀ newer gap older, Change log newer gap older → gap = [] := by
  refine forall_congr' fun newer => forall_congr' fun gap => forall_congr' fun older => ?_
  refine imp_congr_right fun hchange => ⟨fun hlast => ?_, fun hgap => by rw [hgap]; rfl⟩
  obtain ⟨⟨pre, post, rfl⟩, -⟩ := hchange
  rcases List.eq_nil_or_concat' gap with hnil | ⟨front, last, rfl⟩
  · exact hnil
  · -- the last of the gap would have the id of the newer one, before it
    rw [← List.cons_append, List.getLast?_concat, Option.map_some, Option.some_inj] at hlast
    rw [List.map_append, List.map_cons, List.nodup_append, List.nodup_cons] at hids
    refine absurd (List.mem_map.mpr ⟨last, ?_, hlast⟩) hids.2.1.1
    simp

theorem change_concat {log gap : List Commit} {cm newer older : Commit} :
    Change (log ++ [cm]) newer gap older ↔ Change log newer gap older ∨
      (older = cm ∧ (∃ pre, log = pre ++ newer :: gap) ∧ (∀ cm ∈ gap, cm.hash? = none) ∧
        ∃ h h', newer.hash? = some h ∧ older.hash? = some h' ∧ h ≠ h') := by
  constructor
  · rintro ⟨⟨pre, post, hlog⟩, hrest⟩
    rcases List.eq_nil_or_concat' post with rfl | ⟨post, last, rfl⟩
    · have heq : log ++ [cm] = (pre ++ newer :: gap) ++ [older] := by simp [hlog]
      obtain ⟨rfl, hcm⟩ := List.append_inj' heq rfl
      exact Or.inr ⟨(List.singleton_inj.mp hcm).symm, ⟨pre, rfl⟩, hrest⟩
    · have heq : log ++ [cm] = (pre ++ newer :: (gap ++ older :: post)) ++ [last] := by simp [hlog]
      exact Or.inl ⟨⟨pre, post, (List.append_inj' heq rfl).1⟩, hrest⟩
  · rintro (⟨⟨pre, post, rfl⟩, hrest⟩ | ⟨rfl, ⟨pre, rfl⟩, hrest⟩)
    · exact ⟨⟨pre, post ++ [cm], by simp⟩, hrest⟩
    · exact ⟨⟨pre, [], by simp⟩, hrest⟩

theorem aligned_concat {log : List Commit} {cm : Commit} : Aligned (log ++ [cm]) ↔
    Aligned log ∧ ∀ newer ∈ (present log).getLast?, ∀ h ∈ cm.hash?, newer.2 ≠ h →
      log.getLast?.map Commit.id = some newer.1 := by
  have hlast : ∀ pre (newer : Commit) gap,
      (pre ++ newer :: gap).getLast? = (newer :: gap).getLast? := by
    intro pre newer gap
    rw [List.getLast?_append_of_ne_nil pre (List.cons_ne_nil newer gap)]
  constructor
  · intro h
    refine ⟨fun newer gap older hc => h newer gap older (change_concat.mpr (Or.inl hc)), ?_⟩
    intro e he hash hhash hdiff
    obtain ⟨pre, newer, gap, rfl, ⟨hn, hid⟩, hgap⟩ := getLast?_present.mp he
    rw [hlast, ← hid]
    refine h newer gap cm (change_concat.mpr (Or.inr ⟨rfl, ⟨pre, rfl⟩, hgap, e.2, hash, hn, ?_⟩))
    exact ⟨hhash, hdiff⟩
  · rintro ⟨hlog, hnext⟩ newer gap older hc
    rcases change_concat.mp hc with hc | ⟨rfl, ⟨pre, rfl⟩, hgap, h, h', hn, ho, hdiff⟩
    · exact hlog newer gap older hc
    · rw [← hlast pre]
      exact hnext (newer.id, h) (getLast?_present.mpr ⟨pre, newer, gap, rfl, ⟨hn, rfl⟩, hgap⟩)
        h' ho hdiff

section Concat

variable {log : List Commit} {cm : Commit} {newer : String × String} {h : String}

/-- A commit without the file changes nothing. -/
theorem present_absent (hcm : cm.hash? = none) : present (log ++ [cm]) = present log := by
  simp [present_concat, hcm]

theorem present_found (hcm : cm.hash? = some h) :
    present (log ++ [cm]) = present log ++ [(cm.id, h)] := by
  simp [present_concat, hcm]

theorem neighbours_first (hlast : present log = []) (hcm : cm.hash? = some h) :
    neighbours (present (log ++ [cm])) = [] := by
  rw [present_found hcm, hlast]
  rfl

theorem neighbours_next (hlast : (present log).getLast? = some newer) (hcm : cm.hash? = some h) :
    neighbours (present (log ++ [cm])) = neighbours (present log) ++ [(newer, (cm.id, h))] := by
  rw [present_found hcm, neighbours_concat, hlast]
  rfl

end Concat

/-! ### The loop against the changes -/

/-- What the loop knows after a log. -/
structure Probed (log : List Commit) (s : Probe) : Prop where
  prev : s.prev = (present log).getLast?.map Prod.snd
  rows : s.rows.map Row.sha = log.map Commit.id
  identical : s.identical = repeats log
  total : s.identical + s.changed = (present log).length - 1
  missing : s.missing + (present log).length = log.length
  paired : s.changedPairs.length = (changes log).length
  pairs : s.changedPairs = changes log ↔ Aligned log

theorem probed_start : Probed [] .start :=
  ⟨rfl, rfl, rfl, rfl, rfl, rfl, iff_of_true rfl fun _ _ _ ⟨⟨_, _, h⟩, _⟩ => by simp at h⟩

/-- A row for each commit. -/
theorem rows_concat {log : List Commit} {cm : Commit} {rows : List Row}
    (h : rows.map Row.sha = log.map Commit.id) (row : Row) (hrow : row.sha = cm.id) :
    (rows ++ [row]).map Row.sha = (log ++ [cm]).map Commit.id := by
  rw [List.map_append, List.map_append, h, List.map_singleton, List.map_singleton, hrow]

/-- One commit. -/
theorem Probed.step {log : List Commit} {s : Probe} (hs : Probed log s) (cm : Commit) :
    ∃ s', s.step cm = some s' ∧ Probed (log ++ [cm]) s' := by
  have hlen : (log ++ [cm]).length = log.length + 1 := List.length_append
  have hfst : (xetHash cm.reply).1 = cm.hash? := rfl
  simp only [Probe.step]
  rw [hfst]
  have hmissing := hs.missing
  have htotal := hs.total
  cases hcm : cm.hash? with
  | none =>
    have hpresent : present (log ++ [cm]) = present log := present_absent hcm
    refine ⟨_, rfl, ?_, rows_concat hs.rows _ rfl, ?_, ?_, ?_, ?_, ?_⟩
    · rw [hpresent]
      exact hs.prev
    · rw [repeats, hpresent]
      exact hs.identical
    · rw [hpresent]
      exact hs.total
    · rw [hpresent, hlen]
      show s.missing + 1 + (present log).length = log.length + 1
      omega
    · rw [changes, hpresent]
      exact hs.paired
    · rw [changes, hpresent, aligned_concat]
      exact hs.pairs.trans ⟨fun h => ⟨h, fun _ _ _ hh => by simp [hcm] at hh⟩, And.left⟩
  | some h =>
    have hprev := hs.prev
    have hpresent : present (log ++ [cm]) = present log ++ [(cm.id, h)] := present_found hcm
    have hcount : (present (log ++ [cm])).length = (present log).length + 1 := by
      rw [hpresent, List.length_append]
      rfl
    have hnewest : (present (log ++ [cm])).getLast?.map Prod.snd = some h := by
      rw [hpresent, List.getLast?_concat, Option.map_some]
    have hall : s.missing + (present (log ++ [cm])).length = (log ++ [cm]).length := by
      rw [hcount, hlen]
      omega
    cases hlast : (present log).getLast? with
    | none =>
      -- the first commit with the file has no neighbour
      have hnil := List.getLast?_eq_none_iff.mp hlast
      have hnext := neighbours_first hnil hcm
      rw [hlast, Option.map_none] at hprev
      have hfresh : changes log = [] := by rw [changes, hnil]; rfl
      simp only [hprev]
      refine ⟨_, rfl, hnewest.symm, rows_concat hs.rows _ rfl, ?_, ?_, hall, ?_, ?_⟩
      · rw [repeats, hnext, hs.identical, repeats, hnil]
        rfl
      · rw [hcount]
        show s.identical + s.changed = _
        rw [hnil] at htotal ⊢
        exact htotal
      · rw [changes, hnext, hs.paired, hfresh]
        rfl
      · rw [changes, hnext, aligned_concat, ← hs.pairs, hfresh, hlast]
        exact ⟨fun h => ⟨h, nofun⟩, And.left⟩
    | some newer =>
      have hnext := neighbours_next hlast hcm
      have hne : present log ≠ [] := by
        intro hnil
        rw [hnil] at hlast
        cases hlast
      have hpos := List.length_pos_iff.mpr hne
      rw [hlast, Option.map_some] at hprev
      simp only [hprev]
      by_cases hsame : h = newer.2
      · rw [if_pos hsame]
        refine ⟨_, rfl, hnewest.symm, rows_concat hs.rows _ rfl, ?_, ?_, hall, ?_, ?_⟩
        · show s.identical + 1 = _
          rw [repeats, hnext, List.countP_append, hs.identical, repeats, hsame]
          simp
        · rw [hcount]
          show s.identical + 1 + s.changed = _
          omega
        · rw [changes, hnext, List.filter_append, List.filter_cons_of_neg (by simp [hsame]),
            List.filter_nil, List.append_nil]
          exact hs.paired
        · rw [changes, hnext, List.filter_append, List.filter_cons_of_neg (by simp [hsame]),
            List.filter_nil, List.append_nil, aligned_concat, ← hs.pairs, hlast, hcm]
          refine ⟨fun h => ⟨h, fun _ hn _ hh hdiff => ?_⟩, And.left⟩
          rw [Option.mem_some_iff] at hn hh
          exact absurd (hn ▸ hh ▸ hsame.symm) hdiff
      · rw [if_neg hsame]
        -- there is a commit before, and so a row
        have hlog : log ≠ [] := by
          rintro rfl
          exact hne rfl
        obtain ⟨before, hbefore⟩ : ∃ before, log.getLast? = some before :=
          ⟨_, List.getLast?_eq_some_getLast hlog⟩
        obtain ⟨row, hrow, hsha⟩ : ∃ row, s.rows.getLast? = some row ∧ row.sha = before.id := by
          have hmap := congrArg List.getLast? hs.rows
          rw [List.getLast?_map, List.getLast?_map, hbefore, Option.map_some] at hmap
          exact Option.map_eq_some_iff.mp hmap
        have hchanges : changes (log ++ [cm]) = changes log ++ [(cm.id, newer.1)] := by
          rw [changes, hnext, List.filter_append, List.map_append,
            List.filter_cons_of_pos (by simp [Ne.symm hsame])]
          rfl
        rw [hrow]
        refine ⟨_, rfl, hnewest.symm, rows_concat hs.rows _ rfl, ?_, ?_, hall, ?_, ?_⟩
        · show s.identical = _
          rw [repeats, hnext, List.countP_append, hs.identical, repeats]
          simp [Ne.symm hsame]
        · rw [hcount]
          show s.identical + (s.changed + 1) = _
          omega
        · rw [hchanges, List.length_append, List.length_append, hs.paired]
          rfl
        · rw [hchanges, aligned_concat, ← hs.pairs, hlast, hcm, hbefore, hsha]
          constructor
          · intro heq
            obtain ⟨hpairs, hlastpair⟩ := List.append_inj heq hs.paired
            have hid : before.id = newer.1 := (Prod.mk.inj (List.singleton_inj.mp hlastpair)).2
            refine ⟨hpairs, fun newer' hn _ _ _ => ?_⟩
            rw [Option.mem_some_iff] at hn
            rw [Option.map_some, hid, hn]
          · rintro ⟨hpairs, haligned⟩
            have hid := haligned newer rfl h rfl (Ne.symm hsame)
            rw [Option.map_some, Option.some_inj] at hid
            rw [hpairs, hid]

theorem probe_spec (log : List Commit) : ∃ s, probe log = some s ∧ Probed log s := by
  induction log using List.reverseRecOn with
  | nil => exact ⟨.start, rfl, probed_start⟩
  | append_singleton log cm ih =>
    obtain ⟨s, hs, hprobed⟩ := ih
    obtain ⟨s', hs', hprobed'⟩ := hprobed.step cm
    exact ⟨s', exec_append.mpr ⟨s, hs, exec_cons.mpr ⟨s', hs', rfl⟩⟩, hprobed'⟩

/-- **The probe suggests the changes**: its pairs are those of the commits between which the file
changed, and its counts are right.  This is so exactly if the commit listed right before the older
one of such a pair is the newer one. -/
theorem change_pairs_iff (log : List Commit) :
    (∃ s, probe log = some s ∧ s.changedPairs = changes log ∧
      s.identical + s.changed = (present log).length - 1 ∧ s.identical = repeats log) ↔
    Aligned log := by
  obtain ⟨s, hs, hprobed⟩ := probe_spec log
  constructor
  · rintro ⟨s', hs', hpairs, -⟩
    obtain rfl : s = s' := Option.some_inj.mp (hs.symm.trans hs')
    exact hprobed.pairs.mp hpairs
  · intro haligned
    exact ⟨s, hs, hprobed.pairs.mpr haligned, hprobed.total, hprobed.identical⟩

/-- A commit without the file stands between two with it. -/
def fileComesBack : List Commit :=
  [⟨"new", ⟨200, some "h", none, none⟩⟩, ⟨"gone", ⟨404, none, none, none⟩⟩,
    ⟨"old", ⟨200, some "h'", none, none⟩⟩]

/-- The suggested pair has a commit that does not have the file. -/
theorem probe_suggests_absent : changes fileComesBack = [("old", "new")] ∧
    (probe fileComesBack).map Probe.changedPairs = some [("old", "gone")] := by
  decide +kernel

end Dedup

end XetDcCache
