/-
The fetch slots of a node (server.go `acquire`, `tryAcquire`, `release`; xorb.go).

A slot is taken by a blocking send or a hand-over on the plain path, or by a hedge that does
not wait, and given back by a deferred receive.  `Sem.Step` says what one step does to the
semaphore and to the slots its owner holds; `Sem.Fair` is what it keeps.

* `fetch_slots_fair` — over every run: no more pulls than slots, each slot taken is held by
  one request or hedge, and a hedge takes one only if nobody waits.
-/
import XetDcCache.Threads

namespace XetDcCache

open Transition

/-! ### The semaphore and its owners -/

namespace Sem

/-- A step of the goroutine `t`: what it does to the semaphore, to the number of slots that are
held, and to whether it waits for one. -/
inductive Step (cap : ℕ) (t : Tid) : Sem → ℕ → Bool → Sem → ℕ → Bool → Prop
  | idle (s : Sem) (w : ℕ) : Step cap t s w false s w false
  | sent {s s' : Sem} (h : s.trySend (some cap) = some s') (w : ℕ) :
    Step cap t s w false s' (w + 1) false
  | queued {s : Sem} (h : s.trySend (some cap) = none) (w : ℕ) :
    Step cap t s w false (s.enqueue t) w true
  | left {s : Sem} (h : t ∈ s.waitq) (w : ℕ) : Step cap t s w true (s.cancel t) w false
  | took {s : Sem} (h : t ∈ s.granted) (w : ℕ) : Step cap t s w true (s.take t) (w + 1) false
  | released (s : Sem) (w : ℕ) : Step cap t s (w + 1) false (s.release (some cap)) w false

/-- Slots held by others change nothing. -/
theorem Step.add {cap : ℕ} {t : Tid} {s s' : Sem} {w w' : ℕ} {b b' : Bool}
    (h : Step cap t s w b s' w' b') (k : ℕ) : Step cap t s (k + w) b s' (k + w') b' := by
  cases h with
  | idle => exact .idle s (k + w)
  | sent h => exact .sent h (k + w)
  | queued h => exact .queued h (k + w)
  | left h => exact .left h (k + w)
  | took h => exact .took h (k + w)
  | released => exact .released s (k + w')

/-- `w` slots are held, and `B` are the goroutines that block in `acquire`: every slot taken is
held or handed over, there are at most `cap`, and nobody waits while one is free. -/
structure Fair (cap : ℕ) (s : Sem) (w : ℕ) (B : Tid → Prop) : Prop where
  balance : s.held = w + s.granted.length
  bounded : s.held ≤ cap
  full : s.waitq ≠ [] → s.held = cap
  nodup : (s.waitq ++ s.granted).Nodup
  waits : ∀ u, u ∈ s.waitq ∨ u ∈ s.granted ↔ B u

theorem fair_empty (cap : ℕ) : Fair cap .empty 0 fun _ => False where
  balance := rfl
  bounded := Nat.zero_le cap
  full := fun h => absurd rfl h
  nodup := List.nodup_nil
  waits := by simp [empty]

theorem Fair.congr {cap : ℕ} {s : Sem} {w : ℕ} {B B' : Tid → Prop} (h : Fair cap s w B)
    (hB : ∀ u, B u ↔ B' u) : Fair cap s w B' :=
  ⟨h.balance, h.bounded, h.full, h.nodup, fun u => (h.waits u).trans (hB u)⟩

theorem trySend_some {cap : ℕ} {s s' : Sem} :
    s.trySend (some cap) = some s' ↔ s.held < cap ∧ s' = { s with held := s.held + 1 } := by
  rw [trySend]
  by_cases hlt : s.held < cap
  · rw [if_pos hlt, Option.some_inj]
    exact ⟨fun h => ⟨hlt, h.symm⟩, fun h => h.2.symm⟩
  · rw [if_neg hlt]
    exact ⟨by rintro ⟨⟩, fun h => absurd h.1 hlt⟩

theorem trySend_none {cap : ℕ} {s : Sem} : s.trySend (some cap) = none ↔ cap ≤ s.held := by
  rw [trySend]
  by_cases hlt : s.held < cap
  · simp [hlt]
  · simp [hlt, not_lt.mp hlt]

/-- A step keeps the balance; only the goroutine that takes it may start or stop to wait. -/
theorem Step.fair {cap : ℕ} {t : Tid} {s s' : Sem} {w w' : ℕ} {b b' : Bool} {B B' : Tid → Prop}
    (hF : Fair cap s w B) (h : Step cap t s w b s' w' b') (hb : B t ↔ b = true)
    (hb' : B' t ↔ b' = true) (hB : ∀ u, u ≠ t → (B' u ↔ B u)) : Fair cap s' w' B' := by
  have hsame : b = false → b' = false → ∀ u, B u ↔ B' u := by
    intro hf hf' u
    by_cases hu : u = t
    · rw [hu, hb, hb', hf, hf']
    · exact (hB u hu).symm
  cases h with
  | idle => exact hF.congr (hsame rfl rfl)
  | sent h =>
    obtain ⟨hlt, rfl⟩ := trySend_some.mp h
    refine Fair.congr ⟨?_, hlt, ?_, hF.nodup, hF.waits⟩ (hsame rfl rfl)
    · show s.held + 1 = w + 1 + s.granted.length
      have := hF.balance
      omega
    · -- nobody waits while a slot is free
      intro hw
      have := hF.full hw
      omega
  | queued h =>
    have hfull := le_antisymm hF.bounded (trySend_none.mp h)
    have hnot : t ∉ s.waitq ++ s.granted := by
      rw [List.mem_append, hF.waits t, hb]
      exact Bool.false_ne_true
    refine ⟨hF.balance, hF.bounded, fun _ => hfull, ?_, fun u => ?_⟩
    · show (s.waitq ++ [t] ++ s.granted).Nodup
      rw [List.append_assoc, List.singleton_append, List.nodup_middle]
      exact List.nodup_cons.mpr ⟨hnot, hF.nodup⟩
    · show u ∈ s.waitq ++ [t] ∨ u ∈ s.granted ↔ B' u
      by_cases hu : u = t
      · simp [hu, hb']
      · rw [hB u hu, ← hF.waits u]
        simp [hu]
  | left h =>
    have hwq := (List.nodup_append.mp hF.nodup).1
    have hng : t ∉ s.granted := fun hg => (List.nodup_append.mp hF.nodup).2.2 t h t hg rfl
    refine ⟨hF.balance, hF.bounded, fun hw => hF.full fun hnil => ?_, ?_, fun u => ?_⟩
    · rw [hnil] at h
      cases h
    · exact hF.nodup.sublist (List.erase_sublist.append_right _)
    · show u ∈ s.waitq.erase t ∨ u ∈ s.granted ↔ B' u
      by_cases hu : u = t
      · subst hu
        rw [hb', hwq.mem_erase_iff]
        simp [hng]
      · rw [hB u hu, ← hF.waits u, List.mem_erase_of_ne hu]
  | took h =>
    have hgr := (List.nodup_append.mp hF.nodup).2.1
    have hnw : t ∉ s.waitq := fun hw => (List.nodup_append.mp hF.nodup).2.2 t hw t h rfl
    refine ⟨?_, hF.bounded, hF.full, ?_, fun u => ?_⟩
    · show s.held = w + 1 + (s.granted.erase t).length
      have := hF.balance
      have := List.length_pos_of_mem h
      rw [List.length_erase_of_mem h]
      omega
    · exact hF.nodup.sublist (List.erase_sublist.append_left _)
    · show u ∈ s.waitq ∨ u ∈ s.granted.erase t ↔ B' u
      by_cases hu : u = t
      · subst hu
        rw [hb', hgr.mem_erase_iff]
        simp [hnw]
      · rw [hB u hu, ← hF.waits u, List.mem_erase_of_ne hu]
  | released =>
    have hbal := hF.balance
    cases hw : s.waitq with
    | nil =>
      have hrel : s.release (some cap) = { s with held := s.held - 1 } := by
        rw [release]
        simp only [hw]
      rw [hrel]
      refine Fair.congr ⟨?_, ?_, fun h => absurd hw h, hF.nodup, hF.waits⟩ (hsame rfl rfl)
      · show s.held - 1 = w' + s.granted.length
        omega
      · exact (Nat.sub_le _ _).trans hF.bounded
    | cons v rest =>
      -- the slot passes to the first in the queue
      have hrel : s.release (some cap) = { s with waitq := rest, granted := s.granted ++ [v] } := by
        rw [release]
        simp only [hw]
      have hperm : (rest ++ (s.granted ++ [v])).Perm (s.waitq ++ s.granted) := by
        rw [hw, ← List.append_assoc]
        exact List.perm_append_singleton v (rest ++ s.granted)
      rw [hrel]
      refine Fair.congr ⟨?_, hF.bounded, ?_, hperm.nodup_iff.mpr hF.nodup, fun u => ?_⟩
        (hsame rfl rfl)
      · show s.held = w' + (s.granted ++ [v]).length
        rw [List.length_append, List.length_singleton]
        omega
      · exact fun _ => hF.full (by simp [hw])
      · show u ∈ rest ∨ u ∈ s.granted ++ [v] ↔ B u
        rw [← hF.waits u, ← List.mem_append, ← List.mem_append]
        exact hperm.mem_iff

end Sem

/-! ### Who holds a slot -/

def CdnSide.slots : CdnSide → ℕ
  | .fetching => 1
  | _ => 0

def Race.slots : Race → ℕ
  | .hedged _ c | .awaitCdn c => c.slots
  | _ => 0

def RaceNext.slots : RaceNext → ℕ
  | .go r => r.slots
  | .back _ orphan => (orphan.map CdnSide.slots).getD 0

def Fetch.slots : Fetch → ℕ
  | .racing _ _ r => r.slots
  | .pulling => 1
  | _ => 0

/-- A fill of the plain path holds the slot of its pull until it returns. -/
def FillSource.slots (src : FillSource) : ℕ := if src = .plain then 1 else 0

def FetchNext.slots : FetchNext → ℕ
  | .go f => f.slots
  | .filled src _ => src.slots
  | .failed slot _ => if slot then 1 else 0

/-- The slots the goroutine of a request and the hedge of its race hold. -/
def Stage.slots : Stage → ℕ
  | .fetch f => f.slots
  | .write src _ | .record src _ | .evict src _ | .remove src _ _ | .book src _ => src.slots
  | .ret slot _ => if slot then 1 else 0
  | _ => 0

/-- The slots of the hedges that outlived their race. -/
def Hub.slots (hub : Hub) : ℕ := (hub.orphans.map fun o => o.2.slots).sum

def Node.slots (n : Node) : ℕ := n.shared.hub.slots + (n.threads.map fun th => th.stage.slots).sum

/-- The goroutine blocks in `acquire`. -/
def Fetch.waits : Fetch → Bool
  | .blocked => true
  | _ => false

def FetchNext.waits : FetchNext → Bool
  | .go f => f.waits
  | _ => false

def Stage.blocks : Stage → Bool
  | .fetch f => f.waits
  | _ => false

def Node.Blocks (n : Node) (t : Tid) : Prop := ∃ th, n.threads[t]? = some th ∧ th.stage.blocks

section Steps

variable {cfg : Config} {cap : ℕ} {cancelled : Bool} {byteRange : Bytes}

theorem CdnSide.step_slots (t : Tid) {sem sem' : Sem} {c c' : CdnSide} {a : CdnAct}
    (h : c.step (some cap) cancelled byteRange sem a = some (sem', c')) :
    Sem.Step cap t sem c.slots false sem' c'.slots false := by
  revert h
  fun_cases CdnSide.step (some cap) cancelled byteRange sem c a
  case case1 hs =>
    intro h
    cases h
    exact .idle sem 0
  case case2 sem' hs =>
    intro h
    cases h
    exact .sent hs 0
  case case3 up hup =>
    intro h
    cases h
    exact .released sem 0
  all_goals
    intro h
    cases h

theorem Race.step_slots (hcap : cfg.slots = some cap) (t : Tid) {hub hub' : Hub} {r : Race}
    {a : RaceAct} {next : RaceNext}
    (h : r.step cfg cancelled byteRange hub a = some (hub', next)) :
    Sem.Step cap t hub.sem r.slots false hub'.sem next.slots false ∧
      hub'.orphans = hub.orphans := by
  revert h
  fun_cases Race.step cfg cancelled byteRange hub r a
  case case7 p c a sem c' hc =>
    intro h
    cases h
    exact ⟨CdnSide.step_slots t (hcap ▸ hc), rfl⟩
  case case9 c a sem c' hc =>
    intro h
    cases h
    exact ⟨CdnSide.step_slots t (hcap ▸ hc), rfl⟩
  all_goals
    intro h
    cases h
  all_goals exact ⟨.idle hub.sem _, rfl⟩

theorem Fetch.step_slots (hcap : cfg.slots = some cap) {t : Tid} {hub hub' : Hub} {f : Fetch}
    {a : FetchAct} {next : FetchNext}
    (h : f.step cfg t cancelled byteRange hub a = some (hub', next)) :
    Sem.Step cap t hub.sem (hub.slots + f.slots) f.waits hub'.sem (hub'.slots + next.slots)
      next.waits := by
  revert h
  fun_cases Fetch.step cfg t cancelled byteRange hub f a
  case case5 leg base r a hub' r' hr =>
    intro h
    cases h
    obtain ⟨hstep, horphans⟩ := Race.step_slots hcap t hr
    have heq : hub'.slots = hub.slots := by rw [Hub.slots, Hub.slots, horphans]
    rw [heq]
    exact hstep.add hub.slots
  case case6 leg base r a hub' out orphan hr =>
    intro h
    cases h
    obtain ⟨hstep, horphans⟩ := Race.step_slots hcap t hr
    -- a hedge that is left behind keeps its slot
    have heq : (hub'.orphans.map fun o => o.2.slots).sum +
        ((orphan.map (byteRange, ·)).toList.map fun o => o.2.slots).sum =
        hub.slots + (RaceNext.back out orphan).slots := by
      rw [horphans, Hub.slots]
      cases orphan <;> simp [RaceNext.slots]
    show Sem.Step cap t hub.sem (hub.slots + r.slots) false hub'.sem
      (((hub'.orphans ++ (orphan.map (byteRange, ·)).toList).map fun o => o.2.slots).sum + 0) false
    rw [List.map_append, List.sum_append, heq, Nat.add_zero]
    exact hstep.add hub.slots
  case case15 sem hs =>
    intro h
    cases h
    exact .sent (hcap ▸ hs) hub.slots
  case case16 hs =>
    intro h
    cases h
    exact .queued (hcap ▸ hs) hub.slots
  case case19 hgranted =>
    intro h
    cases h
    exact .took hgranted hub.slots
  case case21 hleft =>
    intro h
    cases h
    exact .left hleft.2 hub.slots
  all_goals
    intro h
    cases h
  all_goals exact .idle hub.sem _

theorem Stage.Moves.slots (hcap : cfg.slots = some cap) {t : Tid} {req : Request}
    {connected : Bool} {sh sh' : Shared} {st st' : Stage} {a : Act}
    (h : st.Moves cfg t req connected sh a sh' st') :
    Sem.Step cap t sh.hub.sem (sh.hub.slots + st.slots) st.blocks sh'.hub.sem
      (sh'.hub.slots + st'.slots) st'.blocks := by
  cases h
  case fetchGo hf => exact Fetch.step_slots hcap hf
  case fetchFilled hf => exact Fetch.step_slots hcap hf
  case fetchFailed hf => exact Fetch.step_slots hcap hf
  case release slot out =>
    cases slot
    · exact .idle _ _
    · have hrel : Sem.Step cap t sh.hub.sem (sh.hub.slots + 1) false (sh.hub.sem.release cfg.slots)
          sh.hub.slots false := hcap ▸ .released sh.hub.sem sh.hub.slots
      exact hrel
  case writeFailed src res err =>
    have hsrc : (Stage.ret (src = .plain) (.error ⟨500, lit "cache write: " ++ err⟩)).slots =
        src.slots := by
      cases src <;> rfl
    rw [hsrc]
    exact .idle _ _
  case book src res =>
    have hsrc : (Stage.ret (src = .plain) (.ok res)).slots = src.slots := by
      cases src <;> rfl
    rw [hsrc]
    exact .idle _ _
  all_goals exact .idle _ _

end Steps

/-! ### What every run keeps -/

variable {cfg : Config} {cap : ℕ} {n n' : Node}

/-- Every slot of the node is held by a request or a hedge, or on its way to a request. -/
def Node.Fair (cap : ℕ) (n : Node) : Prop := n.shared.hub.sem.Fair cap n.slots n.Blocks

theorem Stage.kill_slots (st : Stage) : st.kill.slots = 0 := by
  cases st <;> rfl

theorem Stage.kill_blocks (st : Stage) : st.kill.blocks = false := by
  cases st <;> rfl

theorem Node.Fair.init (cfg : Config) (cap : ℕ) : (Node.init cfg).Fair cap :=
  (Sem.fair_empty cap).congr fun u => by simp [Node.Blocks, Node.init]

/-- The goroutines that block after a thread has stepped. -/
theorem Node.blocks_set {t u : Tid} {th : Thread} {sh : Shared} {st : Stage}
    (ht : n.threads[t]? = some th) :
    Node.Blocks ⟨sh, n.threads.set t { th with stage := st }⟩ u ↔
      if u = t then st.blocks = true else n.Blocks u := by
  have hlt := (List.getElem?_eq_some_iff.mp ht).1
  rw [Node.Blocks, List.getElem?_set]
  by_cases hu : u = t
  · rw [if_pos hu.symm, if_pos hu, if_pos (hu ▸ hlt)]
    simp
  · rw [if_neg (Ne.symm hu), if_neg hu]
    rfl

/-- What the others hold. -/
theorem exists_rest {α : Type*} {l : List α} {x : α} (hx : x ∈ l) (w : α → ℕ) :
    ∃ k, (l.map w).sum = k + w x := by
  have hle : w x ≤ (l.map w).sum :=
    List.single_le_sum (fun _ _ => Nat.zero_le _) _ (List.mem_map.mpr ⟨x, hx, rfl⟩)
  exact ⟨(l.map w).sum - w x, by omega⟩

/-- What a hedge that outlived its race does to the slots of the others. -/
theorem Hub.slots_set {hub : Hub} {i : ℕ} {byteRange : Bytes} {c : CdnSide}
    (hi : hub.orphans[i]? = some (byteRange, c)) (sem : Sem) (c' : CdnSide) :
    ({ hub with sem := sem, orphans := hub.orphans.set i (byteRange, c') } : Hub).slots + c.slots =
      hub.slots + c'.slots := by
  show ((hub.orphans.set i (byteRange, c')).map fun o => o.2.slots).sum + c.slots = _
  exact sum_set hi (fun o => o.2.slots) (byteRange, c')

/-- Nobody blocks beyond the last thread. -/
theorem Node.not_blocks (n : Node) : ¬ n.Blocks n.threads.length := by
  rintro ⟨th, hth, -⟩
  exact absurd (List.getElem?_eq_some_iff.mp hth).1 (lt_irrefl _)

/-- What a step does to the slots of a node: `t` is who takes it, or nobody who blocks. -/
structure Node.SlotStep (cap : ℕ) (n n' : Node) (t : Tid) (b b' : Bool) : Prop where
  sem : Sem.Step cap t n.shared.hub.sem n.slots b n'.shared.hub.sem n'.slots b'
  before : n.Blocks t ↔ b = true
  after : n'.Blocks t ↔ b' = true
  other : ∀ u, u ≠ t → (n'.Blocks u ↔ n.Blocks u)

/-- A step that changes neither the semaphore nor who holds a slot or waits for one. -/
theorem Node.SlotStep.idle {t : Tid} (hsem : n'.shared.hub.sem = n.shared.hub.sem)
    (hslots : n'.slots = n.slots) (ht : ¬ n.Blocks t) (hB : ∀ u, n'.Blocks u ↔ n.Blocks u) :
    n.SlotStep cap n' t false false where
  sem := by
    rw [hsem, hslots]
    exact .idle _ _
  before := iff_of_false ht Bool.false_ne_true
  after := iff_of_false (fun h => ht ((hB t).mp h)) Bool.false_ne_true
  other u _ := hB u

/-- Any step but a restart takes at most one slot, gives back at most one that is held, or lets
one goroutine queue or leave. -/
theorem Node.step_slots (hcap : cfg.slots = some cap) {b : NodeAct} (hb : ∀ x, b ≠ .restart x)
    (hstep : n.step cfg b = some n') : ∃ t w w', n.SlotStep cap n' t w w' := by
  revert hstep
  fun_cases Node.step cfg n b
  all_goals
    intro hstep
    cases hstep
  case case1 req =>
    refine ⟨n.threads.length, false, false, .idle rfl ?_ n.not_blocks fun u => ?_⟩
    · simp [Node.slots, Stage.slots]
    constructor
    · rintro ⟨th, hu, hbl⟩
      rcases get_append hu with hu | ⟨-, rfl⟩
      · exact ⟨th, hu, hbl⟩
      · cases hbl
    · rintro ⟨th, hu, hbl⟩
      have hlt := (List.getElem?_eq_some_iff.mp hu).1
      exact ⟨th, by rw [List.getElem?_append_left hlt, hu], hbl⟩
  case case3 t th ht =>
    refine ⟨n.threads.length, false, false, .idle rfl ?_ n.not_blocks fun u => ?_⟩
    · have hsum : ((n.threads.set t { th with connected := false }).map fun th =>
          th.stage.slots).sum + th.stage.slots =
          (n.threads.map fun th => th.stage.slots).sum + th.stage.slots :=
        sum_set ht (fun th => th.stage.slots) _
      simp only [Node.slots]
      omega
    · have hlt := (List.getElem?_eq_some_iff.mp ht).1
      rw [Node.Blocks, Node.Blocks, List.getElem?_set]
      by_cases hu : t = u
      · subst hu
        rw [if_pos rfl, if_pos hlt, ht]
        simp
      · rw [if_neg hu]
  case case6 t a th ht sh stage hmove =>
    have hm := (Stage.step_moves hmove).slots hcap
    -- the slots of the other threads do not change
    have hsum := sum_set ht (fun th => th.stage.slots) { th with stage := stage }
    obtain ⟨k, hk⟩ := exists_rest (List.mem_of_getElem? ht) fun th => th.stage.slots
    have hold : n.slots = k + (n.shared.hub.slots + th.stage.slots) := by
      simp only [Node.slots]
      omega
    have hnew : Node.slots ⟨sh, n.threads.set t { th with stage := stage }⟩ =
        k + (sh.hub.slots + stage.slots) := by
      simp only [Node.slots]
      simp only at hsum
      omega
    refine ⟨t, th.stage.blocks, stage.blocks, ⟨?_, ?_, ?_, fun u hu => ?_⟩⟩
    · rw [hold, hnew]
      exact hm.add k
    · rw [Node.Blocks, ht]
      simp
    · rw [Node.blocks_set ht, if_pos rfl]
    · rw [Node.blocks_set ht, if_neg hu]
  case case9 i a byteRange c hi sem c' hc =>
    have hset := Hub.slots_set hi sem c'
    have hm := CdnSide.step_slots n.threads.length (hcap ▸ hc)
    obtain ⟨k, hk⟩ : ∃ k, n.shared.hub.slots = k + c.slots :=
      exists_rest (List.mem_of_getElem? hi) fun o => o.2.slots
    have hold : n.slots = k + (n.threads.map fun th => th.stage.slots).sum + c.slots := by
      simp only [Node.slots]
      omega
    have hnew : Node.slots { n with
        shared := { n.shared with
          hub := { n.shared.hub with
            sem := sem
            orphans := n.shared.hub.orphans.set i (byteRange, c') } } } =
        k + (n.threads.map fun th => th.stage.slots).sum + c'.slots := by
      simp only [Node.slots]
      omega
    -- the hedge is no thread, and never blocks
    refine ⟨n.threads.length, false, false, ⟨?_, ?_, ?_, fun u _ => Iff.rfl⟩⟩
    · rw [hold, hnew]
      exact hm.add _
    · exact iff_of_false n.not_blocks Bool.false_ne_true
    · exact iff_of_false n.not_blocks Bool.false_ne_true
  case case10 i byteRange res read hi m =>
    refine ⟨n.threads.length, false, false, .idle rfl ?_ n.not_blocks fun u => Iff.rfl⟩
    -- a hedge that has sent its result holds no slot
    have hslots : (n.shared.hub.orphans.map fun o => o.2.slots).sum =
        ((n.shared.hub.orphans.eraseIdx i).map fun o => o.2.slots).sum := by
      obtain ⟨hlt, hget⟩ := List.getElem?_eq_some_iff.mp hi
      have := ((List.getElem_cons_eraseIdx_perm hlt).map fun o => o.2.slots).sum_eq
      rw [List.map_cons, List.sum_cons, hget] at this
      simpa [CdnSide.slots] using this.symm
    simp only [Node.slots, Hub.slots]
    omega
  case case12 x => exact absurd rfl (hb x)

theorem Node.Fair.step (hcap : cfg.slots = some cap) {b : NodeAct} (h : n.Fair cap)
    (hstep : n.step cfg b = some n') : n'.Fair cap := by
  by_cases hb : ∀ x, b ≠ .restart x
  · obtain ⟨t, w, w', hs⟩ := Node.step_slots hcap hb hstep
    exact hs.sem.fair h hs.before hs.after hs.other
  · obtain ⟨x, rfl⟩ : ∃ x, b = .restart x := by simpa using hb
    rw [Node.step, Option.some_inj] at hstep
    subst hstep
    have hslots : Node.slots ⟨.boot cfg x n.shared.disk,
        n.threads.map fun th => { th with stage := th.stage.kill }⟩ = 0 := by
      have hzero : (fun th : Thread => Stage.slots { th with stage := th.stage.kill }.stage) =
          fun _ => 0 := funext fun th => Stage.kill_slots th.stage
      simp only [Node.slots, List.map_map, Function.comp_def, hzero]
      simp [Shared.boot, Shared.fresh, Hub.slots]
    rw [Node.Fair, hslots]
    refine (Sem.fair_empty cap).congr fun u => (iff_of_false id ?_)
    rintro ⟨th, hth, hbl⟩
    obtain ⟨th', -, rfl⟩ := get_kill hth
    rw [Stage.kill_blocks] at hbl
    cases hbl

theorem Node.Fair.exec (hcap : cfg.slots = some cap) {as : List NodeAct}
    (h : exec (Node.step cfg) (Node.init cfg) as = some n) : n.Fair cap :=
  exec_always (Node.Fair cap) (fun hs hstep => hs.step hcap hstep) (Node.Fair.init cfg cap) h

/-! ### Requests that have left a hedge behind -/

/-- A request that has its body or its answer: it will not ask for a slot again. -/
def Stage.served : Stage → Bool
  | .fetch (.settle _ _ (some _)) => true
  | .write _ _ | .record _ _ | .evict _ _ | .remove _ _ _ | .book _ _ | .ret _ _ | .finish _
  | .reply _ | .done _ | .killed => true
  | _ => false

/-- A request that waits for a slot, or is about to ask for one. -/
def Stage.waiting : Stage → Bool
  | .fetch .acquire | .fetch .blocked => true
  | _ => false

theorem Race.step_orphan {cancelled : Bool} {byteRange : Bytes} {hub hub' : Hub} {r : Race}
    {a : RaceAct} {out : RaceResult} {c : CdnSide}
    (h : r.step cfg cancelled byteRange hub a = some (hub', .back out (some c))) : out.isSome := by
  revert h
  fun_cases Race.step cfg cancelled byteRange hub r a
  all_goals
    intro h
    cases h
  rfl

theorem Fetch.step_orphan (hcap : cfg.slots = some cap) {t : Tid} {cancelled : Bool}
    {byteRange : Bytes} {hub hub' : Hub} {f : Fetch} {a : FetchAct} {next : FetchNext}
    (h : f.step cfg t cancelled byteRange hub a = some (hub', next))
    (ho : hub'.orphans ≠ hub.orphans) : ∃ leg base x, next = .go (.settle leg base (some x)) := by
  revert h
  fun_cases Fetch.step cfg t cancelled byteRange hub f a
  case case5 leg base r a hub'' r' hr =>
    intro h
    cases h
    exact absurd (Race.step_slots hcap t hr).2 ho
  case case6 leg base r a hub'' out orphan hr =>
    intro h
    cases h
    cases orphan with
    | none =>
      rw [Option.map_none, Option.toList_none, List.append_nil] at ho
      exact absurd (Race.step_slots hcap t hr).2 ho
    | some c =>
      obtain ⟨x, rfl⟩ := Option.isSome_iff_exists.mp (Race.step_orphan hr)
      exact ⟨leg, base, x, rfl⟩
  all_goals
    intro h
    cases h
  all_goals exact absurd rfl ho

section Served

variable {t : Tid} {req : Request} {connected : Bool} {sh sh' : Shared} {st st' : Stage} {a : Act}

theorem Stage.Moves.orphans (hcap : cfg.slots = some cap)
    (h : st.Moves cfg t req connected sh a sh' st') (ho : sh'.hub.orphans ≠ sh.hub.orphans) :
    st'.served := by
  cases h
  case fetchGo hf =>
    obtain ⟨leg, base, x, hnext⟩ := Fetch.step_orphan hcap hf ho
    cases hnext
    rfl
  case fetchFilled hf =>
    obtain ⟨leg, base, x, hnext⟩ := Fetch.step_orphan hcap hf ho
    cases hnext
  case fetchFailed hf =>
    obtain ⟨leg, base, x, hnext⟩ := Fetch.step_orphan hcap hf ho
    cases hnext
  all_goals exact absurd rfl ho

theorem Stage.Moves.served (h : st.Moves cfg t req connected sh a sh' st') (hs : st.served) :
    st'.served := by
  cases h
  case fetchGo f f' b hub hf =>
    -- a body in hand is filled at the next step
    cases f with
    | settle leg base out =>
      rcases out with _ | ⟨res, src⟩
      · cases hs
      · cases b <;> cases hf
    | _ => cases hs
  all_goals first
    | rfl
    | exact nomatch hs

end Served

/-- A request that is served stays so. -/
theorem Node.served_step {t : Tid} {b : NodeAct}
    (hs : ∃ th, n.threads[t]? = some th ∧ th.stage.served) (hstep : n.step cfg b = some n') :
    ∃ th, n'.threads[t]? = some th ∧ th.stage.served := by
  obtain ⟨th, ht, hserved⟩ := hs
  have hlt := (List.getElem?_eq_some_iff.mp ht).1
  cases Node.step_moves hstep with
  | arrive req => exact ⟨th, by rw [List.getElem?_append_left hlt, ht], hserved⟩
  | @disconnect u other hu =>
    by_cases hut : u = t
    · subst hut
      rw [ht, Option.some_inj] at hu
      subst hu
      exact ⟨_, List.getElem?_set_self hlt, hserved⟩
    · exact ⟨th, by rw [List.getElem?_set_ne hut, ht], hserved⟩
  | @thread u other a sh stage hu hm =>
    by_cases hut : u = t
    · subst hut
      rw [ht, Option.some_inj] at hu
      subst hu
      exact ⟨_, List.getElem?_set_self hlt, hm.served hserved⟩
    · exact ⟨th, by rw [List.getElem?_set_ne hut, ht], hserved⟩
  | background => exact ⟨th, ht, hserved⟩
  | restart x =>
    refine ⟨_, by rw [List.getElem?_map, ht, Option.map_some], ?_⟩
    cases hst : th.stage <;> rfl

/-! ### The result -/

/-- The CDN fetches in progress, of the plain path and of hedges. -/
def Stage.pulls : Stage → ℕ
  | .fetch f => f.slots
  | _ => 0

def Node.pulls (n : Node) : ℕ := n.shared.hub.slots + (n.threads.map fun th => th.stage.pulls).sum

/-- The goroutine has sent its result. -/
def CdnSide.ended : CdnSide → Bool
  | .sent _ _ => true
  | _ => false

/-- A hedge asks for a slot. -/
def NodeAct.hedges : NodeAct → Bool
  | .thread _ (.fetch (.race (.cdn .tryAcquire))) | .orphan _ .tryAcquire => true
  | _ => false

theorem Stage.pulls_le (st : Stage) : st.pulls ≤ st.slots := by
  cases st <;> first | exact le_rfl | exact Nat.zero_le _

/-- A hedge takes a slot only by a send that does not block. -/
theorem Sem.Step.free {cap : ℕ} {t : Tid} {s s' : Sem} {w w' : ℕ} {b b' : Bool}
    (h : Sem.Step cap t s w b s' w' b') (hgrow : s.held < s'.held) : s.held < cap := by
  cases h with
  | sent h => exact (Sem.trySend_some.mp h).1
  | released =>
    revert hgrow
    rw [Sem.release]
    split
    · intro hgrow
      exact absurd hgrow (by simp)
    · exact fun hgrow => absurd hgrow (lt_irrefl _)
  | _ => exact absurd hgrow (lt_irrefl _)

/-- **Fetch-slot discipline**, over every run of a node with `cap` slots: at most `cap` CDN
fetches are in progress; every slot taken is held by one request or hedge, or handed to one, and
a step takes or gives back one of these; all are free when nothing is in progress; a request that
waits holds none, nor does a hedge it left behind; and a slot that is taken without waiting,
as a hedge does, is taken only when nobody waits for one. -/
theorem fetch_slots_fair (hcap : cfg.slots = some cap) {as : List NodeAct}
    (h : exec (Node.step cfg) (Node.init cfg) as = some n) :
    n.pulls ≤ cap ∧
    (n.shared.hub.sem.held = n.slots + n.shared.hub.sem.granted.length ∧
      n.shared.hub.sem.held ≤ cap) ∧
    (∀ b n', (∀ x, b ≠ .restart x) → n.step cfg b = some n' →
      ∃ t w w', n.SlotStep cap n' t w w') ∧
    (n.Quiet → (∀ o ∈ n.shared.hub.orphans, o.2.ended) → n.shared.hub.sem.held = 0) ∧
    (∀ t th, n.threads[t]? = some th → th.stage.waiting → th.stage.slots = 0 ∧
      ∀ pre a post s s', as = pre ++ .thread t a :: post →
        exec (Node.step cfg) (Node.init cfg) pre = some s → s.step cfg (.thread t a) = some s' →
        s'.shared.hub.orphans = s.shared.hub.orphans) ∧
    (∀ b n', b.hedges → n.step cfg b = some n' → n.shared.hub.sem.held < n'.shared.hub.sem.held →
      ∀ t, n.Blocks t → t ∈ n.shared.hub.sem.granted) := by
  have hF := Node.Fair.exec hcap h
  refine ⟨?_, ⟨hF.balance, hF.bounded⟩, fun b n' hb hstep => Node.step_slots hcap hb hstep, ?_, ?_,
    ?_⟩
  · have hle : n.pulls ≤ n.slots := by
      refine Nat.add_le_add_left (List.sum_le_sum fun th _ => ?_) _
      exact th.stage.pulls_le
    have := hF.balance
    have := hF.bounded
    omega
  · intro hquiet hended
    have hthreads : (n.threads.map fun th => th.stage.slots).sum = 0 := by
      refine List.sum_eq_zero fun w hw => ?_
      obtain ⟨th, hth, rfl⟩ := List.mem_map.mp hw
      have := hquiet th hth
      revert this
      cases th.stage <;> simp [Stage.ended, Stage.slots]
    have horphans : n.shared.hub.slots = 0 := by
      refine List.sum_eq_zero fun w hw => ?_
      obtain ⟨o, ho, rfl⟩ := List.mem_map.mp hw
      have := hended o ho
      revert this
      cases o.2 <;> simp [CdnSide.ended, CdnSide.slots]
    have hgranted : n.shared.hub.sem.granted = [] := by
      refine List.eq_nil_iff_forall_not_mem.mpr fun u hu => ?_
      obtain ⟨th, hth, hbl⟩ := (hF.waits u).mp (Or.inr hu)
      have := hquiet th (List.mem_of_getElem? hth)
      revert this hbl
      cases th.stage <;> simp [Stage.ended, Stage.blocks]
    rw [hF.balance, Node.slots, hthreads, horphans, hgranted]
    rfl
  · intro t th ht hw
    constructor
    · revert hw
      cases th.stage with
      | fetch f => cases f <;> simp [Stage.waiting, Stage.slots, Fetch.slots]
      | _ => exact nofun
    · rintro pre a post s s' rfl hs hstep
      by_contra hleft
      -- the request was served by the race it left, and still is
      obtain ⟨r, hr, hrest⟩ := exec_append.mp h
      rw [hs, Option.some_inj] at hr
      subst hr
      obtain ⟨r, hr, hpost⟩ := exec_cons.mp hrest
      rw [hstep, Option.some_inj] at hr
      subst hr
      have hserved : ∃ th, s'.threads[t]? = some th ∧ th.stage.served := by
        cases Node.step_moves hstep with
        | thread hu hm =>
          exact ⟨_, List.getElem?_set_self (List.getElem?_eq_some_iff.mp hu).1,
            hm.orphans hcap hleft⟩
        | background ha =>
          rcases ha with ⟨i, x, hx⟩ | ⟨i, hx⟩
          · cases hx
          · cases hx
      obtain ⟨th', ht', hserved'⟩ := exec_always
        (fun n => ∃ th, n.threads[t]? = some th ∧ th.stage.served)
        (fun hs hstep => Node.served_step hs hstep) hserved hpost
      rw [ht, Option.some_inj] at ht'
      subst ht'
      revert hw hserved'
      cases th.stage with
      | fetch f => cases f <;> simp [Stage.waiting, Stage.served]
      | _ => exact nofun
  · intro b n' hb hstep hgrow t ht
    obtain ⟨u, w, w', hs⟩ := Node.step_slots hcap (by rintro x rfl; cases hb) hstep
    have hlt := hs.sem.free hgrow
    rcases (hF.waits t).mpr ht with hq | hg
    · have := hF.full (List.ne_nil_of_mem hq)
      omega
    · exact hg

/-- A node with one slot. -/
def Config.oneSlot : Config := { Config.lone with slots := some 1 }

/-- Two misses of different files; the first pulls. -/
def twoMisses : List NodeAct :=
  missing 0 [120] ++ missing 1 [121] ++
    [.thread 0 (.fetch (.begin 0)), .thread 0 (.fetch .acquire), .thread 1 (.fetch (.begin 0)),
      .thread 1 (.fetch .acquire)]

theorem fetch_slots_fair_two :
    ∃ n, exec (Node.step .oneSlot) (Node.init .oneSlot) twoMisses = some n ∧
      n.shared.hub.sem.waitq = [1] ∧ n.pulls = 1 ∧ n.pulls ≤ 1 := by
  obtain ⟨n, hn, h⟩ := exec_of_any (Node.step .oneSlot) (Node.init .oneSlot) twoMisses
    (fun n => n.shared.hub.sem.waitq = [1] ∧ n.pulls = 1) (by decide +kernel)
  obtain ⟨hwait, hpulls⟩ := of_decide_eq_true h
  have hcap : Config.oneSlot.slots = some 1 := rfl
  exact ⟨n, hn, hwait, hpulls, (fetch_slots_fair hcap hn).1⟩

end XetDcCache
