/-
The counters of the hedged races (peer_hedge.go).

`Races.step` interleaves any number of `raceOnePeer` calls with the CDN goroutines that outlive
them and their drains; other requests take and release slots of the semaphore meanwhile.  Each
call keeps the history of its hedge.

* `hedge_counters_iff` — once all have ended the counters account for every race exactly if no
  hedged race was left with one side and returned the body of that;
* `unbooked_races` — two that did.
-/
import XetDcCache.Threads

namespace XetDcCache

open Transition

/-! ### The calls -/

/-- A call that runs, or what it has returned. -/
inductive CallStage
  | racing (r : Race)
  | returned (out : RaceResult)
deriving DecidableEq

/-- A call of `raceOnePeer`.  `fired` says that its hedge was launched and `read` how many body
bytes that has read; `orphan` is a CDN goroutine left to the drain. -/
structure RaceCall where
  byteRange : Bytes
  cancelled : Bool
  stage : CallStage
  fired : Bool
  read : ℕ
  orphan : Option CdnSide
deriving DecidableEq

structure Races where
  hub : Hub
  calls : List RaceCall

/-- `sem` is what other requests do to the semaphore. -/
inductive RacesAct
  | call (byteRange : Bytes)
  | cancel (i : ℕ)
  | race (i : ℕ) (a : RaceAct)
  | orphan (i : ℕ) (a : CdnAct)
  | drain (i : ℕ)
  | sem (s : Sem)

/-- The body bytes a CDN goroutine has read, once it has ended. -/
def CdnSide.read : CdnSide → ℕ
  | .sent _ n => n
  | _ => 0

namespace RaceCall

def start (byteRange : Bytes) : RaceCall := ⟨byteRange, false, .racing .start, false, 0, none⟩

/-- The history after a step of the race. -/
def note (c : RaceCall) : RaceAct → RaceCall
  | .timer => { c with fired := true }
  | .cdn (.pull up) => { c with read := (up.cdnGet c.byteRange).2 }
  | _ => c

def move (c : RaceCall) : RaceNext → RaceCall
  | .go r => { c with stage := .racing r }
  | .back out orphan => { c with stage := .returned out, orphan := orphan }

end RaceCall

/-- A hedged race returned `ok=false`. -/
def RaceCall.failed (c : RaceCall) : Bool := c.fired && c.stage = .returned none

/-- The body came from the peer. -/
def RaceCall.fromPeer (c : RaceCall) : Bool :=
  match c.stage with
  | .returned (some (_, .srcPeer)) => true
  | _ => false

/-- A hedged race, one side of which has failed, is about to return the body of the other. -/
def CallStage.unbooked : CallStage → RaceAct → Bool
  | .racing (.awaitCdn (.sent (some _) _)), .recvCdn => true
  | .racing (.awaitPeer (.sent (some _))), .recvPeer => true
  | _, _ => false

namespace Races

/-- No call yet, on a server with this semaphore. -/
def start (sem : Sem) : Races := ⟨⟨sem, ⟨[], 0⟩, .zero, []⟩, []⟩

def step (cfg : Config) (s : Races) : RacesAct → Option Races
  | .call byteRange => some { s with calls := s.calls ++ [.start byteRange] }
  | .cancel i =>
    match s.calls[i]? with
    | none => none
    | some c => some { s with calls := s.calls.set i { c with cancelled := true } }
  | .race i a =>
    match s.calls[i]? with
    | none => none
    | some c =>
      match c.stage with
      | .returned _ => none
      | .racing r =>
        match r.step cfg c.cancelled c.byteRange s.hub a with
        | none => none
        | some (hub, next) => some ⟨hub, s.calls.set i ((c.note a).move next)⟩
  -- the race is over, so its context is cancelled
  | .orphan i a =>
    match s.calls[i]? with
    | none => none
    | some c =>
      match c.orphan with
      | none => none
      | some side =>
        match side.step cfg.slots true c.byteRange s.hub.sem a with
        | none => none
        | some (sem, side') =>
          some ⟨{ s.hub with sem := sem },
            s.calls.set i { c.note (.cdn a) with orphan := some side' }⟩
  | .drain i =>
    match s.calls[i]? with
    | none => none
    | some c =>
      match c.orphan with
      | some (.sent _ n) =>
        let m := s.hub.metrics
        some ⟨{ s.hub with metrics := { m with peerBytesWasted := m.peerBytesWasted + n } },
          s.calls.set i { c with orphan := none }⟩
      | _ => none
  | .sem sem => some { s with hub := { s.hub with sem := sem } }

/-- All goroutines have ended. -/
def Quiet (s : Races) : Prop :=
  ∀ c ∈ s.calls, c.orphan = none ∧ ∃ out, c.stage = .returned out

/-- The counters account for every race. -/
structure Accounts (s : Races) : Prop where
  fired : s.hub.metrics.peerHedgeFired = s.hub.metrics.peerHedgePeerWon +
    s.hub.metrics.peerHedgeCdnWon + (s.calls.filter RaceCall.failed).length
  wasted : s.hub.metrics.peerBytesWasted =
    ((s.calls.filter RaceCall.fromPeer).map RaceCall.read).sum

instance (s : Races) : Decidable s.Accounts :=
  decidable_of_iff (_ ∧ _) ⟨fun h => ⟨h.1, h.2⟩, fun h => ⟨h.fired, h.wasted⟩⟩

/-- A call is about to return a body that no counter says was won. -/
def Unbooked (s : Races) : RacesAct → Prop
  | .race i a => ∃ c ∈ s.calls[i]?, c.stage.unbooked a
  | _ => False

end Races

/-! ### What a call owes the counters -/

/-- The history fits the stage. -/
def RaceCall.Consistent (c : RaceCall) : Prop :=
  match c.stage with
  | .racing (.headStart _) => c.fired = false ∧ c.read = 0 ∧ c.orphan = none
  | .racing (.hedged _ side) | .racing (.awaitCdn side) =>
    c.fired = true ∧ c.read = side.read ∧ c.orphan = none
  | .racing (.awaitPeer _) => c.fired = true ∧ c.orphan = none
  | .returned out =>
    ∀ side ∈ c.orphan, c.read = side.read ∧ ∃ res, out = some (res, .srcPeer)

/-- A hedged race that is not won. -/
def RaceCall.unsettled (c : RaceCall) : ℕ :=
  match c.stage with
  | .returned (some _) => 0
  | _ => if c.fired then 1 else 0

/-- The bytes to be booked as wasted. -/
def RaceCall.wasted (c : RaceCall) : ℕ :=
  match c.stage, c.orphan with
  | .returned (some (_, .srcPeer)), none => c.read
  | _, _ => 0

section Call

variable {cfg : Config} {hub hub' : Hub} {c : RaceCall} {r : Race} {a : RaceAct} {next : RaceNext}

/-- The counters of the hedges. -/
def Metrics.won (m : Metrics) : ℕ := m.peerHedgePeerWon + m.peerHedgeCdnWon

theorem CdnSide.step_read {slots : Option ℕ} {cancelled : Bool} {sem sem' : Sem}
    {side side' : CdnSide} {b : CdnAct} (hread : c.read = side.read)
    (h : side.step slots cancelled c.byteRange sem b = some (sem', side')) :
    (c.note (.cdn b)).read = side'.read := by
  revert h
  fun_cases CdnSide.step slots cancelled c.byteRange sem side b
  all_goals
    intro h
    cases h
  · exact hread
  · exact hread
  · rfl

/-- A CDN goroutine outlives only a call that has returned the body of the peer. -/
theorem RaceCall.Consistent.of_orphan {side : CdnSide} (hc : c.Consistent)
    (h : c.orphan = some side) :
    c.read = side.read ∧ ∃ res, c.stage = .returned (some (res, .srcPeer)) := by
  obtain ⟨byteRange, cancelled, stage, fired, read, orphan⟩ := c
  cases h
  cases stage with
  | racing r =>
    cases r with
    | headStart p => cases hc.2.2
    | hedged p side' => cases hc.2.2
    | awaitCdn side' => cases hc.2.2
    | awaitPeer p => cases hc.2
  | returned out =>
    obtain ⟨hread, res, rfl⟩ := hc side rfl
    exact ⟨hread, res, rfl⟩

/-- What a step of a race does to the counters and to what its call owes them. -/
theorem RaceCall.step_spec (hc : c.Consistent) (hst : c.stage = .racing r)
    (h : r.step cfg c.cancelled c.byteRange hub a = some (hub', next)) :
    ((c.note a).move next).Consistent ∧
      hub'.metrics.peerBytesWasted = hub.metrics.peerBytesWasted ∧
      (¬ c.stage.unbooked a → ((c.note a).move next).wasted = 0 ∧
        hub'.metrics.peerHedgeFired + hub.metrics.won + c.unsettled =
          hub.metrics.peerHedgeFired + hub'.metrics.won + ((c.note a).move next).unsettled) ∧
      (c.stage.unbooked a → hub'.metrics.peerHedgeFired = hub.metrics.peerHedgeFired ∧
        hub'.metrics.won = hub.metrics.won ∧
        ((c.note a).move next).unsettled + 1 = c.unsettled) := by
  obtain ⟨byteRange, cancelled, stage, fired, read, orphan⟩ := c
  cases hst
  revert h
  fun_cases Race.step cfg cancelled byteRange hub r a
  -- the peer goroutine ends
  case case1 ex =>
    intro h
    cases h
    obtain ⟨rfl, rfl, rfl⟩ := hc
    exact ⟨⟨rfl, rfl, rfl⟩, rfl, fun _ => ⟨rfl, rfl⟩, by rintro ⟨⟩⟩
  case case2 side ex =>
    intro h
    cases h
    obtain ⟨rfl, rfl, rfl⟩ := hc
    exact ⟨⟨rfl, rfl, rfl⟩, rfl, fun _ => ⟨rfl, rfl⟩, by rintro ⟨⟩⟩
  case case3 ex =>
    intro h
    cases h
    obtain ⟨rfl, rfl⟩ := hc
    exact ⟨⟨rfl, rfl⟩, rfl, fun _ => ⟨rfl, rfl⟩, by rintro ⟨⟩⟩
  -- the head start ends
  case case4 o =>
    intro h
    cases h
    obtain ⟨rfl, rfl, rfl⟩ := hc
    refine ⟨by rintro _ ⟨⟩, rfl, fun _ => ?_, by rintro ⟨⟩⟩
    cases o <;> exact ⟨rfl, rfl⟩
  case case5 p =>
    intro h
    cases h
    obtain ⟨rfl, rfl, rfl⟩ := hc
    refine ⟨⟨rfl, rfl, rfl⟩, rfl, fun _ => ⟨rfl, ?_⟩, by rintro ⟨⟩⟩
    show hub.metrics.peerHedgeFired + 1 + _ + 0 = hub.metrics.peerHedgeFired + _ + 1
    simp only [Metrics.won]
    omega
  -- the CDN goroutine steps
  case case7 p side b sem side' hside =>
    intro h
    cases h
    obtain ⟨rfl, hread, rfl⟩ := hc
    have hread' : (RaceCall.note ⟨byteRange, cancelled, .racing (.hedged p side), true, read, none⟩
        (.cdn b)).read = side'.read := CdnSide.step_read hread hside
    cases b <;> exact ⟨⟨rfl, hread', rfl⟩, rfl, fun _ => ⟨rfl, rfl⟩, by rintro ⟨⟩⟩
  case case9 side b sem side' hside =>
    intro h
    cases h
    obtain ⟨rfl, hread, rfl⟩ := hc
    have hread' : (RaceCall.note ⟨byteRange, cancelled, .racing (.awaitCdn side), true, read, none⟩
        (.cdn b)).read = side'.read := CdnSide.step_read hread hside
    have hno : ¬ CallStage.unbooked (.racing (.awaitCdn side)) (.cdn b) := by
      rcases side with _ | _ | ⟨_ | _, _⟩ <;> rintro ⟨⟩
    cases b <;> exact ⟨⟨rfl, hread', rfl⟩, rfl, fun _ => ⟨rfl, rfl⟩, fun h => absurd h hno⟩
  -- the peer's result is received
  case case10 res side =>
    intro h
    cases h
    obtain ⟨rfl, hread, rfl⟩ := hc
    refine ⟨?_, rfl, fun _ => ⟨rfl, ?_⟩, by rintro ⟨⟩⟩
    · rintro side' ⟨⟩
      exact ⟨hread, res, rfl⟩
    · show hub.metrics.peerHedgeFired + hub.metrics.won + 1 = hub.metrics.peerHedgeFired +
        (hub.metrics.peerHedgePeerWon + 1 + hub.metrics.peerHedgeCdnWon) + 0
      rw [Metrics.won]
      omega
  case case11 side =>
    intro h
    cases h
    obtain ⟨rfl, hread, rfl⟩ := hc
    exact ⟨⟨rfl, hread, rfl⟩, rfl, fun _ => ⟨rfl, rfl⟩, by rintro ⟨⟩⟩
  case case12 o =>
    intro h
    cases h
    obtain ⟨rfl, rfl⟩ := hc
    cases o with
    | none => exact ⟨by rintro _ ⟨⟩, rfl, fun _ => ⟨rfl, rfl⟩, by rintro ⟨⟩⟩
    | some res => exact ⟨by rintro _ ⟨⟩, rfl, fun hno => absurd rfl hno, fun _ => ⟨rfl, rfl, rfl⟩⟩
  -- the CDN's result is received
  case case13 p res n =>
    intro h
    cases h
    obtain ⟨rfl, hread, rfl⟩ := hc
    refine ⟨by rintro _ ⟨⟩, rfl, fun _ => ⟨rfl, ?_⟩, by rintro ⟨⟩⟩
    show hub.metrics.peerHedgeFired + hub.metrics.won + 1 = hub.metrics.peerHedgeFired +
      (hub.metrics.peerHedgePeerWon + (hub.metrics.peerHedgeCdnWon + 1)) + 0
    rw [Metrics.won]
    omega
  case case14 p n =>
    intro h
    cases h
    obtain ⟨rfl, -, rfl⟩ := hc
    exact ⟨⟨rfl, rfl⟩, rfl, fun _ => ⟨rfl, rfl⟩, by rintro ⟨⟩⟩
  case case15 o n =>
    intro h
    cases h
    obtain ⟨rfl, -, rfl⟩ := hc
    cases o with
    | none => exact ⟨by rintro _ ⟨⟩, rfl, fun _ => ⟨rfl, rfl⟩, by rintro ⟨⟩⟩
    | some res => exact ⟨by rintro _ ⟨⟩, rfl, fun hno => absurd rfl hno, fun _ => ⟨rfl, rfl, rfl⟩⟩
  all_goals
    intro h
    cases h

end Call

/-! ### All calls -/

namespace Races

variable {cfg : Config} {s s' : Races} {a : RacesAct}

/-- What is unsettled never falls short of what the counters leave open. -/
structure Inv (s : Races) : Prop where
  calls : ∀ c ∈ s.calls, c.Consistent
  fired : s.hub.metrics.won + (s.calls.map RaceCall.unsettled).sum ≤ s.hub.metrics.peerHedgeFired

/-- The counters balance while goroutines are running, too. -/
structure Balanced (s : Races) : Prop where
  fired : s.hub.metrics.peerHedgeFired =
    s.hub.metrics.won + (s.calls.map RaceCall.unsettled).sum
  wasted : s.hub.metrics.peerBytesWasted = (s.calls.map RaceCall.wasted).sum

/-- A step that touches neither the counters nor what a call owes them. -/
theorem Inv.quiet (hI : s.Inv) (hno : ¬ s.Unbooked a)
    (hcalls : ∀ c ∈ s'.calls, c.Consistent) (hm : s'.hub.metrics = s.hub.metrics)
    (hu : (s'.calls.map RaceCall.unsettled).sum = (s.calls.map RaceCall.unsettled).sum)
    (hw : (s'.calls.map RaceCall.wasted).sum = (s.calls.map RaceCall.wasted).sum) :
    s'.Inv ∧ (s'.Balanced ↔ s.Balanced ∧ ¬ s.Unbooked a) := by
  refine ⟨⟨hcalls, ?_⟩, ⟨fun hb => ⟨⟨?_, ?_⟩, hno⟩, fun hb => ⟨?_, ?_⟩⟩⟩
  · rw [hm, hu]
    exact hI.fired
  · rw [← hm, ← hu]
    exact hb.fired
  · rw [← hm, ← hw]
    exact hb.wasted
  · rw [hm, hu]
    exact hb.1.fired
  · rw [hm, hw]
    exact hb.1.wasted

theorem consistent_set {i : ℕ} {c' : RaceCall} (hcalls : ∀ c ∈ s.calls, c.Consistent)
    (hc' : c'.Consistent) : ∀ d ∈ s.calls.set i c', d.Consistent := by
  intro d hd
  rcases List.mem_or_eq_of_mem_set hd with hd | rfl
  · exact hcalls d hd
  · exact hc'

/-- So is one that changes a call and not what it owes. -/
theorem Inv.quiet_set {i : ℕ} {c c' : RaceCall} (hI : s.Inv) (hno : ¬ s.Unbooked a)
    (hi : s.calls[i]? = some c) (hs' : s'.calls = s.calls.set i c')
    (hm : s'.hub.metrics = s.hub.metrics) (hc' : c'.Consistent)
    (hu : c'.unsettled = c.unsettled) (hw : c'.wasted = c.wasted) :
    s'.Inv ∧ (s'.Balanced ↔ s.Balanced ∧ ¬ s.Unbooked a) := by
  have hus := sum_set hi RaceCall.unsettled c'
  have hws := sum_set hi RaceCall.wasted c'
  rw [hu] at hus
  rw [hw] at hws
  refine hI.quiet hno ?_ hm ?_ ?_
  · rw [hs']
    exact consistent_set hI.calls hc'
  · rw [hs']
    exact Nat.add_right_cancel hus
  · rw [hs']
    exact Nat.add_right_cancel hws

/-- A step of a race leaves the balance exactly if it settles the race without a counter. -/
theorem Inv.race {i : ℕ} {c : RaceCall} {r : Race} {b : RaceAct} {hub : Hub} {next : RaceNext}
    (hI : s.Inv) (hi : s.calls[i]? = some c) (hst : c.stage = .racing r)
    (hr : r.step cfg c.cancelled c.byteRange s.hub b = some (hub, next)) :
    Inv ⟨hub, s.calls.set i ((c.note b).move next)⟩ ∧
      (Balanced ⟨hub, s.calls.set i ((c.note b).move next)⟩ ↔
        s.Balanced ∧ ¬ c.stage.unbooked b) := by
  have hc := hI.calls c (List.mem_of_getElem? hi)
  obtain ⟨hc', hwasted, hbooked, hlost⟩ := RaceCall.step_spec hc hst hr
  have hu := sum_set hi RaceCall.unsettled ((c.note b).move next)
  have hw := sum_set hi RaceCall.wasted ((c.note b).move next)
  have hzero : c.wasted = 0 := by
    rw [RaceCall.wasted, hst]
  have hfired := hI.fired
  by_cases hun : c.stage.unbooked b
  · -- the race is settled and no counter says so
    obtain ⟨hf, hwon, hone⟩ := hlost hun
    refine ⟨⟨consistent_set hI.calls hc', ?_⟩, iff_of_false (fun hb => ?_) fun h => h.2 hun⟩
    · show hub.metrics.won + ((s.calls.set i _).map _).sum ≤ hub.metrics.peerHedgeFired
      omega
    · have := hb.fired
      dsimp only at this
      omega
  · obtain ⟨hnone, hsum⟩ := hbooked hun
    refine ⟨⟨consistent_set hI.calls hc', ?_⟩, fun hb => ?_, ?_⟩
    · show hub.metrics.won + ((s.calls.set i _).map _).sum ≤ hub.metrics.peerHedgeFired
      omega
    · have h1 := hb.fired
      have h2 := hb.wasted
      dsimp only at h1 h2
      exact ⟨⟨by omega, by omega⟩, hun⟩
    · rintro ⟨hb, -⟩
      have h1 := hb.fired
      have h2 := hb.wasted
      exact ⟨show hub.metrics.peerHedgeFired = hub.metrics.won +
        ((s.calls.set i _).map _).sum by omega,
        show hub.metrics.peerBytesWasted = ((s.calls.set i _).map _).sum by omega⟩

/-- A drain books the bytes its goroutine had read, which were not due before. -/
theorem Inv.drain {i n : ℕ} {c : RaceCall} {o : Option XorbResult} (hI : s.Inv)
    (hi : s.calls[i]? = some c) (horphan : c.orphan = some (.sent o n))
    (h : s.step cfg (.drain i) = some s') : s'.Inv ∧ (s'.Balanced ↔ s.Balanced) := by
  simp only [Races.step, hi, horphan, Option.some_inj] at h
  subst h
  obtain ⟨hread, res, hst⟩ := (hI.calls c (List.mem_of_getElem? hi)).of_orphan horphan
  have hu := sum_set hi RaceCall.unsettled { c with orphan := none }
  have hw := sum_set hi RaceCall.wasted { c with orphan := none }
  have hunsettled : RaceCall.unsettled { c with orphan := none } = c.unsettled := rfl
  have hbefore : c.wasted = 0 := by
    rw [RaceCall.wasted, hst, horphan]
  have hafter : RaceCall.wasted { c with orphan := none } = n := by
    rw [RaceCall.wasted]
    simp only [hst]
    exact hread
  have hfired := hI.fired
  have hcalls : ∀ d ∈ s.calls.set i { c with orphan := none }, d.Consistent := by
    refine consistent_set hI.calls ?_
    rw [RaceCall.Consistent]
    simp only [hst]
    rintro side ⟨⟩
  refine ⟨⟨hcalls, ?_⟩, fun hb => ⟨?_, ?_⟩, fun hb => ⟨?_, ?_⟩⟩
  · show s.hub.metrics.won + ((s.calls.set i _).map _).sum ≤ s.hub.metrics.peerHedgeFired
    omega
  · have h1 : s.hub.metrics.peerHedgeFired =
      s.hub.metrics.won + ((s.calls.set i _).map _).sum := hb.fired
    omega
  · have h2 : s.hub.metrics.peerBytesWasted + n = ((s.calls.set i _).map _).sum := hb.wasted
    omega
  · have h1 := hb.fired
    show s.hub.metrics.peerHedgeFired = s.hub.metrics.won + ((s.calls.set i _).map _).sum
    omega
  · have h2 := hb.wasted
    show s.hub.metrics.peerBytesWasted + n = ((s.calls.set i _).map _).sum
    omega

theorem Inv.step (hI : s.Inv) (h : s.step cfg a = some s') :
    s'.Inv ∧ (s'.Balanced ↔ s.Balanced ∧ ¬ s.Unbooked a) := by
  cases a with
  | call byteRange =>
    cases h
    refine hI.quiet id ?_ rfl (by simp [RaceCall.unsettled, RaceCall.start])
      (by simp [RaceCall.wasted, RaceCall.start])
    intro c hc
    rcases List.mem_append.mp hc with hc | hc
    · exact hI.calls c hc
    · rw [List.mem_singleton.mp hc]
      exact ⟨rfl, rfl, rfl⟩
  | cancel i =>
    rw [Races.step] at h
    split at h
    · cases h
    · next c hi =>
      cases h
      have hc := hI.calls c (List.mem_of_getElem? hi)
      have hc' : RaceCall.Consistent { c with cancelled := true } := hc
      exact hI.quiet_set id hi rfl rfl hc' rfl rfl
  | sem sem =>
    cases h
    exact hI.quiet id hI.calls rfl rfl rfl
  | race i b =>
    rw [Races.step] at h
    split at h
    · cases h
    · next c hi =>
      split at h
      · cases h
      · next r hst =>
        split at h
        · cases h
        · next hub next hr =>
          cases h
          have hiff : s.Unbooked (.race i b) ↔ c.stage.unbooked b := by
            rw [Unbooked, hi]
            simp
          rw [hiff]
          exact hI.race hi hst hr
  | orphan i b =>
    rw [Races.step] at h
    split at h
    · cases h
    · next c hi =>
      split at h
      · cases h
      · next side horphan =>
        split at h
        · cases h
        · next sem side' hside =>
          cases h
          obtain ⟨hread, res, hst⟩ := (hI.calls c (List.mem_of_getElem? hi)).of_orphan horphan
          have hread' := CdnSide.step_read hread hside
          have hstage : (c.note (.cdn b)).stage = c.stage := by cases b <;> rfl
          refine hI.quiet_set id hi rfl rfl ?_ ?_ ?_
          · rw [RaceCall.Consistent]
            simp only [hstage, hst]
            rintro side'' ⟨⟩
            exact ⟨hread', res, rfl⟩
          · rw [RaceCall.unsettled, RaceCall.unsettled]
            simp only [hstage, hst]
          · -- the bytes of a goroutine are not due before the drain
            rw [RaceCall.wasted, RaceCall.wasted]
            simp only [hstage, hst, horphan]
  | drain i =>
    cases hi : s.calls[i]? with
    | none =>
      simp only [Races.step, hi] at h
      cases h
    | some c =>
      cases horphan : c.orphan with
      | none =>
        simp only [Races.step, hi, horphan] at h
        cases h
      | some side =>
        cases side with
        | sent o n =>
          obtain ⟨hinv, hiff⟩ := hI.drain hi horphan h
          exact ⟨hinv, hiff.trans (and_iff_left id).symm⟩
        | _ =>
          simp only [Races.step, hi, horphan] at h
          cases h

theorem inv_start (sem : Sem) : (start sem).Inv := ⟨nofun, le_rfl⟩

theorem balanced_start (sem : Sem) : (start sem).Balanced := ⟨rfl, rfl⟩

theorem sum_ite_eq_filter {α : Type*} (p : α → Bool) (w : α → ℕ) (l : List α) :
    (l.map fun x => if p x then w x else 0).sum = ((l.filter p).map w).sum := by
  rw [List.sum_map_ite]
  simp

/-- Once all goroutines have ended, balanced counters account for every race. -/
theorem Quiet.accounts_iff (hq : s.Quiet) : s.Accounts ↔ s.Balanced := by
  have hu : (s.calls.map RaceCall.unsettled).sum = (s.calls.filter RaceCall.failed).length := by
    have hcount := sum_ite_eq_filter RaceCall.failed (fun _ => 1) s.calls
    rw [List.map_const', List.sum_replicate, smul_eq_mul, Nat.mul_one] at hcount
    rw [← hcount]
    refine congrArg List.sum (List.map_congr_left fun c hc => ?_)
    obtain ⟨-, out, hst⟩ := hq c hc
    rw [RaceCall.unsettled, RaceCall.failed, hst]
    cases out <;> cases c.fired <;> rfl
  have hw : (s.calls.map RaceCall.wasted).sum =
      ((s.calls.filter RaceCall.fromPeer).map RaceCall.read).sum := by
    rw [← sum_ite_eq_filter]
    refine congrArg List.sum (List.map_congr_left fun c hc => ?_)
    obtain ⟨horphan, out, hst⟩ := hq c hc
    rw [RaceCall.wasted, RaceCall.fromPeer, hst, horphan]
    rcases out with _ | ⟨res, _ | _⟩ <;> rfl
  constructor
  · intro ha
    refine ⟨?_, ?_⟩
    · rw [hu]
      exact ha.fired
    · rw [hw]
      exact ha.wasted
  · intro hb
    refine ⟨?_, ?_⟩
    · rw [← hu]
      exact hb.fired
    · rw [← hw]
      exact hb.wasted

end Races

/-- **Hedge counters account for every race**, once all goroutines of a run have ended, exactly
if in no step of it a hedged race, one side of which had failed, returned the body of the
other. -/
theorem hedge_counters_iff {cfg : Config} {sem : Sem} {as : List RacesAct} {s : Races}
    (h : exec (Races.step cfg) (.start sem) as = some s) (hquiet : s.Quiet) :
    s.Accounts ↔ Along (Races.step cfg) (fun s a => ¬ s.Unbooked a) (.start sem) as := by
  rw [hquiet.accounts_iff]
  have hiff := exec_iff_along (P := Races.Balanced) (fun hI hstep => Races.Inv.step hI hstep)
    (Races.inv_start sem) h
  exact hiff.trans (and_iff_right (Races.balanced_start sem))

/-! ### Three races -/

/-- A CDN whose one candidate is authorized and sends `body`. -/
def Upstream.sends (body : BodyRead) : Upstream :=
  ⟨some [lit "u"], none, fun _ _ _ => .reply ⟨206, [], body⟩⟩

/-- A call whose hedge fires and gets a slot. -/
def hedging (i : ℕ) : List RacesAct :=
  [.call (lit "bytes=0-0"), .race i .timer, .race i (.cdn .tryAcquire)]

/-- The peer wins while the CDN is being read, which breaks off after two bytes. -/
def peerWins (i : ℕ) : List RacesAct :=
  hedging i ++ [.race i (.peer (.reply ⟨206, [], .full [7]⟩)), .race i .recvPeer,
    .orphan i (.pull (.sends (.broken [7, 8] []))), .drain i]

/-- The peer fails, and the CDN has the body. -/
def cdnAlone (i : ℕ) : List RacesAct :=
  hedging i ++ [.race i (.peer .failed), .race i .recvPeer,
    .race i (.cdn (.pull (.sends (.full [7])))), .race i .recvCdn]

/-- The CDN breaks off after two bytes, and the peer has the body. -/
def peerAlone (i : ℕ) : List RacesAct :=
  hedging i ++ [.race i (.cdn (.pull (.sends (.broken [7, 8] [])))), .race i .recvCdn,
    .race i (.peer (.reply ⟨206, [], .full [7]⟩)), .race i .recvPeer]

instance : ∀ stage : CallStage, Decidable (∃ out, stage = .returned out)
  | .racing _ => .isFalse nofun
  | .returned out => .isTrue ⟨out, rfl⟩

instance (s : Races) : Decidable s.Quiet :=
  inferInstanceAs (Decidable (∀ c ∈ s.calls, c.orphan = none ∧ ∃ out, c.stage = .returned out))

instance (s : Races) : ∀ a, Decidable (s.Unbooked a)
  | .race i a => inferInstanceAs (Decidable (∃ c ∈ s.calls[i]?, c.stage.unbooked a))
  | .call _ | .cancel _ | .orphan _ _ | .drain _ | .sem _ => .isFalse id

theorem hedge_counters_peer_wins :
    ∃ s, exec (Races.step .lone) (.start .empty) (peerWins 0) = some s ∧ s.Quiet ∧
      s.hub.metrics.peerBytesWasted = 2 ∧ s.Accounts := by
  obtain ⟨s, hs, hp⟩ := exec_of_any (Races.step .lone) (.start .empty) (peerWins 0)
    (fun s => s.Quiet ∧ s.hub.metrics.peerBytesWasted = 2) (by decide)
  obtain ⟨hquiet, hwasted⟩ := of_decide_eq_true hp
  refine ⟨s, hs, hquiet, hwasted, (hedge_counters_iff hs hquiet).mpr ?_⟩
  decide

/-- A race each that was left to the CDN and to the peer. -/
theorem unbooked_races :
    ∃ s, exec (Races.step .lone) (.start .empty) (cdnAlone 0 ++ peerAlone 1) = some s ∧ s.Quiet ∧
      s.hub.metrics.peerHedgeFired = 2 ∧ s.hub.metrics.peerHedgePeerWon = 0 ∧
      s.hub.metrics.peerHedgeCdnWon = 0 ∧ s.calls.filter RaceCall.failed = [] ∧
      s.hub.metrics.peerBytesWasted = 0 ∧
      (s.calls.filter RaceCall.fromPeer).map RaceCall.read = [2] ∧ ¬ s.Accounts := by
  obtain ⟨s, hs, hp⟩ := exec_of_any (Races.step .lone) (.start .empty) (cdnAlone 0 ++ peerAlone 1)
    (fun s => s.Quiet ∧ s.hub.metrics.peerHedgeFired = 2 ∧ s.hub.metrics.peerHedgePeerWon = 0 ∧
      s.hub.metrics.peerHedgeCdnWon = 0 ∧ s.calls.filter RaceCall.failed = [] ∧
      s.hub.metrics.peerBytesWasted = 0 ∧
      (s.calls.filter RaceCall.fromPeer).map RaceCall.read = [2] ∧ ¬ s.Accounts) (by decide)
  exact ⟨s, hs, of_decide_eq_true hp⟩

end XetDcCache
