/-
The hedged race (peer_hedge.go).

`raceOnePeer` starts a peer goroutine, and a CDN goroutine if the timer fires
first; each sends one result on a channel of capacity one.  `Race` is where the
calling goroutine is, with the state of the goroutines it may still hear from,
so a wait on a channel nobody will send to cannot be written down.
`Race.progress` says that a race always has a step to take, `Race.rank` that it
takes finitely many.
-/
import XetDcCache.Server

namespace XetDcCache

/-- The peer goroutine: in `peerGet`, or its result in `peerCh`. -/
inductive PeerSide
  | running
  | sent (res : Option XorbResult)
deriving DecidableEq, Repr

/-- The CDN goroutine: about to ask for a slot, fetching with one, or its result
and the bytes read in `cdnCh`. -/
inductive CdnSide
  | starting
  | fetching
  | sent (res : Option XorbResult) (read : ℕ)
deriving DecidableEq, Repr

/-- The calling goroutine: in the first `select` (head start), in the loop's
`select`, or waiting for the one side left. -/
inductive Race
  | headStart (peer : PeerSide)
  | hedged (peer : PeerSide) (cdn : CdnSide)
  | awaitCdn (cdn : CdnSide)
  | awaitPeer (peer : PeerSide)
deriving DecidableEq, Repr

/-- What `raceOnePeer` returns; `none` is `ok=false`. -/
abbrev RaceResult := Option (XorbResult × HedgeSource)

/-- A CDN goroutine's next step: `tryAcquire`, or the end of its pull. -/
inductive CdnAct
  | tryAcquire
  | pull (up : Upstream)

inductive RaceAct
  | peer (ex : Exchange)
  | timer
  | recvPeer
  | cdn (a : CdnAct)
  | recvCdn

/-- The race goes on, or returns; a peer win after the hedge leaves the CDN
goroutine to the drain. -/
inductive RaceNext
  | go (r : Race)
  | back (out : RaceResult) (orphan : Option CdnSide)

/-- The state shared by the requests that fetch: the semaphore, the sticky
pointer, the counters, and the CDN goroutines that outlive their race, each with
its range. -/
structure Hub where
  sem : Sem
  sticky : Sticky
  metrics : Metrics
  orphans : List (Bytes × CdnSide)
deriving DecidableEq, Repr

namespace CdnSide

/-- `cdnGet`.  A pull meets a cancelled context only if the race's context is
cancelled; its slot is released before the result is sent. -/
def step (slots : Option ℕ) (cancelled : Bool) (byteRange : Bytes) (sem : Sem) :
    CdnSide → CdnAct → Option (Sem × CdnSide)
  | .starting, .tryAcquire =>
    match sem.trySend slots with
    | none => some (sem, .sent none 0)
    | some sem' => some (sem', .fetching)
  | .fetching, .pull up =>
    if up.cutoff = none ∨ cancelled then
      some (sem.release slots, .sent (up.cdnGet byteRange).1 (up.cdnGet byteRange).2)
    else none
  | _, _ => none

end CdnSide

namespace Race

/-- `raceOnePeer` as it starts. -/
def start : Race := .headStart .running

def step (cfg : Config) (cancelled : Bool) (byteRange : Bytes) (hub : Hub) :
    Race → RaceAct → Option (Hub × RaceNext)
  -- the peer goroutine ends
  | .headStart .running, .peer ex =>
    some (hub, .go (.headStart (.sent (peerGet byteRange ex))))
  | .hedged .running c, .peer ex =>
    some (hub, .go (.hedged (.sent (peerGet byteRange ex)) c))
  | .awaitPeer .running, .peer ex =>
    some (hub, .go (.awaitPeer (.sent (peerGet byteRange ex))))
  -- the head start ends
  | .headStart (.sent o), .recvPeer => some (hub, .back (o.map (·, .srcPeer)) none)
  | .headStart p, .timer =>
    some ({ hub with
      metrics := { hub.metrics with peerHedgeFired := hub.metrics.peerHedgeFired + 1 } },
      .go (.hedged p .starting))
  -- the CDN goroutine steps
  | .hedged p c, .cdn a =>
    match c.step cfg.slots cancelled byteRange hub.sem a with
    | none => none
    | some (sem, c') => some ({ hub with sem := sem }, .go (.hedged p c'))
  | .awaitCdn c, .cdn a =>
    match c.step cfg.slots cancelled byteRange hub.sem a with
    | none => none
    | some (sem, c') => some ({ hub with sem := sem }, .go (.awaitCdn c'))
  -- the peer's result is received
  | .hedged (.sent (some res)) c, .recvPeer =>
    some ({ hub with
      metrics := { hub.metrics with peerHedgePeerWon := hub.metrics.peerHedgePeerWon + 1 } },
      .back (some (res, .srcPeer)) (some c))
  | .hedged (.sent none) c, .recvPeer => some (hub, .go (.awaitCdn c))
  | .awaitPeer (.sent o), .recvPeer => some (hub, .back (o.map (·, .srcPeer)) none)
  -- the CDN's result is received
  | .hedged _ (.sent (some res) _), .recvCdn =>
    some ({ hub with
      metrics := { hub.metrics with peerHedgeCdnWon := hub.metrics.peerHedgeCdnWon + 1 } },
      .back (some (res, .srcCDN)) none)
  | .hedged p (.sent none _), .recvCdn => some (hub, .go (.awaitPeer p))
  | .awaitCdn (.sent o _), .recvCdn => some (hub, .back (o.map (·, .srcCDN)) none)
  | _, _ => none

end Race

/-! ### What a race returns -/

/-- The results waiting in the channels of a race. -/
def PeerSide.results : PeerSide → List XorbResult
  | .running => []
  | .sent res => res.toList

def CdnSide.results : CdnSide → List XorbResult
  | .sent res _ => res.toList
  | _ => []

def Race.results : Race → List XorbResult
  | .headStart p => p.results
  | .hedged p c => p.results ++ c.results
  | .awaitCdn c => c.results
  | .awaitPeer p => p.results

def RaceNext.results : RaceNext → List XorbResult
  | .go r => r.results
  | .back out _ => (out.map Prod.fst).toList

/-- The result an action brings in from outside. -/
def CdnAct.brings (byteRange : Bytes) : CdnAct → List XorbResult
  | .tryAcquire => []
  | .pull up => (up.cdnGet byteRange).1.toList

def RaceAct.brings (byteRange : Bytes) : RaceAct → List XorbResult
  | .peer ex => (peerGet byteRange ex).toList
  | .cdn a => a.brings byteRange
  | _ => []

section Steps

variable {cfg : Config} {cancelled : Bool} {byteRange : Bytes}

theorem CdnSide.step_results {slots : Option ℕ} {sem sem' : Sem} {c c' : CdnSide} {a : CdnAct}
    (h : c.step slots cancelled byteRange sem a = some (sem', c')) :
    c'.results ⊆ c.results ++ a.brings byteRange := by
  revert h
  fun_cases CdnSide.step slots cancelled byteRange sem c a
  all_goals
    intro h
    cases h
  all_goals simp [CdnSide.results, CdnAct.brings]

/-- A race returns only what a peer exchange or a CDN pull of its own brought. -/
theorem Race.step_results {hub hub' : Hub} {r : Race} {a : RaceAct} {next : RaceNext}
    (h : r.step cfg cancelled byteRange hub a = some (hub', next)) :
    next.results ⊆ r.results ++ a.brings byteRange := by
  revert h
  fun_cases Race.step cfg cancelled byteRange hub r a
  case case7 p c a sem c' hc =>
    intro h
    cases h
    have := CdnSide.step_results hc
    simp only [RaceNext.results, Race.results, RaceAct.brings, List.append_assoc]
    exact List.append_subset.mpr ⟨List.subset_append_left _ _,
      List.Subset.trans this (List.subset_append_right _ _)⟩
  case case9 c a sem c' hc =>
    intro h
    cases h
    exact CdnSide.step_results hc
  all_goals
    intro h
    cases h
  all_goals
    simp [RaceNext.results, Race.results, PeerSide.results, CdnSide.results, RaceAct.brings,
      Function.comp_def]

/-! ### The end of a race -/

/-- The steps a goroutine has left. -/
def PeerSide.rank : PeerSide → ℕ
  | .running => 1
  | .sent _ => 0

def CdnSide.rank : CdnSide → ℕ
  | .starting => 2
  | .fetching => 1
  | .sent _ _ => 0

/-- A bound on the steps a race has left. -/
def Race.rank : Race → ℕ
  | .headStart p => p.rank + 4
  | .hedged p c => p.rank + c.rank + 1
  | .awaitCdn c => c.rank
  | .awaitPeer p => p.rank

theorem CdnSide.step_rank {slots : Option ℕ} {sem sem' : Sem} {c c' : CdnSide} {a : CdnAct}
    (h : c.step slots cancelled byteRange sem a = some (sem', c')) : c'.rank < c.rank := by
  revert h
  fun_cases CdnSide.step slots cancelled byteRange sem c a
  all_goals
    intro h
    cases h
  all_goals simp [CdnSide.rank]

theorem Race.step_rank {hub hub' : Hub} {r r' : Race} {a : RaceAct}
    (h : r.step cfg cancelled byteRange hub a = some (hub', .go r')) : r'.rank < r.rank := by
  revert h
  fun_cases Race.step cfg cancelled byteRange hub r a
  case case7 p c a sem c' hc =>
    intro h
    cases h
    have := CdnSide.step_rank hc
    simp only [Race.rank]
    omega
  case case9 c a sem c' hc =>
    intro h
    cases h
    exact CdnSide.step_rank hc
  all_goals
    intro h
    cases h
  all_goals simp [Race.rank, PeerSide.rank, CdnSide.rank]

theorem CdnSide.progress (c : CdnSide) (hc : c.rank ≠ 0) (slots : Option ℕ) (sem : Sem) :
    ∃ a sem' c', c.step slots cancelled byteRange sem a = some (sem', c') := by
  cases c with
  | starting =>
    refine ⟨.tryAcquire, ?_⟩
    cases hs : sem.trySend slots <;> simp [CdnSide.step, hs]
  | fetching => exact ⟨.pull ⟨none, none, fun _ _ _ => .failed⟩, by simp [CdnSide.step]⟩
  | sent res n => exact absurd rfl hc

/-- A race is never stuck: whatever it waits for, some goroutine will send. -/
theorem Race.progress (r : Race) (hub : Hub) :
    ∃ a hub' next, r.step cfg cancelled byteRange hub a = some (hub', next) := by
  cases r with
  | headStart p => exact ⟨.timer, _, _, by rw [Race.step]⟩
  | hedged p c =>
    cases p with
    | running => exact ⟨.peer .failed, _, _, by rw [Race.step]⟩
    | sent o => cases o <;> exact ⟨.recvPeer, _, _, by rw [Race.step]⟩
  | awaitCdn c =>
    by_cases hc : c.rank = 0
    · cases c with
      | starting => cases hc
      | fetching => cases hc
      | sent o n => exact ⟨.recvCdn, _, _, by rw [Race.step]⟩
    · obtain ⟨a, sem', c', hstep⟩ : ∃ a sem' c',
          c.step cfg.slots cancelled byteRange hub.sem a = some (sem', c') :=
        c.progress hc cfg.slots hub.sem
      exact ⟨.cdn a, _, _, by rw [Race.step, hstep]⟩
  | awaitPeer p =>
    cases p with
    | running => exact ⟨.peer .failed, _, _, by rw [Race.step]⟩
    | sent o => exact ⟨.recvPeer, _, _, by rw [Race.step]⟩

/-! ### What a race does to the shared state -/

theorem CdnSide.step_sem (t : Tid) {slots : Option ℕ} {sem sem' : Sem} {c c' : CdnSide}
    {a : CdnAct} (h : c.step slots cancelled byteRange sem a = some (sem', c')) :
    Sem.Op slots t sem sem' := by
  revert h
  fun_cases CdnSide.step slots cancelled byteRange sem c a
  case case2 sem' hs =>
    intro h
    cases h
    exact .sent hs
  case case3 up hup =>
    intro h
    cases h
    exact .released sem
  all_goals
    intro h
    cases h
  exact .idle sem

/-- A race books no fill. -/
theorem Race.step_hub (t : Tid) {hub hub' : Hub} {r : Race} {a : RaceAct} {next : RaceNext}
    (h : r.step cfg cancelled byteRange hub a = some (hub', next)) :
    Sem.Op cfg.slots t hub.sem hub'.sem ∧ hub'.metrics.ledger = hub.metrics.ledger := by
  revert h
  fun_cases Race.step cfg cancelled byteRange hub r a
  case case7 p c a sem c' hc =>
    intro h
    cases h
    exact ⟨CdnSide.step_sem t hc, rfl⟩
  case case9 c a sem c' hc =>
    intro h
    cases h
    exact ⟨CdnSide.step_sem t hc, rfl⟩
  all_goals
    intro h
    cases h
  all_goals exact ⟨.idle _, rfl⟩

end Steps

end XetDcCache
