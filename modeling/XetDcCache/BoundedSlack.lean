/-
How long a miss takes on a healthy CDN (peer_hedge.go, peer_fetch.go, peers.go).

A `Setup` is all a request depends on: the `PEERS` list, the samples of the hedge delay, the
probe timeout, and a CDN that serves every fetch `cdnMs` after its start.  `Setup.step` is
`Fetch.step` on a clock.  The timers fire on time, no time passes while the request has a step of
its own to take, and the peers answer whenever they like, or never.

* `delay_le` — no head start is longer than `PEER_HEDGE_MAX_MS`;
* `urgent_iff` — the clock waits exactly for the steps of the request;
* `bounded_slack_iff` — when a request is sure to be filled within the probe timeout,
  `PEER_HEDGE_MAX_MS` and one CDN fetch.
-/
import XetDcCache.PeerFetch
import XetDcCache.PeerStats
import XetDcCache.Transition

namespace XetDcCache

open Transition

/-! ### The clock -/

/-- `early` says how long after its start the GET to the sticky peer may fail, if that is before
the hedge. -/
structure Setup where
  cfg : Config
  uncapped : cfg.slots = none
  byteRange : Bytes
  ewma : Url → Option ℚ
  hedgeFactor : ℚ
  hedgeMinMs : ℕ
  hedgeMaxMs : ℕ
  probeTimeout : ℕ
  cdnMs : ℕ
  early : ℕ → Bool

/-- `since` is when the race, the probe or the CDN fetch that runs was started. -/
structure Timed where
  now : ℕ
  since : ℕ
  hub : Hub
  stage : FetchNext

inductive TimedAct
  | tick
  | act (a : FetchAct)

/-- It starts a race, a probe or a CDN fetch. -/
def FetchAct.starts : FetchAct → Bool
  | .begin _ | .settle _ | .found | .acquire | .race (.cdn .tryAcquire) => true
  | _ => false

/-- It is the answer of a peer. -/
def FetchAct.outside : FetchAct → Bool
  | .race (.peer _) | .head _ _ => true
  | _ => false

namespace Setup

/-- The head start of a peer.  No sample is added before the last race of the request. -/
def delay (S : Setup) (base : Url) : ℕ :=
  hedgeDelay (S.ewma base) (rangeSize S.byteRange).toInt S.hedgeFactor S.hedgeMinMs S.hedgeMaxMs

/-- It is time for this step, and the CDN succeeds. -/
def due (S : Setup) (s : Timed) : Fetch → FetchAct → Bool
  | _, .begin t | _, .settle t => t = s.now
  | .racing _ base _, .race .timer => s.since + S.delay base ≤ s.now
  | .racing .sticky _ (.headStart _), .race (.peer ex) =>
    (peerGet S.byteRange ex).isSome || S.early (s.now - s.since)
  | _, .race (.cdn (.pull up)) | _, .pull up =>
    s.since + S.cdnMs ≤ s.now && (up.plainFetch S.byteRange).isOk
  | _, .timeout => s.since + S.probeTimeout ≤ s.now
  | _, _ => true

/-- The request has a step to take without its peers. -/
def urgent (S : Setup) (s : Timed) : Fetch → Bool
  | .enter | .settle _ _ _ | .acquire => true
  | .racing _ base (.headStart .running) => s.since + S.delay base ≤ s.now
  | .racing _ _ (.hedged .running .fetching) | .racing _ _ (.awaitCdn .fetching) | .pulling =>
    s.since + S.cdnMs ≤ s.now
  | .racing _ _ (.awaitPeer .running) | .blocked => false
  | .racing _ _ _ => true
  | .probing (_ :: _) [] => s.since + S.probeTimeout ≤ s.now
  | .probing _ _ => true

def step (S : Setup) (s : Timed) : TimedAct → Option Timed
  | .tick =>
    match s.stage with
    | .go f => if S.urgent s f then none else some { s with now := s.now + 1 }
    | _ => none
  | .act a =>
    match s.stage with
    | .go f =>
      if S.due s f a then
        match f.step S.cfg 0 false S.byteRange s.hub a with
        | none => none
        | some (hub, stage) =>
          some { s with since := if a.starts then s.now else s.since, hub := hub, stage := stage }
      else none
    | _ => none

end Setup

/-- The request arrives. -/
def Timed.start (now : ℕ) (hub : Hub) : Timed := ⟨now, now, hub, .go .enter⟩

/-- The request has its body, and had it in time. -/
def Timed.FilledBy (bound : ℕ) (s : Timed) : Prop :=
  (∃ src res, s.stage = .filled src res) ∧ s.now ≤ bound

namespace Setup

variable {S : Setup} {s s' : Timed} {f : Fetch}

theorem step_act {a : FetchAct} (hst : s.stage = .go f) :
    (S.step s (.act a)).isSome ↔
      S.due s f a ∧ (f.step S.cfg 0 false S.byteRange s.hub a).isSome := by
  simp only [step, hst]
  by_cases hd : S.due s f a
  · rw [if_pos hd]
    cases f.step S.cfg 0 false S.byteRange s.hub a <;> simp [hd]
  · rw [if_neg hd]
    simp [hd]

/-- A CDN that serves one byte. -/
def byte : Upstream := ⟨some [lit "u"], none, fun _ _ _ => .reply ⟨206, [], .full [7]⟩⟩

theorem cdn_pulls (S : Setup) (sem : Sem) :
    CdnSide.step S.cfg.slots false S.byteRange sem .fetching (.pull byte) =
      some (sem, .sent (some ⟨[7], []⟩) 1) := by
  have hlive : byte.cutoff = none ∨ false = true := Or.inl rfl
  rw [CdnSide.step, if_pos hlive, S.uncapped]
  rfl

theorem cdn_starts (S : Setup) (sem : Sem) :
    CdnSide.step S.cfg.slots false S.byteRange sem .starting .tryAcquire =
      some (sem, .fetching) := by
  rw [CdnSide.step, S.uncapped]
  rfl

/-- It is time for the CDN once it has taken `cdnMs`. -/
theorem due_pull {leg : Leg} {base : Url} {r : Race} (h : s.since + S.cdnMs ≤ s.now) :
    S.due s (.racing leg base r) (.race (.cdn (.pull byte))) := by
  have hdue : (decide (s.since + S.cdnMs ≤ s.now) && (byte.plainFetch S.byteRange).isOk) =
      true := by
    rw [Bool.and_eq_true]
    exact ⟨decide_eq_true h, rfl⟩
  cases leg <;> exact hdue

/-- A race that the clock waits for has a step. -/
theorem race_urgent (S : Setup) {leg : Leg} {base : Url} {r : Race}
    (h : S.urgent s (.racing leg base r)) :
    ∃ b, (FetchAct.race b).outside = false ∧ S.due s (.racing leg base r) (.race b) ∧
      (r.step S.cfg false S.byteRange s.hub b).isSome := by
  cases r with
  | headStart p =>
    cases p with
    | running => exact ⟨.timer, rfl, h, rfl⟩
    | sent o => exact ⟨.recvPeer, rfl, by cases leg <;> rfl, rfl⟩
  | hedged p c =>
    cases p with
    | sent o => exact ⟨.recvPeer, rfl, by cases leg <;> rfl, by cases o <;> rfl⟩
    | running =>
      cases c with
      | starting =>
        refine ⟨.cdn .tryAcquire, rfl, by cases leg <;> rfl, ?_⟩
        rw [Race.step, S.cdn_starts]
        rfl
      | fetching =>
        refine ⟨.cdn (.pull byte), rfl, due_pull (of_decide_eq_true h), ?_⟩
        rw [Race.step, S.cdn_pulls]
        rfl
      | sent o n => exact ⟨.recvCdn, rfl, by cases leg <;> rfl, by cases o <;> rfl⟩
  | awaitCdn c =>
    cases c with
    | starting =>
      refine ⟨.cdn .tryAcquire, rfl, by cases leg <;> rfl, ?_⟩
      rw [Race.step, S.cdn_starts]
      rfl
    | fetching =>
      refine ⟨.cdn (.pull byte), rfl, due_pull (of_decide_eq_true h), ?_⟩
      rw [Race.step, S.cdn_pulls]
      rfl
    | sent o n => exact ⟨.recvCdn, rfl, by cases leg <;> rfl, rfl⟩
  | awaitPeer p =>
    cases p with
    | running => cases leg <;> cases h
    | sent o => exact ⟨.recvPeer, rfl, by cases leg <;> rfl, rfl⟩

/-- A race that the clock does not wait for has none but its peer's. -/
theorem race_idle {leg : Leg} {base : Url} {r : Race} {b : RaceAct}
    (h : S.urgent s (.racing leg base r) = false) (hout : (FetchAct.race b).outside = false)
    (hdue : S.due s (.racing leg base r) (.race b)) :
    r.step S.cfg false S.byteRange s.hub b = none := by
  -- a CDN fetch that runs on has nothing to do yet
  have hcdn : ∀ {c : CdnAct}, b = .cdn c → ¬ s.since + S.cdnMs ≤ s.now →
      CdnSide.step S.cfg.slots false S.byteRange s.hub.sem .fetching c = none := by
    rintro c rfl hlate
    cases c with
    | tryAcquire => rfl
    | pull up =>
      have hpull : (decide (s.since + S.cdnMs ≤ s.now) && (up.plainFetch S.byteRange).isOk) =
          true := by cases leg <;> cases r <;> exact hdue
      rw [Bool.and_eq_true] at hpull
      exact absurd (of_decide_eq_true hpull.1) hlate
  cases r with
  | headStart p =>
    cases p with
    | sent o => cases h
    | running =>
      cases b with
      | peer ex => cases hout
      | timer =>
        have htimer : s.since + S.delay base ≤ s.now := of_decide_eq_true hdue
        exact absurd htimer (of_decide_eq_false h)
      | _ => rfl
  | hedged p c =>
    cases p with
    | sent o => cases h
    | running =>
      cases c with
      | fetching =>
        cases b with
        | peer ex => cases hout
        | cdn c => rw [Race.step, hcdn rfl (of_decide_eq_false h)]
        | _ => rfl
      | _ => cases h
  | awaitCdn c =>
    cases c with
    | fetching =>
      cases b with
      | cdn c => rw [Race.step, hcdn rfl (of_decide_eq_false h)]
      | _ => rfl
    | _ => cases h
  | awaitPeer p =>
    cases p with
    | sent o => cases h
    | running =>
      cases b with
      | peer ex => cases hout
      | _ => rfl

/-- The clock waits for the steps of the request, and for nothing else. -/
theorem urgent_iff (hst : s.stage = .go f) (hf : f ≠ .blocked) :
    S.urgent s f ↔ ∃ a, a.outside = false ∧ (S.step s (.act a)).isSome := by
  simp only [step_act hst]
  constructor
  · intro h
    -- what the stage waits for has come, and the step it makes of that is due
    cases f with
    | enter =>
      refine ⟨.begin s.now, rfl, by simp [due], ?_⟩
      by_cases hp : S.cfg.peers = []
      · rw [Fetch.step, if_pos hp]
        rfl
      · rw [Fetch.step, if_neg hp]
        cases s.hub.sticky.get s.now <;> rfl
    | racing leg base r =>
      obtain ⟨b, hout, hdue, hstep⟩ : ∃ b, (FetchAct.race b).outside = false ∧
          S.due s (.racing leg base r) (.race b) ∧
          (r.step S.cfg false S.byteRange s.hub b).isSome := S.race_urgent h
      refine ⟨.race b, hout, hdue, ?_⟩
      obtain ⟨⟨hub, next⟩, hr⟩ := Option.isSome_iff_exists.mp hstep
      rw [Fetch.step, hr]
      cases next <;> rfl
    | settle leg base out =>
      refine ⟨.settle s.now, rfl, by simp [due], ?_⟩
      rcases out with _ | ⟨res, src⟩ <;> cases leg <;> rfl
    | probing pending found =>
      cases found with
      | cons base rest => exact ⟨.found, rfl, by cases pending <;> rfl, by cases pending <;> rfl⟩
      | nil =>
        cases pending with
        | nil => exact ⟨.closed, rfl, rfl, rfl⟩
        | cons p ps => exact ⟨.timeout, rfl, h, rfl⟩
    | acquire =>
      refine ⟨.acquire, rfl, rfl, ?_⟩
      rw [Fetch.step, S.uncapped]
      rfl
    | blocked => exact absurd rfl hf
    | pulling =>
      have hlive : byte.cutoff = none ∨ false = true := Or.inl rfl
      refine ⟨.pull byte, rfl, ?_, ?_⟩
      · rw [due, Bool.and_eq_true]
        exact ⟨h, rfl⟩
      · rw [Fetch.step, if_pos hlive]
        rfl
  · rintro ⟨a, hout, hdue, hstep⟩
    by_contra hno
    have hidle : S.urgent s f = false := eq_false_of_ne_true hno
    -- only a race, a probe and a pull ever wait, and then each of their steps is from outside
    cases f with
    | racing leg base r =>
      cases a with
      | race b =>
        rw [Fetch.step, race_idle hidle hout hdue] at hstep
        cases hstep
      | _ => cases hstep
    | probing pending found =>
      cases pending with
      | nil => cases hidle
      | cons p ps =>
        cases found with
        | cons base rest => cases hidle
        | nil =>
          cases a with
          | timeout => exact absurd (of_decide_eq_true hdue) (of_decide_eq_false hidle)
          | head base ex => cases hout
          | _ => cases hstep
    | blocked => exact hf rfl
    | pulling =>
      cases a with
      | pull up =>
        rw [due, Bool.and_eq_true] at hdue
        exact absurd (of_decide_eq_true hdue.1) (of_decide_eq_false hidle)
      | _ => cases hstep
    | _ => cases hidle

/-! ### What is in time -/

/-- When a request that arrives at `t₀` is to be filled at the latest. -/
def bound (S : Setup) (t₀ : ℕ) : ℕ := t₀ + S.probeTimeout + S.hedgeMaxMs + S.cdnMs

/-- The CDN goroutine will send its result in time. -/
def CdnInTime (S : Setup) (t₀ now since : ℕ) : CdnSide → Prop
  | .starting => now + S.cdnMs ≤ S.bound t₀
  | .fetching => now ≤ since + S.cdnMs ∧ since + S.cdnMs ≤ S.bound t₀
  | .sent (some _) _ => now ≤ S.bound t₀
  | .sent none _ => False

/-- A race will return in time: in its head start there is time for a whole fetch afterwards. -/
def RaceInTime (S : Setup) (t₀ now since : ℕ) (base : Url) : Race → Prop
  | .headStart _ => now ≤ since + S.delay base ∧ since + S.delay base + S.cdnMs ≤ S.bound t₀
  | .hedged _ c | .awaitCdn c => S.CdnInTime t₀ now since c
  | .awaitPeer _ => False

/-- A race returns a body in time, or nothing. -/
def NextInTime (S : Setup) (t₀ now since : ℕ) (base : Url) : RaceNext → Prop
  | .go r => S.RaceInTime t₀ now since base r
  | .back out _ => out = none ∨ now ≤ S.bound t₀

/-- The sticky peer is raced at once, and has failed only if it may have. -/
def StickyHead (S : Setup) (t₀ now since : ℕ) (sticky : Sticky) (base : Url) : Leg → Race → Prop
  | .sticky, .headStart p =>
    since = t₀ ∧ sticky.get t₀ = some base ∧ (p = .sent none → S.early (now - t₀))
  | _, _ => True

/-- There is time left for a race that starts at `now`. -/
def RoomToRace (S : Setup) (t₀ now : ℕ) : Prop :=
  now ≤ t₀ + S.hedgeMaxMs ∧ ∀ q ∈ S.cfg.peers, now + S.delay q ≤ t₀ + S.hedgeMaxMs

def FetchInTime (S : Setup) (t₀ : ℕ) (sticky : Sticky) (s : Timed) : Fetch → Prop
  | .enter => s.now = t₀ ∧ s.hub.sticky = sticky
  | .racing leg base r =>
    S.RaceInTime t₀ s.now s.since base r ∧ S.StickyHead t₀ s.now s.since sticky base leg r
  | .settle _ _ (some _) => s.now ≤ S.bound t₀
  | .settle .sticky _ none => S.RoomToRace t₀ s.now
  | .settle .fanout _ none | .acquire => s.now + S.cdnMs ≤ S.bound t₀
  | .probing pending found => (∀ q ∈ pending ++ found, q ∈ S.cfg.peers) ∧
    s.now ≤ s.since + S.probeTimeout ∧ S.RoomToRace t₀ s.since
  | .blocked => False
  | .pulling => s.now ≤ s.since + S.cdnMs ∧ s.since + S.cdnMs ≤ S.bound t₀

/-- The invariant of a request that arrived at `t₀`. -/
def InTime (S : Setup) (t₀ : ℕ) (sticky : Sticky) (s : Timed) : Prop :=
  match s.stage with
  | .go f => S.FetchInTime t₀ sticky s f
  | .filled _ _ => s.now ≤ S.bound t₀
  | .failed _ _ => False

/-- No failure of the sticky peer leaves too little time for the race after it. -/
def Spared (S : Setup) (t₀ : ℕ) (sticky : Sticky) : Prop :=
  ∀ url ∈ sticky.get t₀, ∀ t ≤ S.delay url, S.early t →
    ∀ q ∈ S.cfg.peers, t + S.delay q ≤ S.hedgeMaxMs

theorem delay_le (S : Setup) (base : Url) : S.delay base ≤ S.hedgeMaxMs := hedgeDelay_le _ _ _ _ _

section InTime

variable {t₀ now since : ℕ} {sticky : Sticky} {base : Url} {leg : Leg} {r : Race}

theorem CdnInTime.le {c : CdnSide} (hI : S.CdnInTime t₀ now since c) : now ≤ S.bound t₀ := by
  cases c with
  | starting => exact (Nat.le_add_right _ _).trans hI
  | fetching => exact hI.1.trans hI.2
  | sent o n =>
    cases o with
    | none => exact hI.elim
    | some res => exact hI

theorem CdnInTime.step {sem sem' : Sem} {c c' : CdnSide} {b : CdnAct}
    (hI : S.CdnInTime t₀ now since c)
    (h : c.step S.cfg.slots false S.byteRange sem b = some (sem', c'))
    (hdue : ∀ up, b = .pull up → since + S.cdnMs ≤ now ∧ (up.plainFetch S.byteRange).isOk) :
    S.CdnInTime t₀ now (if (FetchAct.race (.cdn b)).starts then now else since) c' := by
  cases c with
  | starting =>
    cases b with
    | tryAcquire =>
      rw [S.cdn_starts] at h
      cases h
      exact ⟨Nat.le_add_right _ _, hI⟩
    | pull up => cases h
  | fetching =>
    cases b with
    | tryAcquire => cases h
    | pull up =>
      obtain ⟨-, hok⟩ := hdue up rfl
      rw [CdnSide.step] at h
      split at h
      · cases h
        rw [Upstream.cdnGet_fst]
        cases hres : up.plainFetch S.byteRange with
        | ok res => exact hI.1.trans hI.2
        | error e =>
          rw [hres] at hok
          cases hok
      · cases h
  | sent o n => cases h

/-- A race stays in time, and returns nothing only where its peer fails in its head start. -/
theorem RaceInTime.step {hub hub' : Hub} {b : RaceAct} {next : RaceNext}
    (hI : S.RaceInTime t₀ s.now s.since base r)
    (h : r.step S.cfg false S.byteRange hub b = some (hub', next))
    (hdue : S.due s (.racing leg base r) (.race b)) :
    S.NextInTime t₀ s.now (if (FetchAct.race b).starts then s.now else s.since) base next ∧
      (∀ orphan, next = .back none orphan → r = .headStart (.sent none)) := by
  have hcdn : ∀ c up, b = .cdn c → c = .pull up →
      s.since + S.cdnMs ≤ s.now ∧ (up.plainFetch S.byteRange).isOk := by
    rintro _ up rfl rfl
    have hpull : (decide (s.since + S.cdnMs ≤ s.now) && (up.plainFetch S.byteRange).isOk) =
        true := by cases leg <;> cases r <;> exact hdue
    rw [Bool.and_eq_true] at hpull
    exact ⟨of_decide_eq_true hpull.1, hpull.2⟩
  revert h
  fun_cases Race.step S.cfg false S.byteRange hub r b
  -- the head start
  case case1 ex =>
    intro h
    cases h
    exact ⟨hI, by rintro _ ⟨⟩⟩
  case case4 o =>
    intro h
    cases h
    cases o with
    | none => exact ⟨Or.inl rfl, fun _ _ => rfl⟩
    | some res =>
      obtain ⟨hnow, hroom⟩ := hI
      exact ⟨Or.inr (by omega), by rintro _ ⟨⟩⟩
  case case5 p =>
    intro h
    cases h
    have htimer : s.since + S.delay base ≤ s.now := by
      cases leg <;> exact of_decide_eq_true hdue
    obtain ⟨hnow, hroom⟩ := hI
    exact ⟨show s.now + S.cdnMs ≤ S.bound t₀ by omega, by rintro _ ⟨⟩⟩
  -- the CDN goroutine
  case case7 p c c' sem side hc =>
    intro h
    cases h
    exact ⟨hI.step hc fun up hup => hcdn c' up rfl hup, by rintro _ ⟨⟩⟩
  case case9 c c' sem side hc =>
    intro h
    cases h
    exact ⟨hI.step hc fun up hup => hcdn c' up rfl hup, by rintro _ ⟨⟩⟩
  -- a body is there
  case case10 res c =>
    intro h
    cases h
    exact ⟨Or.inr hI.le, by rintro _ ⟨⟩⟩
  case case13 p res n =>
    intro h
    cases h
    exact ⟨Or.inr hI, by rintro _ ⟨⟩⟩
  case case15 o n =>
    intro h
    cases h
    cases o with
    | none => exact hI.elim
    | some res => exact ⟨Or.inr hI, by rintro _ ⟨⟩⟩
  all_goals
    intro h
    cases h
  -- the peer of a hedged race fails or answers
  case case2 c ex => exact ⟨hI, by rintro _ ⟨⟩⟩
  case case11 c => exact ⟨hI, by rintro _ ⟨⟩⟩
  all_goals exact False.elim hI

/-- The head start of the sticky peer goes on until it has failed where it may. -/
theorem StickyHead.step {hub hub' : Hub} {b : RaceAct} {r' : Race}
    (hI : S.StickyHead t₀ s.now s.since sticky base leg r)
    (h : r.step S.cfg false S.byteRange hub b = some (hub', .go r'))
    (hdue : S.due s (.racing leg base r) (.race b)) :
    S.StickyHead t₀ s.now (if (FetchAct.race b).starts then s.now else s.since) sticky base leg
      r' := by
  cases leg with
  | fanout => trivial
  | sticky =>
    revert h
    fun_cases Race.step S.cfg false S.byteRange hub r b
    case case1 ex =>
      intro h
      cases h
      obtain ⟨hsince, hget, -⟩ := hI
      refine ⟨hsince, hget, fun hnone => ?_⟩
      have hfail : peerGet S.byteRange ex = none := PeerSide.sent.inj hnone
      have hmay : ((peerGet S.byteRange ex).isSome || S.early (s.now - s.since)) = true := hdue
      rwa [hfail, hsince] at hmay
    all_goals
      intro h
      cases h
    all_goals trivial

/-- A failure in the head start of the sticky peer leaves room for another race. -/
theorem Spared.room (hspared : S.Spared t₀ sticky) (hurl : sticky.get t₀ = some base)
    (hearly : S.early (now - t₀)) (hle : now ≤ t₀ + S.delay base) : S.RoomToRace t₀ now := by
  have hM := S.delay_le base
  refine ⟨by omega, fun q hq => ?_⟩
  have := hspared base hurl (now - t₀) (by omega) hearly q hq
  omega

theorem RoomToRace.probed (hroom : S.RoomToRace t₀ since) (hnow : now ≤ since + S.probeTimeout) :
    now + S.cdnMs ≤ S.bound t₀ := by
  have := hroom.1
  rw [bound]
  omega

theorem FetchInTime.step {a : FetchAct} {hub : Hub} {stage : FetchNext}
    (hspared : S.Spared t₀ sticky) (hI : S.FetchInTime t₀ sticky s f) (hdue : S.due s f a)
    (h : f.step S.cfg 0 false S.byteRange s.hub a = some (hub, stage)) :
    S.InTime t₀ sticky
      { s with since := if a.starts then s.now else s.since, hub := hub, stage := stage } := by
  revert h
  fun_cases Fetch.step S.cfg 0 false S.byteRange s.hub f a
  -- the request begins
  case case1 now hp =>
    intro h
    cases h
    obtain ⟨rfl, -⟩ := hI
    exact show s.now + S.cdnMs ≤ S.bound s.now by rw [bound]; omega
  case case2 now hp url hget =>
    intro h
    cases h
    obtain ⟨rfl, rfl⟩ := hI
    obtain rfl : now = s.now := of_decide_eq_true hdue
    have hM := S.delay_le url
    refine ⟨⟨Nat.le_add_right _ _, ?_⟩, rfl, hget, by rintro ⟨⟩⟩
    show s.now + S.delay url + S.cdnMs ≤ S.bound s.now
    rw [bound]
    omega
  case case3 now hp hget =>
    intro h
    cases h
    obtain ⟨rfl, rfl⟩ := hI
    refine ⟨fun q hq => by simpa using hq, Nat.le_add_right _ _, Nat.le_add_right _ _, ?_⟩
    exact fun q hq => Nat.add_le_add_left (S.delay_le q) _
  -- a race goes on, or is over
  case case5 leg base r b hub' r' hr =>
    intro h
    cases h
    obtain ⟨hrace, hsticky⟩ := hI
    exact ⟨(hrace.step hr hdue).1, hsticky.step hr hdue⟩
  case case6 leg base r b hub' out orphan hr =>
    intro h
    cases h
    obtain ⟨hrace, hsticky⟩ := hI
    obtain ⟨hnext, hnone⟩ := hrace.step hr hdue
    cases out with
    | some p => exact hnext.resolve_left (by rintro ⟨⟩)
    | none =>
      obtain rfl := hnone orphan rfl
      obtain ⟨hnow, hroom⟩ := hrace
      cases leg with
      | fanout => exact show s.now + S.cdnMs ≤ S.bound t₀ by omega
      | sticky =>
        obtain ⟨hsince, hget, hearly⟩ := hsticky
        exact hspared.room hget (hearly rfl) (hsince ▸ hnow)
  case case7 leg base now res src =>
    intro h
    cases h
    exact hI
  case case8 base now =>
    intro h
    cases h
    exact ⟨fun q hq => by simpa using hq, Nat.le_add_right _ _, hI⟩
  case case9 base now =>
    intro h
    cases h
    exact hI
  -- the probe
  case case10 pending found base ex hmem =>
    intro h
    cases h
    obtain ⟨hpeers, hnow, hroom⟩ := hI
    refine ⟨fun q hq => hpeers q ?_, hnow, hroom⟩
    rcases List.mem_append.mp hq with hq | hq
    · exact List.mem_append_left _ (List.mem_of_mem_erase hq)
    · split at hq
      · rcases List.mem_append.mp hq with hq | hq
        · exact List.mem_append_right _ hq
        · rw [List.mem_singleton.mp hq]
          exact List.mem_append_left _ hmem
      · exact List.mem_append_right _ hq
  case case12 pending base rest =>
    intro h
    cases h
    obtain ⟨hpeers, hnow, -, hroom⟩ := hI
    have hbase := hroom base (hpeers base (List.mem_append_right _ List.mem_cons_self))
    refine ⟨⟨Nat.le_add_right _ _, ?_⟩, trivial⟩
    show s.now + S.delay base + S.cdnMs ≤ S.bound t₀
    rw [bound]
    omega
  case case13 =>
    intro h
    cases h
    exact hI.2.2.probed hI.2.1
  case case14 pending found =>
    intro h
    cases h
    exact hI.2.2.probed hI.2.1
  -- the plain path
  case case15 sem hs =>
    intro h
    cases h
    exact ⟨Nat.le_add_right _ _, hI⟩
  case case16 hs =>
    rw [S.uncapped] at hs
    cases hs
  case case23 up hlive res hres =>
    intro h
    cases h
    exact hI.1.trans hI.2
  case case24 up hlive e hres =>
    have hok : (decide (s.since + S.cdnMs ≤ s.now) && (up.plainFetch S.byteRange).isOk) = true :=
      hdue
    rw [Bool.and_eq_true, hres] at hok
    cases hok.2
  all_goals
    intro h
    cases h
  -- the client stays connected, and no slot is waited for
  case case17 hcancel => exact absurd hcancel.1 Bool.false_ne_true
  all_goals exact False.elim hI

/-- The clock does not pass a deadline. -/
theorem FetchInTime.tick (hI : S.FetchInTime t₀ sticky s f) (hidle : S.urgent s f = false) :
    S.FetchInTime t₀ sticky { s with now := s.now + 1 } f ∧ s.now < S.bound t₀ := by
  cases f with
  | racing leg base r =>
    obtain ⟨hrace, hsticky⟩ := hI
    cases r with
    | headStart p =>
      cases p with
      | sent o => cases hidle
      | running =>
        obtain ⟨hnow, hroom⟩ := hrace
        -- the clock moves while the hedge delay runs, so the delay is not over yet
        have hlate : ¬ s.since + S.delay base ≤ s.now := of_decide_eq_false hidle
        refine ⟨⟨⟨show s.now + 1 ≤ s.since + S.delay base by omega, hroom⟩, ?_⟩, by omega⟩
        cases leg with
        | fanout => trivial
        | sticky => exact ⟨hsticky.1, hsticky.2.1, nofun⟩
    | hedged p c =>
      cases p with
      | sent o => cases hidle
      | running =>
        cases c with
        | fetching =>
          obtain ⟨hnow, hroom⟩ := hrace
          have hlate : ¬ s.since + S.cdnMs ≤ s.now := of_decide_eq_false hidle
          refine ⟨⟨⟨show s.now + 1 ≤ s.since + S.cdnMs by omega, hroom⟩, ?_⟩, by omega⟩
          cases leg <;> trivial
        | _ => cases hidle
    | awaitCdn c =>
      cases c with
      | fetching =>
        obtain ⟨hnow, hroom⟩ := hrace
        have hlate : ¬ s.since + S.cdnMs ≤ s.now := of_decide_eq_false hidle
        refine ⟨⟨⟨show s.now + 1 ≤ s.since + S.cdnMs by omega, hroom⟩, ?_⟩, by omega⟩
        cases leg <;> trivial
      | _ => cases hidle
    | awaitPeer p => exact hrace.elim
  | probing pending found =>
    obtain ⟨hpeers, hnow, hroom⟩ := hI
    cases pending with
    | nil => cases hidle
    | cons p ps =>
      cases found with
      | cons base rest => cases hidle
      | nil =>
        -- no sibling is found yet, and the clock waits for the replies no longer than the timeout
        have hlate : ¬ s.since + S.probeTimeout ≤ s.now := of_decide_eq_false hidle
        have hlast := hroom.1
        refine ⟨⟨hpeers, show s.now + 1 ≤ s.since + S.probeTimeout by omega, hroom⟩, ?_⟩
        rw [bound]
        omega
  | blocked => exact hI.elim
  | pulling =>
    obtain ⟨hnow, hroom⟩ := hI
    have hlate : ¬ s.since + S.cdnMs ≤ s.now := of_decide_eq_false hidle
    exact ⟨⟨show s.now + 1 ≤ s.since + S.cdnMs by omega, hroom⟩, by omega⟩
  | _ => cases hidle

/-- What is left: the time to the bound, and the steps the fetch has. -/
def rest (S : Setup) (t₀ : ℕ) (s : Timed) : ℕ :=
  S.bound t₀ - s.now + match s.stage with
    | .go f => f.rank S.cfg + 1
    | _ => 0

theorem InTime.step {a : TimedAct} (hspared : S.Spared t₀ sticky) (hI : S.InTime t₀ sticky s)
    (h : S.step s a = some s') : S.InTime t₀ sticky s' ∧ S.rest t₀ s' < S.rest t₀ s := by
  cases hst : s.stage with
  | filled src res => cases a <;> simp [Setup.step, hst] at h
  | failed slot e => cases a <;> simp [Setup.step, hst] at h
  | go f =>
    rw [InTime, hst] at hI
    dsimp only at hI
    cases a with
    | tick =>
      simp only [Setup.step, hst] at h
      split at h
      · cases h
      · next hno =>
        cases h
        obtain ⟨hI', hlt⟩ := hI.tick (eq_false_of_ne_true hno)
        refine ⟨hI', ?_⟩
        simp only [rest, hst]
        omega
    | act a =>
      simp only [Setup.step, hst] at h
      split at h
      · next hdue =>
        split at h
        · cases h
        · next hub stage hf =>
          cases h
          refine ⟨hI.step hspared hdue hf, ?_⟩
          cases stage with
          | go f' =>
            have hrank := Fetch.step_rank hf
            simp only [rest, hst]
            omega
          | filled src res =>
            simp only [rest, hst]
            omega
          | failed slot e =>
            simp only [rest, hst]
            omega
      · cases h

/-- The request or the clock has a step until the body is there. -/
theorem InTime.progress (hI : S.InTime t₀ sticky s) (hno : ¬ s.FilledBy (S.bound t₀)) :
    ∃ a s', S.step s a = some s' := by
  rw [InTime] at hI
  split at hI
  · next f hst =>
    by_cases hurgent : S.urgent s f
    · have hf : f ≠ .blocked := by
        rintro rfl
        exact hI
      obtain ⟨a, -, hstep⟩ := (urgent_iff hst hf).mp hurgent
      obtain ⟨s', hs'⟩ := Option.isSome_iff_exists.mp hstep
      exact ⟨.act a, s', hs'⟩
    · exact ⟨.tick, { s with now := s.now + 1 }, by simp only [Setup.step, hst, if_neg hurgent]⟩
  · next src res hst => exact absurd ⟨⟨src, res, hst⟩, hI⟩ hno
  · exact hI.elim

theorem inTime_start (S : Setup) (t₀ : ℕ) (hub : Hub) :
    S.InTime t₀ hub.sticky (.start t₀ hub) := ⟨rfl, rfl⟩

end InTime

/-- A setup that is spared fills every request in time. -/
theorem Spared.inevitable {t₀ : ℕ} {hub : Hub} (hspared : S.Spared t₀ hub.sticky) :
    Inevitable S.step (Timed.FilledBy (S.bound t₀)) (.start t₀ hub) :=
  inevitable_of_measure (S.rest t₀) (fun hI _ h => InTime.step hspared hI h)
    (fun hI hno => hI.progress hno) (S.inTime_start t₀ hub)

/-! ### The latest run -/

theorem reaches_act {a : FetchAct} {now since : ℕ} {hub hub' : Hub} {stage : FetchNext}
    (hdue : S.due ⟨now, since, hub, .go f⟩ f a)
    (h : f.step S.cfg 0 false S.byteRange hub a = some (hub', stage)) :
    Reaches S.step ⟨now, since, hub, .go f⟩
      ⟨now, if a.starts then now else since, hub', stage⟩ := by
  refine .of_step (a := .act a) ?_
  simp only [step, if_pos hdue, h]

/-- The clock runs on while the request waits. -/
theorem reaches_ticks {now since : ℕ} {hub : Hub} (n : ℕ)
    (hidle : ∀ k < n, S.urgent ⟨now + k, since, hub, .go f⟩ f = false) :
    Reaches S.step ⟨now, since, hub, .go f⟩ ⟨now + n, since, hub, .go f⟩ := by
  induction n with
  | zero => exact .refl _
  | succ n ih =>
    refine (ih fun k hk => hidle k (hk.trans n.lt_succ_self)).trans (.of_step (a := .tick) ?_)
    have hno : ¬ S.urgent ⟨now + n, since, hub, .go f⟩ f := by
      rw [hidle n n.lt_succ_self]
      exact Bool.false_ne_true
    simp only [step, if_neg hno]
    rfl

/-- The sticky peer fails `t` after its start, before the hedge, and its siblings are probed. -/
theorem reaches_probe {t₀ t : ℕ} {hub : Hub} {url : Url} (hget : hub.sticky.get t₀ = some url)
    (hne : S.cfg.peers ≠ []) (ht : t ≤ S.delay url) (hearly : S.early t) :
    ∃ hub', Reaches S.step (.start t₀ hub)
      ⟨t₀ + t, t₀ + t, hub', .go (.probing S.cfg.peers [])⟩ := by
  have hbegin : Reaches S.step (.start t₀ hub) ⟨t₀, t₀, hub, .go (.racing .sticky url .start)⟩ :=
    reaches_act (a := .begin t₀) (decide_eq_true rfl) (by rw [Fetch.step, if_neg hne, hget])
  have hwait : Reaches S.step ⟨t₀, t₀, hub, .go (.racing .sticky url .start)⟩
      ⟨t₀ + t, t₀, hub, .go (.racing .sticky url .start)⟩ :=
    reaches_ticks t fun k hk => decide_eq_false (by dsimp only; omega)
  have hfail : Reaches S.step ⟨t₀ + t, t₀, hub, .go (.racing .sticky url .start)⟩
      ⟨t₀ + t, t₀, hub, .go (.racing .sticky url (.headStart (.sent none)))⟩ := by
    refine reaches_act (a := .race (.peer .failed)) ?_ rfl
    show S.early (t₀ + t - t₀) = true
    rwa [Nat.add_sub_cancel_left]
  have hback : Reaches S.step ⟨t₀ + t, t₀, hub, .go (.racing .sticky url (.headStart (.sent none)))⟩
      ⟨t₀ + t, t₀, { hub with orphans := hub.orphans ++ [] }, .go (.settle .sticky url none)⟩ :=
    reaches_act (a := .race .recvPeer) rfl rfl
  obtain ⟨hub', hclear⟩ : ∃ hub', Reaches S.step
      ⟨t₀ + t, t₀, { hub with orphans := hub.orphans ++ [] }, .go (.settle .sticky url none)⟩
      ⟨t₀ + t, t₀ + t, hub', .go (.probing S.cfg.peers [])⟩ :=
    ⟨_, reaches_act (a := .settle (t₀ + t)) (decide_eq_true rfl) rfl⟩
  exact ⟨hub', hbegin.trans (hwait.trans (hfail.trans (hback.trans hclear)))⟩

/-- A sibling has the range, and says so when the probe is about to time out. -/
theorem reaches_found {now : ℕ} {hub : Hub} {q : Url} (hq : q ∈ S.cfg.peers) :
    Reaches S.step ⟨now, now, hub, .go (.probing S.cfg.peers [])⟩
      ⟨now + S.probeTimeout, now + S.probeTimeout, hub, .go (.racing .fanout q .start)⟩ := by
  have hwait : Reaches S.step ⟨now, now, hub, .go (.probing S.cfg.peers [])⟩
      ⟨now + S.probeTimeout, now, hub, .go (.probing S.cfg.peers [])⟩ := by
    refine reaches_ticks S.probeTimeout fun k hk => ?_
    cases hpeers : S.cfg.peers with
    | nil =>
      rw [hpeers] at hq
      cases hq
    | cons p ps => exact decide_eq_false (by dsimp only; omega)
  have hhead : Reaches S.step ⟨now + S.probeTimeout, now, hub, .go (.probing S.cfg.peers [])⟩
      ⟨now + S.probeTimeout, now, hub, .go (.probing (S.cfg.peers.erase q) [q])⟩ := by
    refine reaches_act (a := .head q (.reply ⟨200, [], .full []⟩)) ?_ ?_
    · cases S.cfg.peers <;> rfl
    · rw [Fetch.step, if_pos hq]
      rfl
  have hfound : Reaches S.step
      ⟨now + S.probeTimeout, now, hub, .go (.probing (S.cfg.peers.erase q) [q])⟩
      ⟨now + S.probeTimeout, now + S.probeTimeout, hub, .go (.racing .fanout q .start)⟩ := by
    refine reaches_act (a := .found) ?_ ?_
    · cases S.cfg.peers.erase q <;> rfl
    · cases S.cfg.peers.erase q <;> rfl
  exact hwait.trans (hhead.trans hfound)

theorem reaches_race {leg : Leg} {base : Url} {r r' : Race} {b : RaceAct} {now since : ℕ}
    {hub hub' : Hub}
    (hdue : S.due ⟨now, since, hub, .go (.racing leg base r)⟩ (.racing leg base r) (.race b))
    (h : r.step S.cfg false S.byteRange hub b = some (hub', .go r')) :
    Reaches S.step ⟨now, since, hub, .go (.racing leg base r)⟩
      ⟨now, if (FetchAct.race b).starts then now else since, hub', .go (.racing leg base r')⟩ :=
  reaches_act hdue (by rw [Fetch.step, h])

/-- A peer stalls, and the CDN has to be waited for. -/
theorem reaches_filled (now : ℕ) (hub : Hub) (leg : Leg) (q : Url) :
    ∃ s', Reaches S.step ⟨now, now, hub, .go (.racing leg q .start)⟩ s' ∧
      (∃ src res, s'.stage = .filled src res) ∧ s'.now = now + S.delay q + S.cdnMs := by
  have hwait : Reaches S.step ⟨now, now, hub, .go (.racing leg q .start)⟩
      ⟨now + S.delay q, now, hub, .go (.racing leg q .start)⟩ :=
    reaches_ticks (S.delay q) fun k hk => decide_eq_false (by dsimp only; omega)
  obtain ⟨hub₁, htimer⟩ : ∃ hub₁, Reaches S.step
      ⟨now + S.delay q, now, hub, .go (.racing leg q .start)⟩
      ⟨now + S.delay q, now, hub₁, .go (.racing leg q (.hedged .running .starting))⟩ :=
    ⟨_, reaches_race (b := .timer) (by cases leg <;> exact decide_eq_true le_rfl) rfl⟩
  have hstart : Reaches S.step
      ⟨now + S.delay q, now, hub₁, .go (.racing leg q (.hedged .running .starting))⟩
      ⟨now + S.delay q, now + S.delay q, hub₁, .go (.racing leg q (.hedged .running .fetching))⟩ :=
    reaches_race (b := .cdn .tryAcquire) (by cases leg <;> rfl) (by rw [Race.step, S.cdn_starts])
  have hfetch : Reaches S.step
      ⟨now + S.delay q, now + S.delay q, hub₁, .go (.racing leg q (.hedged .running .fetching))⟩
      ⟨now + S.delay q + S.cdnMs, now + S.delay q, hub₁,
        .go (.racing leg q (.hedged .running .fetching))⟩ :=
    reaches_ticks S.cdnMs fun k hk => decide_eq_false (by dsimp only; omega)
  have hpull : Reaches S.step
      ⟨now + S.delay q + S.cdnMs, now + S.delay q, hub₁,
        .go (.racing leg q (.hedged .running .fetching))⟩
      ⟨now + S.delay q + S.cdnMs, now + S.delay q, hub₁,
        .go (.racing leg q (.hedged .running (.sent (some ⟨[7], []⟩) 1)))⟩ :=
    reaches_race (b := .cdn (.pull byte)) (due_pull le_rfl) (by rw [Race.step, S.cdn_pulls])
  obtain ⟨hub₂, hback⟩ : ∃ hub₂, Reaches S.step
      ⟨now + S.delay q + S.cdnMs, now + S.delay q, hub₁,
        .go (.racing leg q (.hedged .running (.sent (some ⟨[7], []⟩) 1)))⟩
      ⟨now + S.delay q + S.cdnMs, now + S.delay q, hub₂,
        .go (.settle leg q (some (⟨[7], []⟩, .srcCDN)))⟩ :=
    ⟨_, reaches_act (a := .race .recvCdn) (by cases leg <;> rfl) rfl⟩
  obtain ⟨since, hub₃, src, res, hfill⟩ : ∃ since hub₃ src res, Reaches S.step
      ⟨now + S.delay q + S.cdnMs, now + S.delay q, hub₂,
        .go (.settle leg q (some (⟨[7], []⟩, .srcCDN)))⟩
      ⟨now + S.delay q + S.cdnMs, since, hub₃, .filled src res⟩ :=
    ⟨_, _, _, _, reaches_act (a := .settle (now + S.delay q + S.cdnMs)) (decide_eq_true rfl) rfl⟩
  exact ⟨_, hwait.trans (htimer.trans (hstart.trans (hfetch.trans (hpull.trans (hback.trans
    hfill))))), ⟨src, res, rfl⟩, rfl⟩

/-- A request that is filled takes no step. -/
theorem step_filled {src : FillSource} {res : XorbResult} (hst : s.stage = .filled src res)
    (a : TimedAct) : S.step s a = none := by
  cases a <;> simp only [step, hst]

/-- The latest run: the sticky peer fails, a sibling is found at the last moment and stalls. -/
theorem reaches_late {t₀ t : ℕ} {hub : Hub} {url q : Url} (hget : hub.sticky.get t₀ = some url)
    (ht : t ≤ S.delay url) (hearly : S.early t) (hq : q ∈ S.cfg.peers) :
    ∃ s', Reaches S.step (.start t₀ hub) s' ∧ (∃ src res, s'.stage = .filled src res) ∧
      s'.now = t₀ + t + S.probeTimeout + S.delay q + S.cdnMs := by
  obtain ⟨hub', hprobe⟩ := reaches_probe hget (List.ne_nil_of_mem hq) ht hearly
  obtain ⟨s', hrace, hfilled, hnow⟩ := S.reaches_filled (t₀ + t + S.probeTimeout) hub' .fanout q
  exact ⟨s', hprobe.trans ((reaches_found hq).trans hrace), hfilled, hnow⟩

/-- Where one failure leaves too little time, the request can be late. -/
theorem spared_of_inevitable {t₀ : ℕ} {hub : Hub}
    (h : Inevitable S.step (Timed.FilledBy (S.bound t₀)) (.start t₀ hub)) :
    S.Spared t₀ hub.sticky := by
  intro url hget t ht hearly q hq
  obtain ⟨s', hreach, ⟨src, res, hst⟩, hnow⟩ := reaches_late hget ht hearly hq
  have hfinal : ∀ {u : Timed} {a : TimedAct}, u.FilledBy (S.bound t₀) → S.step u a = none := by
    rintro u a ⟨⟨src, res, hu⟩, -⟩
    exact step_filled hu a
  have hend := h.reaches hfinal hreach
  have hintime := (hend.of_stuck (step_filled hst)).2
  rw [hnow, bound] at hintime
  omega

end Setup

/-- **Bounded slack while the CDN is healthy.**  A request that misses on disk is filled within the
probe timeout, `PEER_HEDGE_MAX_MS` and one CDN fetch, whatever its peers do and in whatever order,
exactly if the sticky peer cannot fail in its head start so late that the head start of a sibling
ends beyond `PEER_HEDGE_MAX_MS`. -/
theorem bounded_slack_iff (S : Setup) (t₀ : ℕ) (hub : Hub) :
    Inevitable S.step (Timed.FilledBy (t₀ + S.probeTimeout + S.hedgeMaxMs + S.cdnMs))
        (.start t₀ hub) ↔
      ∀ url ∈ hub.sticky.get t₀, ∀ t ≤ S.delay url, S.early t →
        ∀ q ∈ S.cfg.peers, t + S.delay q ≤ S.hedgeMaxMs :=
  ⟨fun h => Setup.spared_of_inevitable h, fun h => Setup.Spared.inevitable h⟩

/-- The sticky peer, of which there is no sample, fails a millisecond before the hedge. -/
def Setup.lateFailure : Setup where
  cfg := ⟨[lit "a"], none, 60000, 0, 0, true, id⟩
  uncapped := rfl
  byteRange := lit "bytes=0-0"
  ewma _ := none
  hedgeFactor := 3 / 2
  hedgeMinMs := 50
  hedgeMaxMs := 1000
  probeTimeout := 200
  cdnMs := 100
  early t := t = 999

/-- It is raced again after the probe, and the body comes at 2299 ms instead of 1300. -/
theorem early_failure_late :
    ∃ hub : Hub, hub.sticky = .set (lit "a") 0 60000 ∧
      (∃ s, Reaches Setup.lateFailure.step (.start 0 hub) s ∧
        (∃ src res, s.stage = .filled src res) ∧ s.now = 2299) ∧
      ¬ Inevitable Setup.lateFailure.step (Timed.FilledBy (0 + 200 + 1000 + 100))
        (.start 0 hub) := by
  have hget : (Sticky.set (lit "a") 0 60000).get 0 = some (lit "a") := by decide
  have hpeer : lit "a" ∈ Setup.lateFailure.cfg.peers := List.mem_singleton_self _
  have hearly : Setup.lateFailure.early 999 := rfl
  refine ⟨⟨.empty, .set (lit "a") 0 60000, .zero, []⟩, rfl,
    Setup.reaches_late hget (show 999 ≤ 1000 by omega) hearly hpeer, fun h => ?_⟩
  have hspared := Setup.spared_of_inevitable h (lit "a") hget 999 (show 999 ≤ 1000 by omega) hearly
    (lit "a") hpeer
  exact absurd hspared (show ¬ 999 + 1000 ≤ 1000 by omega)

end XetDcCache
