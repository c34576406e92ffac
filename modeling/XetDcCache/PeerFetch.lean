/-
The miss path up to a body (peer_fetch.go, and the plain path of getXorb).

`Fetch` is where the flight closure of `getXorb` is between its start and the
body it will cache: in one of the races of `fetchFromPeer`, in the fan-out probe, or
on the plain path with its fetch slot.  `Fetch.step` is one step of it.

* `Fetch.step_results` — a fetch is filled only with a body one of its own
  exchanges brought;
* `Fetch.step_rank`, `Fetch.progress` — it takes finitely many steps, and only a fetch
  in the queue of the semaphore can be without one;
* `Fetch.step_ledger` — nothing is booked but the win of a race;
* `Fetch.step_failed` — it fails only if its request is cancelled while it waits for a
  slot, or if its own pull fails.
-/
import XetDcCache.Hedge

namespace XetDcCache

/-- The two races of `fetchFromPeer`. -/
inductive Leg
  | sticky
  | fanout
deriving DecidableEq, Repr

/-- Which branch of `getXorb` caches a body: the plain path, or the side of a race. -/
inductive FillSource
  | plain
  | race (src : HedgeSource)
deriving DecidableEq, Repr

/-- `enter` is the start of the closure; `settle` is after a race returned; `probing`
holds the peers whose HEAD has not ended and the channel `found`; `blocked` is the
wait for a slot. -/
inductive Fetch
  | enter
  | racing (leg : Leg) (base : Url) (race : Race)
  | settle (leg : Leg) (base : Url) (out : RaceResult)
  | probing (pending found : List Url)
  | acquire
  | blocked
  | pulling
deriving DecidableEq, Repr

/-- `begin` and `settle` carry the clock; `timeout` is `pctx.Done()`, `ctxDone` the
request's own context in `acquire`. -/
inductive FetchAct
  | begin (now : ℕ)
  | race (a : RaceAct)
  | settle (now : ℕ)
  | head (base : Url) (ex : Exchange)
  | found
  | closed
  | timeout
  | acquire
  | ctxDone
  | grant
  | pull (up : Upstream)

/-- The fetch goes on, has a body to cache, or fails; a failure on the plain path
still holds its slot. -/
inductive FetchNext
  | go (f : Fetch)
  | filled (src : FillSource) (res : XorbResult)
  | failed (slot : Bool) (e : HttpError)

/-- `acquire` on a cancelled context. -/
def busy : HttpError := ⟨503, lit "server busy (fetch cap reached): context canceled"⟩

namespace Fetch

def step (cfg : Config) (t : Tid) (cancelled : Bool) (byteRange : Bytes) (hub : Hub) :
    Fetch → FetchAct → Option (Hub × FetchNext)
  -- fetchFromPeer
  | .enter, .begin now =>
    if cfg.peers = [] then some (hub, .go .acquire)
    else
      match hub.sticky.get now with
      | some url => some (hub, .go (.racing .sticky url .start))
      | none => some (hub, .go (.probing cfg.peers []))
  | .racing leg base r, .race a =>
    match r.step cfg cancelled byteRange hub a with
    | none => none
    | some (hub', .go r') => some (hub', .go (.racing leg base r'))
    | some (hub', .back out orphan) =>
      some ({ hub' with orphans := hub'.orphans ++ (orphan.map (byteRange, ·)).toList },
        .go (.settle leg base out))
  | .settle _ base (some (res, src)), .settle now =>
    some ({ hub with
      sticky := hub.sticky.update base now cfg.stickyTTL src
      metrics := hub.metrics.recordRaceWin res src }, .filled (.race src) res)
  | .settle .sticky _ none, .settle _ =>
    some ({ hub with sticky := hub.sticky.clear }, .go (.probing cfg.peers []))
  | .settle .fanout _ none, .settle _ =>
    some ({ hub with metrics := { hub.metrics with peerMisses := hub.metrics.peerMisses + 1 } },
      .go .acquire)
  -- fanoutProbe
  | .probing pending found, .head base ex =>
    if base ∈ pending then
      some (hub, .go (.probing (pending.erase base)
        (if headProbe ex then found ++ [base] else found)))
    else none
  | .probing _ (base :: _), .found => some (hub, .go (.racing .fanout base .start))
  | .probing [] [], .closed =>
    some ({ hub with metrics := { hub.metrics with peerMisses := hub.metrics.peerMisses + 1 } },
      .go .acquire)
  | .probing _ _, .timeout =>
    some ({ hub with
      metrics := { hub.metrics with
        peerProbeTimeouts := hub.metrics.peerProbeTimeouts + 1
        peerMisses := hub.metrics.peerMisses + 1 } }, .go .acquire)
  -- the plain path
  | .acquire, .acquire =>
    match hub.sem.trySend cfg.slots with
    | some sem => some ({ hub with sem := sem }, .go .pulling)
    | none => some ({ hub with sem := hub.sem.enqueue t }, .go .blocked)
  | .acquire, .ctxDone =>
    if cancelled ∧ cfg.slots ≠ none then some (hub, .failed false busy) else none
  | .blocked, .grant =>
    if t ∈ hub.sem.granted then some ({ hub with sem := hub.sem.take t }, .go .pulling) else none
  | .blocked, .ctxDone =>
    if cancelled ∧ t ∈ hub.sem.waitq then
      some ({ hub with sem := hub.sem.cancel t }, .failed false busy)
    else none
  | .pulling, .pull up =>
    if up.cutoff = none ∨ cancelled then
      match up.plainFetch byteRange with
      | .ok res => some (hub, .filled .plain res)
      | .error e => some (hub, .failed true e)
    else none
  | _, _ => none

end Fetch

variable {cfg : Config} {t : Tid} {cancelled : Bool} {byteRange : Bytes} {hub hub' : Hub}
  {f f' : Fetch} {a : FetchAct} {next : FetchNext}

/-! ### What a fetch is filled with -/

/-- The results a fetch holds. -/
def Fetch.results : Fetch → List XorbResult
  | .racing _ _ r => r.results
  | .settle _ _ out => (out.map Prod.fst).toList
  | _ => []

def FetchNext.results : FetchNext → List XorbResult
  | .go f => f.results
  | .filled _ res => [res]
  | .failed _ _ => []

/-- The result an action brings in from outside. -/
def FetchAct.brings (byteRange : Bytes) : FetchAct → List XorbResult
  | .race a => a.brings byteRange
  | .pull up => (up.plainFetch byteRange).toOption.toList
  | _ => []

theorem Fetch.step_results (h : f.step cfg t cancelled byteRange hub a = some (hub', next)) :
    next.results ⊆ f.results ++ a.brings byteRange := by
  revert h
  fun_cases Fetch.step cfg t cancelled byteRange hub f a
  case case5 leg base r a hub' r' hr =>
    intro h
    cases h
    exact Race.step_results hr
  case case6 leg base r a hub' out orphan hr =>
    intro h
    cases h
    exact Race.step_results hr
  all_goals
    intro h
    cases h
  all_goals
    simp_all [FetchNext.results, Fetch.results, FetchAct.brings, Race.start, Race.results,
      PeerSide.results, Except.toOption]

/-! ### The end of a fetch -/

/-- A bound on the steps a fetch has left. -/
def Fetch.rank (cfg : Config) : Fetch → ℕ
  | .pulling => 1
  | .blocked => 2
  | .acquire => 3
  | .settle .fanout _ _ => 4
  | .racing .fanout _ r => 5 + r.rank
  | .probing pending _ => 11 + pending.length
  | .settle .sticky _ _ => 12 + cfg.peers.length
  | .racing .sticky _ r => 13 + cfg.peers.length + r.rank
  | .enter => 19 + cfg.peers.length

theorem Fetch.step_rank (h : f.step cfg t cancelled byteRange hub a = some (hub', .go f')) :
    f'.rank cfg < f.rank cfg := by
  revert h
  fun_cases Fetch.step cfg t cancelled byteRange hub f a
  case case5 leg base r a hub' r' hr =>
    intro h
    cases h
    have := Race.step_rank hr
    cases leg <;> simp only [Fetch.rank] <;> omega
  case case6 leg base r a hub' out orphan hr =>
    intro h
    cases h
    cases leg <;> simp only [Fetch.rank] <;> omega
  case case10 pending found base ex hmem =>
    intro h
    cases h
    have := List.length_pos_of_mem hmem
    simp only [Fetch.rank, List.length_erase_of_mem hmem]
    omega
  all_goals
    intro h
    cases h
  all_goals
    simp only [Fetch.rank, Race.rank, Race.start, PeerSide.rank]
    omega

/-- A fetch has a step to take unless it waits for a slot it was not handed. -/
theorem Fetch.progress (f : Fetch) (hub : Hub) (hf : f = .blocked → t ∈ hub.sem.granted) :
    ∃ a hub' next, f.step cfg t cancelled byteRange hub a = some (hub', next) := by
  cases f with
  | enter =>
    refine ⟨.begin 0, ?_⟩
    by_cases hp : cfg.peers = []
    · exact ⟨_, _, by rw [Fetch.step, if_pos hp]⟩
    · cases hs : hub.sticky.get 0 <;> simp [Fetch.step, if_neg hp, hs]
  | racing leg base r =>
    obtain ⟨a, hub', next, hstep⟩ : ∃ a hub' next,
        r.step cfg cancelled byteRange hub a = some (hub', next) := r.progress hub
    cases next <;> exact ⟨.race a, _, _, by rw [Fetch.step, hstep]⟩
  | settle leg base out =>
    rcases out with _ | ⟨res, src⟩
    · cases leg <;> exact ⟨.settle 0, _, _, by rw [Fetch.step]⟩
    · exact ⟨.settle 0, _, _, by rw [Fetch.step]⟩
  | probing pending found => exact ⟨.timeout, _, _, by rw [Fetch.step]⟩
  | acquire =>
    refine ⟨.acquire, ?_⟩
    cases hs : hub.sem.trySend cfg.slots <;> simp [Fetch.step, hs]
  | blocked => exact ⟨.grant, _, _, by rw [Fetch.step, if_pos (hf rfl)]⟩
  | pulling =>
    refine ⟨.pull ⟨none, none, fun _ _ _ => .failed⟩, ?_⟩
    simp [Fetch.step, Upstream.plainFetch, Upstream.fetchAuthorized]

/-! ### What a fetch does to the shared state -/

/-- The ledger after a step: the win of a race is booked as its body is handed on,
nothing else is. -/
def FetchNext.books (m : Metrics) : FetchNext → Metrics.Ledger
  | .filled (.race src) res => (m.recordRaceWin res src).ledger
  | _ => m.ledger

/-- A fetch books no miss and serves nothing. -/
theorem FetchNext.books_fixed (m : Metrics) (next : FetchNext) :
    (next.books m).misses = m.misses ∧ (next.books m).servedBytes = m.servedBytes := by
  rcases next with _ | ⟨_ | src, res⟩ | _
  · exact ⟨rfl, rfl⟩
  · exact ⟨rfl, rfl⟩
  · cases src <;> exact ⟨rfl, rfl⟩
  · exact ⟨rfl, rfl⟩

theorem Fetch.step_ledger (h : f.step cfg t cancelled byteRange hub a = some (hub', next)) :
    hub'.metrics.ledger = next.books hub.metrics := by
  revert h
  fun_cases Fetch.step cfg t cancelled byteRange hub f a
  case case5 leg base r a hub' r' hr =>
    intro h
    cases h
    exact (Race.step_hub t hr).2
  case case6 leg base r a hub' out orphan hr =>
    intro h
    cases h
    exact (Race.step_hub t hr).2
  all_goals
    intro h
    cases h
  all_goals rfl

theorem Fetch.step_sem (h : f.step cfg t cancelled byteRange hub a = some (hub', next)) :
    Sem.Op cfg.slots t hub.sem hub'.sem := by
  revert h
  fun_cases Fetch.step cfg t cancelled byteRange hub f a
  case case5 leg base r a hub' r' hr =>
    intro h
    cases h
    exact (Race.step_hub t hr).1
  case case6 leg base r a hub' out orphan hr =>
    intro h
    cases h
    exact (Race.step_hub t hr).1
  all_goals
    intro h
    cases h
  all_goals
    first
    | exact .idle _
    | exact .sent ‹_›
    | exact .queued _
    | exact .took _
    | exact .left _

theorem Fetch.step_misses (h : f.step cfg t cancelled byteRange hub a = some (hub', next)) :
    hub'.metrics.misses = hub.metrics.misses := by
  have := congrArg Metrics.Ledger.misses (Fetch.step_ledger h)
  rwa [(FetchNext.books_fixed _ _).1] at this

theorem Fetch.step_servedBytes
    (h : f.step cfg t cancelled byteRange hub a = some (hub', next)) :
    hub'.metrics.servedBytes = hub.metrics.servedBytes := by
  have := congrArg Metrics.Ledger.servedBytes (Fetch.step_ledger h)
  rwa [(FetchNext.books_fixed _ _).2] at this

/-- A fetch that has to wait for a slot is in the queue. -/
theorem Fetch.step_blocked (h : f.step cfg t cancelled byteRange hub a = some (hub', .go .blocked)) :
    t ∈ hub'.sem.waitq := by
  revert h
  fun_cases Fetch.step cfg t cancelled byteRange hub f a
  all_goals
    intro h
    cases h
  exact List.mem_append_right _ List.mem_cons_self

/-! ### How a fetch ends -/

/-- A fetch fails only in `acquire` on a cancelled context, or through its own pull. -/
theorem Fetch.step_failed {slot : Bool} {e : HttpError}
    (h : f.step cfg t cancelled byteRange hub a = some (hub', .failed slot e)) :
    (a = .ctxDone ∧ cancelled ∧ slot = false ∧ e = busy) ∨
      (slot = true ∧ ∃ up : Upstream, a = .pull up ∧ (up.cutoff = none ∨ cancelled) ∧
        up.plainFetch byteRange = .error e) := by
  revert h
  fun_cases Fetch.step cfg t cancelled byteRange hub f a
  all_goals
    intro h
    cases h
  all_goals simp_all

/-- Only the plain path fills as `plain`, and it holds a slot. -/
theorem Fetch.step_filled {src : FillSource} {res : XorbResult}
    (h : f.step cfg t cancelled byteRange hub a = some (hub', .filled src res)) :
    (src = .plain ∧ f = .pulling ∧ ∃ up : Upstream, a = .pull up ∧
      up.plainFetch byteRange = .ok res) ∨
    (∃ leg base side now, src = .race side ∧ f = .settle leg base (some (res, side)) ∧
      a = .settle now) := by
  revert h
  fun_cases Fetch.step cfg t cancelled byteRange hub f a
  all_goals
    intro h
    cases h
  all_goals simp_all

end XetDcCache
