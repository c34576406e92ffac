/-
The state the request goroutines share (server.go, metrics.go, peers.go).

* `Sem` — the fetch semaphore, a buffered channel: `acquire` queues when the
  buffer is full, and `release` hands the slot to the first in the queue;
* `Sticky` — the sticky-peer pointer with its expiry;
* `Metrics` — the counters of the xorb path and the two derived values read by
  `Snapshot`.
-/
import XetDcCache.Upstream

namespace XetDcCache

/-- A request, by the order of its arrival. -/
abbrev Tid := ℕ

/-- Which side of a race produced the body. -/
inductive HedgeSource
  | srcPeer
  | srcCDN
deriving DecidableEq, Repr

/-- The environment of a node: its `PEERS` list, `MAX_INFLIGHT_FETCHES` (`none`:
no cap), the sticky TTL, the two limits of the LRU, whether hits are streamed,
and SHA-256. -/
structure Config where
  peers : List Url
  slots : Option ℕ
  stickyTTL : ℕ
  maxBytes : Int64
  minFree : Int64
  streamHits : Bool
  sum256 : Bytes → Bytes

/-! ### The fetch semaphore -/

/-- `Server.sem`: the slots taken, the goroutines blocked in `acquire` in the
order they came, and those among them that have been handed a slot. -/
structure Sem where
  held : ℕ
  waitq : List Tid
  granted : List Tid
deriving DecidableEq, Repr

namespace Sem

def empty : Sem := ⟨0, [], []⟩

/-- A non-blocking send: `none` when the buffer is full. -/
def trySend (s : Sem) : Option ℕ → Option Sem
  | none => some s
  | some cap => if s.held < cap then some { s with held := s.held + 1 } else none

/-- Block on a send. -/
def enqueue (s : Sem) (t : Tid) : Sem := { s with waitq := s.waitq ++ [t] }

/-- A blocked goroutine gives up. -/
def cancel (s : Sem) (t : Tid) : Sem := { s with waitq := s.waitq.erase t }

/-- A blocked goroutine takes the slot it was handed. -/
def take (s : Sem) (t : Tid) : Sem := { s with granted := s.granted.erase t }

/-- A receive: the slot goes to the first blocked goroutine, if there is one. -/
def release (s : Sem) : Option ℕ → Sem
  | none => s
  | some _ =>
    match s.waitq with
    | [] => { s with held := s.held - 1 }
    | u :: rest => { s with waitq := rest, granted := s.granted ++ [u] }

/-- What one step of the goroutine `t` does to the semaphore. -/
inductive Op (slots : Option ℕ) (t : Tid) : Sem → Sem → Prop
  | idle (s : Sem) : Op slots t s s
  | sent {s s' : Sem} (h : s.trySend slots = some s') : Op slots t s s'
  | queued (s : Sem) : Op slots t s (s.enqueue t)
  | left (s : Sem) : Op slots t s (s.cancel t)
  | took (s : Sem) : Op slots t s (s.take t)
  | released (s : Sem) : Op slots t s (s.release slots)

end Sem

/-! ### The sticky peer -/

structure Sticky where
  url : Url
  expiry : ℕ
deriving DecidableEq, Repr

namespace Sticky

def get (s : Sticky) (now : ℕ) : Option Url :=
  if s.url = [] ∨ ¬ now < s.expiry then none else some s.url

def set (url : Url) (now ttl : ℕ) : Sticky := ⟨url, now + ttl⟩

def clear (s : Sticky) : Sticky := { s with url := [] }

/-- `updateSticky`: pin the peer that won, drop one the CDN raced past. -/
def update (s : Sticky) (url : Url) (now ttl : ℕ) : HedgeSource → Sticky
  | .srcPeer => set url now ttl
  | .srcCDN => s.clear

end Sticky

/-! ### Metrics -/

/-- The counters of the xorb path. -/
structure Metrics where
  hits : ℕ
  misses : ℕ
  wanBytes : ℕ
  servedBytes : ℕ
  peerHits : ℕ
  peerMisses : ℕ
  peerBytes : ℕ
  peerProbeTimeouts : ℕ
  peerHedgeFired : ℕ
  peerHedgePeerWon : ℕ
  peerHedgeCdnWon : ℕ
  peerBytesWasted : ℕ
  peerHedgeCdnBytes : ℕ
deriving DecidableEq, Repr

namespace Metrics

def zero : Metrics := ⟨0, 0, 0, 0, 0, 0, 0, 0, 0, 0, 0, 0, 0⟩

/-- `recordRaceWin`. -/
def recordRaceWin (m : Metrics) (res : XorbResult) : HedgeSource → Metrics
  | .srcPeer =>
    { m with peerHits := m.peerHits + 1, peerBytes := m.peerBytes + res.body.length }
  | .srcCDN =>
    { m with
      wanBytes := m.wanBytes + res.body.length
      peerHedgeCdnBytes := m.peerHedgeCdnBytes + res.body.length }

/-- The counters a request or a fill is booked under. -/
structure Ledger where
  hits : ℕ
  misses : ℕ
  wanBytes : ℕ
  servedBytes : ℕ
  peerHits : ℕ
  peerBytes : ℕ
deriving DecidableEq, Repr

def ledger (m : Metrics) : Ledger :=
  ⟨m.hits, m.misses, m.wanBytes, m.servedBytes, m.peerHits, m.peerBytes⟩

/-- `wan_bytes_saved` in `Snapshot`. -/
def wanBytesSaved (m : Metrics) : ℤ := m.servedBytes - m.wanBytes

/-- A rate rounded to four decimals, 0 of no requests. -/
def rate (part total : ℕ) : ℚ :=
  if total = 0 then 0 else (round ((part : ℚ) / total * 10000) : ℚ) / 10000

/-- `hit_rate` in `Snapshot`. -/
def hitRate (m : Metrics) : ℚ := rate m.hits (m.hits + m.misses)

/-- `effective_hit_rate` in `Snapshot`. -/
def effectiveHitRate (m : Metrics) : ℚ := rate (m.hits + m.peerHits) (m.hits + m.misses)

theorem rate_le_one {part total : ℕ} (h : part ≤ total) : rate part total ≤ 1 := by
  rw [rate]
  by_cases ht : total = 0
  · rw [if_pos ht]
    exact zero_le_one
  · rw [if_neg ht, div_le_one (by norm_num)]
    have hpos : (0 : ℚ) < total := by exact_mod_cast Nat.pos_of_ne_zero ht
    have hfrac : (part : ℚ) / total ≤ 1 := (div_le_one hpos).mpr (by exact_mod_cast h)
    have hround : round ((part : ℚ) / total * 10000) ≤ 10000 := by
      rw [round_eq]
      refine Int.lt_add_one_iff.mp (Int.floor_lt.mpr ?_)
      push_cast
      linarith
    exact_mod_cast hround

end Metrics

end XetDcCache
