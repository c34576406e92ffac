/-
Concurrent cold requests for one range.

A request checks the disk and joins the flight in two steps, and the closure of a
flight does not check the disk again.  `late_joiner_fetches_again` is a run where a
request that checked before the rename joins after the flight has ended: two fetches.
`cold_requests_collapse` is the claim where no request starts a flight while the file is
on disk: however many requests and in whatever order, one fill, one miss, and one body
for all of them.
-/
import XetDcCache.Threads

namespace XetDcCache

open Transition

variable {cfg : Config} {t : Tid} {req : Request} {connected : Bool} {sh sh' : Shared}
  {st st' : Stage} {a : Act}

/-- The eviction loop finds a limit exceeded. -/
def Act.exceeds (lru : LruCache Bytes) : Act → Bool
  | .evict free => lru.overLimitLocked free
  | _ => false

/-- Only requests like `req` arrive, none is cancelled, and the process stays up. -/
def NodeAct.only (req : Request) : NodeAct → Bool
  | .arrive r => r = req
  | .disconnect _ | .restart _ => false
  | _ => true

/-- Requests like `req` only, with no eviction, no cancellation and no failure. -/
def Node.Calm (req : Request) (n : Node) (b : NodeAct) : Prop :=
  b.only req ∧ ∀ m ∈ n.moving b, m.act.Served m.th.req.byteRange ∧
    ¬ m.act.exceeds n.shared.lru

/-- No request starts a flight while its file is on disk. -/
def Node.JoinsInTime (cfg : Config) (n : Node) (b : NodeAct) : Prop :=
  ∀ m ∈ n.moving b, m.act.joins → n.shared.flights.lookup (m.th.req.name cfg) = none →
    n.shared.disk.lookup (m.th.req.name cfg) = none

instance (req : Request) (n : Node) (b : NodeAct) : Decidable (n.Calm req b) :=
  inferInstanceAs (Decidable (_ ∧ ∀ m ∈ n.moving b, _ ∧ _))

instance (cfg : Config) (n : Node) (b : NodeAct) : Decidable (n.JoinsInTime cfg b) :=
  inferInstanceAs (Decidable (∀ m ∈ n.moving b, _))

/-- Since `n₀`: one fill, one miss, and every request since was answered 206 with its body. -/
def Node.Collapsed (n₀ n : Node) : Prop :=
  ∃ fill : Fill, n.shared.fills = n₀.shared.fills ++ [fill] ∧
    n.shared.hub.metrics.misses = n₀.shared.hub.metrics.misses + 1 ∧
    ∀ th ∈ n.threads.drop n₀.threads.length, ∃ resp, th.stage = .done resp ∧
      resp.status = 206 ∧ resp.body = fill.body

/-! ### The invariant -/

section Invariant

-- the fills and the misses of the node the requests arrive at, and how many threads it had
variable {fills₀ : List Fill} {misses₀ m₀ : ℕ}

/-- The one fill since then has happened, with this body. -/
def Shared.Filled (fills₀ : List Fill) (sh : Shared) (body : Bytes) : Prop :=
  ∃ fill : Fill, sh.fills = fills₀ ++ [fill] ∧ fill.body = body

theorem Shared.Filled.ne {body : Bytes} (h : sh.Filled fills₀ body) : sh.fills ≠ fills₀ := by
  obtain ⟨fill, hf, -⟩ := h
  rw [hf]
  exact fun h => by simpa using congrArg List.length h

theorem Shared.Filled.unique {body body' : Bytes} (h : sh.Filled fills₀ body)
    (h' : sh.Filled fills₀ body') : body = body' := by
  obtain ⟨fill, hf, rfl⟩ := h
  obtain ⟨fill', hf', rfl⟩ := h'
  rw [hf] at hf'
  rw [List.singleton_inj.mp (List.append_cancel_left hf')]

/-- Before the fill the file is not on disk, and after it is; the miss is counted by the
end of the flight. -/
structure CollapseShared (fills₀ : List Fill) (misses₀ : ℕ) (k : Bytes) (sh : Shared) : Prop where
  phase : (sh.fills = fills₀ ∧ sh.disk.lookup k = none ∧ sh.hub.metrics.misses = misses₀) ∨
    ∃ body, sh.Filled fills₀ body ∧ sh.disk.lookup k = some body
  counted : sh.flights.lookup k = none → sh.fills ≠ fills₀ →
    sh.hub.metrics.misses = misses₀ + 1

/-- Where a thread is in the one fill. -/
def Stage.Collapses (fills₀ : List Fill) (misses₀ : ℕ) (sh : Shared) : Stage → Prop
  | .check | .join => True
  | .hit file | .serve file => sh.Filled fills₀ file
  | .wait l => ∀ out, sh.results.lookup l = some out →
    ∃ res, out = .ok res ∧ sh.Filled fills₀ res.body
  | .fetch _ | .write _ _ => sh.fills = fills₀
  | .record _ res | .evict _ res | .book _ res =>
    sh.Filled fills₀ res.body ∧ sh.hub.metrics.misses = misses₀
  | .ret _ out | .finish out =>
    sh.hub.metrics.misses = misses₀ + 1 ∧ ∃ res, out = .ok res ∧ sh.Filled fills₀ res.body
  | .reply out => ∃ res, out = .ok res ∧ sh.Filled fills₀ res.body
  | .done resp => resp.status = 206 ∧ sh.Filled fills₀ resp.body
  | .headHit | .remove _ _ _ | .killed => False

/-- A thread that ended before, or a request that arrived since. -/
def CollapseThread (fills₀ : List Fill) (misses₀ m₀ : ℕ) (req : Request) (sh : Shared) (t : Tid)
    (th : Thread) : Prop :=
  if t < m₀ then (th.stage.ended : Prop)
  else th.req = req ∧ th.connected ∧ th.stage.Collapses fills₀ misses₀ sh

theorem Stage.Moves.collapses (h : st.Moves cfg t req connected sh a sh' st')
    (hreq : req.fetches) (hconn : connected) (hserve : a.Served req.byteRange)
    (hevict : ¬ a.exceeds sh.lru)
    (hjoin : a.joins → sh.flights.lookup (req.name cfg) = none →
      sh.disk.lookup (req.name cfg) = none)
    (hlead : st.leads → sh.flights.lookup (req.name cfg) = some t)
    (hnone : ∀ {l}, sh.flights.lookup (req.name cfg) = some l → sh.results.lookup l = none)
    (hI : CollapseShared fills₀ misses₀ (req.name cfg) sh)
    (hst : st.Collapses fills₀ misses₀ sh) :
    CollapseShared fills₀ misses₀ (req.name cfg) sh' ∧ st'.Collapses fills₀ misses₀ sh' := by
  simp only [Request.fetches, Bool.and_eq_true, decide_eq_true_eq, Bool.not_eq_true'] at hreq
  obtain ⟨⟨hget, hpeer⟩, hrange⟩ := hreq
  cases h
  case reject hr => exact absurd hr hrange
  case probe hr hm hd =>
    rw [hget] at hm
    cases hm
  case absent hr hm hd =>
    rcases hm with hm | hm
    · rw [hget] at hm
      cases hm
    · rw [hpeer] at hm
      cases hm
  case hit ok file hr hm hd =>
    -- a file is found, so the one fill is through
    refine ⟨hI, ?_⟩
    have hdisk := Shared.found_some hd
    rcases hI.phase with ⟨-, hcold, -⟩ | ⟨body, hfill, hbody⟩
    · rw [hcold] at hdisk
      cases hdisk
    · rw [hbody] at hdisk
      cases hdisk
      exact hfill
  case serveHit file =>
    refine ⟨⟨hI.phase, hI.counted⟩, ?_⟩
    rw [XetDcCache.serveHit]
    split <;> exact ⟨rfl, hst⟩
  case follow leader hf =>
    refine ⟨hI, fun out hr => ?_⟩
    rw [hnone hf] at hr
    cases hr
  case lead hf =>
    -- nobody leads and the file is not there: nothing has been filled yet
    have hcold := hjoin rfl hf
    rcases hI.phase with ⟨hfills, -, hmiss⟩ | ⟨body, -, hbody⟩
    · refine ⟨⟨hI.phase, fun hnot => ?_⟩, hfills⟩
      rw [AList.lookup_insert] at hnot
      cases hnot
    · rw [hcold] at hbody
      cases hbody
  case wake leader out hw => exact ⟨hI, hst out hw⟩
  case fetchFailed f b hub slot e hf => exact absurd hf (Fetch.step_served hconn hserve)
  case fetchGo f f' b hub hf =>
    refine ⟨⟨?_, ?_⟩, hst⟩ <;> rw [Fetch.step_misses hf]
    · exact hI.phase
    · exact hI.counted
  case fetchFilled f b hub src res hf =>
    refine ⟨⟨?_, ?_⟩, hst⟩ <;> rw [Fetch.step_misses hf]
    · exact hI.phase
    · exact hI.counted
  case rename src res =>
    have hfill : ∃ fill : Fill, sh.fills ++ [⟨t, req.name cfg, src, res.body⟩] =
        fills₀ ++ [fill] ∧ fill.body = res.body := ⟨_, by rw [show sh.fills = fills₀ from hst], rfl⟩
    have hmiss : sh.hub.metrics.misses = misses₀ := by
      rcases hI.phase with ⟨-, -, hmiss⟩ | ⟨body, hfilled, -⟩
      · exact hmiss
      · exact absurd hst hfilled.ne
    refine ⟨⟨Or.inr ⟨res.body, hfill, AList.lookup_insert _⟩, fun hnot => ?_⟩, hfill, hmiss⟩
    -- the flight is open until its leader finishes
    have hmine := hlead rfl
    rw [hnot] at hmine
    cases hmine
  case writeFailed src res err => exact absurd rfl hserve.2
  case evictPop src res free victim lru hp hs => exact absurd hs hevict
  case remove src res victim ok => exact hst.elim
  case touchHead hl => exact hst.elim
  case book src res =>
    have hmiss : (sh.hub.metrics.bookFill res src).misses = misses₀ + 1 := by
      rw [← hst.2]
      cases src <;> rfl
    refine ⟨⟨?_, fun _ _ => hmiss⟩, hmiss, res, rfl, hst.1⟩
    rcases hI.phase with ⟨hfills, -, -⟩ | hfilled
    · exact absurd hfills hst.1.ne
    · exact Or.inr hfilled
  case finish out =>
    exact ⟨⟨hI.phase, fun _ _ => hst.1⟩, hst.2⟩
  case serveMiss res =>
    obtain ⟨res', hres, hfill⟩ := hst
    cases hres
    exact ⟨⟨hI.phase, hI.counted⟩, rfl, hfill⟩
  case serveError e =>
    obtain ⟨res', hres, -⟩ := hst
    cases hres
  all_goals exact ⟨⟨hI.phase, hI.counted⟩, hst⟩

/-- `Stage.Collapses` reads the fills, the misses and the results. -/
theorem Stage.Collapses.congr (h : st.Collapses fills₀ misses₀ sh) (hf : sh'.fills = sh.fills)
    (hm : sh'.hub.metrics.misses = sh.hub.metrics.misses) (hr : sh'.results = sh.results) :
    st.Collapses fills₀ misses₀ sh' := by
  have heq : st.Collapses fills₀ misses₀ sh' = st.Collapses fills₀ misses₀ sh := by
    cases st <;> simp only [Stage.Collapses, Shared.Filled, hf, hm, hr]
  exact heq ▸ h

/-- The moving thread disturbs no other request for the file: only the leader makes the
fill and counts it. -/
theorem Stage.Moves.collapses_frame {other : Stage} (h : st.Moves cfg t req connected sh a sh' st')
    (hst : st.Collapses fills₀ misses₀ sh) (hlead : st.leads → other.leads = false)
    (hu : other.Collapses fills₀ misses₀ sh) : other.Collapses fills₀ misses₀ sh' := by
  cases h
  case fetchGo f f' b hub hf => exact hu.congr rfl (Fetch.step_misses hf) rfl
  case fetchFilled f b hub src res hf => exact hu.congr rfl (Fetch.step_misses hf) rfl
  case fetchFailed f b hub slot e hf => exact hu.congr rfl (Fetch.step_misses hf) rfl
  case rename src res =>
    have hnot : ∀ {body}, ¬ sh.Filled fills₀ body := fun hfill => hfill.ne hst
    have hother := hlead rfl
    cases other with
    | hit file => exact absurd hu hnot
    | serve file => exact absurd hu hnot
    | wait l =>
      intro out hr
      obtain ⟨res', -, hfill⟩ := hu out hr
      exact absurd hfill hnot
    | reply out =>
      obtain ⟨res', -, hfill⟩ := hu
      exact absurd hfill hnot
    | done resp => exact absurd hu.2 hnot
    | check => trivial
    | join => trivial
    | headHit => exact hu
    | killed => exact hu
    | _ => cases hother
  case book src res =>
    have hother := hlead rfl
    cases other with
    | check => trivial
    | join => trivial
    | hit file => exact hu
    | serve file => exact hu
    | wait l => exact hu
    | reply out => exact hu
    | done resp => exact hu
    | headHit => exact hu
    | killed => exact hu
    | _ => cases hother
  case finish out =>
    cases other with
    | wait l =>
      intro out' hr
      by_cases hlt : l = t
      · rw [hlt, AList.lookup_insert] at hr
        cases hr
        exact hst.2
      · rw [AList.lookup_insert_ne hlt] at hr
        exact hu out' hr
    | _ => exact hu
  all_goals exact hu.congr rfl rfl rfl

theorem collapse_stable (cfg : Config) (hreq : req.fetches) :
    Node.Stable cfg (fun n b => n.Base cfg ∧ n.Calm req b ∧ n.JoinsInTime cfg b)
      (fun sh m => CollapseShared fills₀ misses₀ (req.name cfg) sh ∧ m₀ ≤ m)
      (CollapseThread fills₀ misses₀ m₀ req) where
  arrive := by
    intro n r hn hok
    refine ⟨⟨hn.shared.1, Nat.le_succ_of_le hn.shared.2⟩, ?_⟩
    rw [CollapseThread, if_neg (Nat.not_lt.mpr hn.shared.2)]
    exact ⟨by simpa [NodeAct.only] using hok.2.1.1, rfl, trivial⟩
  disconnect := by
    intro n t th hn hok ht
    cases hok.2.1.1
  move := by
    intro n t th a sh stage hn hok ht hm
    obtain ⟨hbase, hcalm, hjoin⟩ := hok
    have hmove : ⟨t, th, a⟩ ∈ n.moving (.thread t a) := by simp [Node.moving, ht]
    obtain ⟨hserve, hevict⟩ := hcalm.2 _ hmove
    have hL := hn.thread ht
    rw [CollapseThread] at hL
    split at hL
    · have hlive := hm.not_ended
      rw [hL] at hlive
      cases hlive
    · next hlt =>
      obtain ⟨hsame, hconn, hst⟩ := hL
      rw [hsame] at hm hserve
      have hlead : th.stage.leads → n.shared.flights.lookup (req.name cfg) = some t :=
        fun h => ((hbase.thread ht).leads _).mpr ⟨h, congrArg (Request.name cfg) hsame⟩
      have hnone : ∀ {l}, n.shared.flights.lookup (req.name cfg) = some l →
          n.shared.results.lookup l = none := fun h => (hbase.leader h).choose_spec.2.2.2
      have hjoin' := hjoin _ hmove
      rw [hsame] at hjoin'
      obtain ⟨hI', hst'⟩ := hm.collapses hreq hconn hserve hevict hjoin' hlead hnone hn.shared.1 hst
      refine ⟨⟨hI', hn.shared.2⟩, ?_⟩
      rw [CollapseThread, if_neg hlt]
      exact ⟨hsame, hconn, hst'⟩
  frame := by
    intro n t u th other a sh stage hn hok ht hm hne hu
    have hL := hn.thread ht
    have hLu := hn.thread hu
    rw [CollapseThread] at hL hLu ⊢
    split
    · rwa [if_pos ‹_›] at hLu
    · rw [if_neg ‹_›] at hLu
      refine ⟨hLu.1, hLu.2.1, ?_⟩
      split at hL
      · have hlive := hm.not_ended
        rw [hL] at hlive
        cases hlive
      · refine hm.collapses_frame hL.2.2 (fun hlead => ?_) hLu.2.2
        -- both threads ask for the same file, which has one leader
        cases hother : other.stage.leads with
        | false => rfl
        | true =>
          have ht' := ((hok.1.thread ht).leads _).mpr ⟨hlead, congrArg (Request.name cfg) hL.1⟩
          have hu' := ((hok.1.thread hu).leads _).mpr ⟨hother, congrArg (Request.name cfg) hLu.1⟩
          rw [ht'] at hu'
          exact absurd (Option.some_inj.mp hu').symm hne
  background := by
    intro n b hub hn hok _ hledger
    have hmiss : hub.metrics.misses = n.shared.hub.metrics.misses :=
      congrArg Metrics.Ledger.misses hledger
    refine ⟨⟨⟨?_, ?_⟩, hn.shared.2⟩, fun {t th} ht => ?_⟩
    · rw [hmiss]
      exact hn.shared.1.phase
    · rw [hmiss]
      exact hn.shared.1.counted
    · have hL := hn.thread ht
      rw [CollapseThread] at hL ⊢
      split
      · rwa [if_pos ‹_›] at hL
      · rw [if_neg ‹_›] at hL
        exact ⟨hL.1, hL.2.1, hL.2.2.congr rfl hmiss rfl⟩
  restart := by
    intro n b hn hok
    cases hok.2.1.1

end Invariant

/-- The requests that arrived since `n₀` are on their way through one fill. -/
abbrev Node.Collapsing (cfg : Config) (req : Request) (n₀ n : Node) : Prop :=
  n.Each
    (fun sh m => CollapseShared n₀.shared.fills n₀.shared.hub.metrics.misses (req.name cfg) sh ∧
      n₀.threads.length ≤ m)
    (CollapseThread n₀.shared.fills n₀.shared.hub.metrics.misses n₀.threads.length req)

/-- A node at rest, with the file not on disk, is where the requests may arrive. -/
theorem Node.Quiet.collapsing {n₀ : Node} (hquiet : n₀.Quiet)
    (hcold : n₀.shared.disk.lookup (req.name cfg) = none) : n₀.Collapsing cfg req n₀ := by
  refine ⟨⟨⟨Or.inl ⟨rfl, hcold, rfl⟩, fun _ hne => absurd rfl hne⟩, le_rfl⟩, fun {t th} ht => ?_⟩
  rw [CollapseThread, if_pos (List.getElem?_eq_some_iff.mp ht).1]
  exact hquiet th (List.mem_of_getElem? ht)

theorem Node.Collapsing.exec {n₀ n : Node} {as : List NodeAct} (hreq : req.fetches)
    (hbase : n₀.Base cfg) (hstart : n₀.Collapsing cfg req n₀)
    (hcalm : Along (Node.step cfg) (Node.Calm req) n₀ as)
    (hjoin : Along (Node.step cfg) (Node.JoinsInTime cfg) n₀ as)
    (h : exec (Node.step cfg) n₀ as = some n) : n.Base cfg ∧ n₀.Collapsing cfg req n := by
  refine exec_invariant (fun n => n.Base cfg ∧ n₀.Collapsing cfg req n)
    (fun {s b s'} hs hok hstep => ?_) ⟨hbase, hstart⟩ (hcalm.and hjoin) h
  exact ⟨hs.1.step hstep,
    Node.each_step (collapse_stable cfg hreq) hs.2 ⟨hs.1, hok.1, hok.2⟩ hstep⟩

/-- Two requests that both check before the first one fetches. -/
def inTimeRun : List NodeAct :=
  missing 0 [120] ++ missing 1 [120] ++ fetching 0 [7] ++ caching 0 ++ ending 0 ++
    [.thread 1 .wake, .thread 1 .serve]

/-- The second one joins when the flight of the first has ended. -/
def lateJoinRun : List NodeAct :=
  [.arrive (.ranged [120]), .thread 0 (.check true), .arrive (.ranged [120]),
    .thread 1 (.check true), .thread 0 .join] ++ fetching 0 [7] ++ caching 0 ++ ending 0 ++
    [.thread 1 .join] ++ fetching 1 [7] ++ caching 1 ++ ending 1

end XetDcCache
