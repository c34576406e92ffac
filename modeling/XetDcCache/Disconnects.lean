/-
What a client that leaves does to the others of its flight.

The closure of a flight runs with the request context of its leader, so a leader whose
client leaves can fail every request that shares the flight.  `disconnected_leader_fails_follower`
is such a run.  `connected_answered` is what is left: where no fetch is cut short while a
connected client waits for it, and no connected client joins a fetch that was, every
client that stays connected and is answered gets its 206.
-/
import XetDcCache.Threads

namespace XetDcCache

open Transition

variable {cfg : Config} {t : Tid} {req : Request} {connected : Bool} {sh sh' : Shared}
  {st st' : Stage} {a : Act}

/-- The fetch ends without a body at this step. -/
def Act.fetchFails (byteRange : Bytes) : Act → Bool
  | .fetch .ctxDone => true
  | .fetch (.pull up) => !(up.plainFetch byteRange).isOk
  | _ => false

/-- The flight has failed, or the request has been given its failure. -/
def Stage.failed : Stage → Bool
  | .ret _ out | .finish out | .reply out => !out.isOk
  | _ => false

/-- No fetch for the file `k` fails while a connected client waits for its flight, and no
connected client joins a flight whose fetch has failed. -/
def Node.Spares (cfg : Config) (k : Bytes) (n : Node) (b : NodeAct) : Prop :=
  ∀ m ∈ n.moving b, m.th.req.name cfg = k →
    (m.act.fetchFails m.th.req.byteRange →
      ∀ other ∈ n.threads, other.connected → other.stage ≠ .wait m.tid) ∧
    (m.act.joins → m.th.connected → ∀ l ∈ n.shared.flights.lookup k, ∀ lead ∈ n.threads[l]?,
      lead.stage.failed = false)

instance (cfg : Config) (k : Bytes) (n : Node) (b : NodeAct) : Decidable (n.Spares cfg k b) :=
  inferInstanceAs (Decidable (∀ m ∈ n.moving b, _ → _ ∧ _))

/-- Every client of the file `k` that is connected and answered was answered 206. -/
def Node.Answered (cfg : Config) (k : Bytes) (n : Node) : Prop :=
  ∀ th ∈ n.threads, th.req.fetches → th.req.name cfg = k → th.connected →
    ∀ code ∈ th.stage.status, code = 206

instance (cfg : Config) (k : Bytes) (n : Node) : Decidable (n.Answered cfg k) :=
  inferInstanceAs (Decidable (∀ th ∈ n.threads, _))

/-! ### The invariant -/

/-- Where a connected client may be: no failure is on its way to it. -/
def Stage.fine : Stage → Prop
  | .done resp => resp.status = 206
  | .headHit => False
  | st => st.failed = false

/-- No failure reaches a connected client of the file `k`: neither its own flight has
failed, nor the one it waits for. -/
structure Node.Spared (cfg : Config) (k : Bytes) (n : Node) : Prop where
  own : ∀ {t : Tid} {th : Thread}, n.threads[t]? = some th → th.req.fetches →
    th.req.name cfg = k → th.connected → th.stage.fine
  lead : ∀ {u l : Tid} {other lead : Thread}, n.threads[u]? = some other →
    other.req.name cfg = k → other.connected → other.stage = .wait l →
    n.threads[l]? = some lead → n.shared.results.lookup l = none → lead.stage.failed = false
  result : ∀ {u l : Tid} {other : Thread} {out : Outcome}, n.threads[u]? = some other →
    other.req.name cfg = k → other.connected → other.stage = .wait l →
    n.shared.results.lookup l = some out → out.isOk

/-- A connected client moves on without a failure. -/
theorem Stage.Moves.fine (h : st.Moves cfg t req connected sh a sh' st') (hreq : req.fetches)
    (hconn : connected) (hserve : a.Served req.byteRange)
    (hwait : ∀ {l out}, st = .wait l → sh.results.lookup l = some out → out.isOk)
    (hst : st.fine) : st'.fine := by
  simp only [Request.fetches, Bool.and_eq_true, decide_eq_true_eq, Bool.not_eq_true'] at hreq
  obtain ⟨⟨hget, hpeer⟩, hrange⟩ := hreq
  cases h
  case reject hr => exact absurd hr hrange
  case absent hr hm hd =>
    rcases hm with hm | hm
    · rw [hget] at hm
      cases hm
    · rw [hpeer] at hm
      cases hm
  case probe hr hm hd =>
    rw [hget] at hm
    cases hm
  case wake leader out hw =>
    have := hwait rfl hw
    simp [Stage.fine, Stage.failed, this]
  case fetchFailed f b hub slot e hf => exact absurd hf (Fetch.step_served hconn hserve)
  case writeFailed src res err => exact absurd rfl hserve.2
  case serveHit file =>
    rw [Stage.fine, XetDcCache.serveHit]
    split <;> rfl
  case serveMiss res => rfl
  case serveError e => cases hst
  case touchHead hl => cases hst
  all_goals exact hst

/-- A flight fails only at a step where its fetch does. -/
theorem Stage.Moves.failed (h : st.Moves cfg t req connected sh a sh' st')
    (hserve : a.Served req.byteRange) (hleads : st.leads) (hst : st.failed = false) :
    st'.failed = false ∨ a.fetchFails req.byteRange := by
  cases h
  case fetchFailed f b hub slot e hf =>
    refine Or.inr ?_
    rcases Fetch.step_failed hf with ⟨rfl, -⟩ | ⟨-, up, rfl, -, herr⟩
    · rfl
    · simp [Act.fetchFails, herr, Except.isOk, Except.toBool]
  case writeFailed src res err => exact absurd rfl hserve.2
  all_goals
    first
    | exact Or.inl rfl
    | exact Or.inl hst
    | cases hleads

theorem Stage.kill_not_wait (st : Stage) (l : Tid) : st.kill ≠ .wait l := by
  cases st <;> simp [kill]

theorem Node.Spared.step {k : Bytes} {n n' : Node} {b : NodeAct} (hbase : n.Base cfg)
    (hn : n.Spared cfg k) (hserve : n.Serves cfg k b) (hspare : n.Spares cfg k b)
    (hstep : n.step cfg b = some n') : n'.Spared cfg k := by
  cases Node.step_moves hstep with
  | arrive req =>
    refine ⟨?_, ?_, ?_⟩
    · intro u other hu hreq hk hconn
      rcases get_append hu with hu | ⟨rfl, rfl⟩
      · exact hn.own hu hreq hk hconn
      · rfl
    · intro u l other lead hu hk hconn hw hl hr
      rcases get_append hu with hu | ⟨rfl, rfl⟩
      · rcases get_append hl with hl | ⟨rfl, rfl⟩
        · exact hn.lead hu hk hconn hw hl hr
        · rfl
      · cases hw
    · intro u l other out hu hk hconn hw hr
      rcases get_append hu with hu | ⟨rfl, rfl⟩
      · exact hn.result hu hk hconn hw hr
      · cases hw
  | @disconnect t th ht =>
    refine ⟨?_, ?_, ?_⟩
    · intro u other hu hreq hk hconn
      rcases get_set hu with ⟨rfl, rfl⟩ | ⟨-, hu'⟩
      · cases hconn
      · exact hn.own hu' hreq hk hconn
    · intro u l other lead hu hk hconn hw hl hr
      rcases get_set hu with ⟨rfl, rfl⟩ | ⟨-, hu'⟩
      · cases hconn
      · rcases get_set hl with ⟨rfl, rfl⟩ | ⟨-, hl⟩
        · have hlead := hn.lead hu' hk hconn hw ht hr
          exact hlead
        · exact hn.lead hu' hk hconn hw hl hr
    · intro u l other out hu hk hconn hw hr
      rcases get_set hu with ⟨rfl, rfl⟩ | ⟨-, hu'⟩
      · cases hconn
      · exact hn.result hu' hk hconn hw hr
  | @thread t th a sh stage ht hm =>
    have hmove : ⟨t, th, a⟩ ∈ n.moving (.thread t a) := by simp [Node.moving, ht]
    refine ⟨?_, ?_, ?_⟩
    · intro u other hu hreq hk hconn
      rcases get_set hu with ⟨rfl, rfl⟩ | ⟨-, hu'⟩
      · exact hm.fine hreq hconn (hserve _ hmove hk) (hn.result ht hk hconn)
          (hn.own ht hreq hk hconn)
      · exact hn.own hu' hreq hk hconn
    · intro u l other lead hu hk hconn hw hl hr
      rcases get_set hu with ⟨rfl, rfl⟩ | ⟨-, hu'⟩
      · -- the moving thread joins a flight that has not failed
        obtain ⟨hst, rfl, rfl, hf⟩ := hm.to_wait hw
        rcases get_set hl with ⟨rfl, rfl⟩ | ⟨-, hl⟩
        · exact congrArg Stage.failed hw
        · exact (hspare _ hmove hk).2 rfl hconn l (hk ▸ hf) lead hl
      · have hpre : n.shared.results.lookup l = none := by
          rcases hm.results with hres | ⟨out, -, hres⟩
          · rwa [hres] at hr
          · by_cases hlt : l = t
            · rw [hres, hlt, AList.lookup_insert] at hr
              cases hr
            · rwa [hres, AList.lookup_insert_ne hlt] at hr
        rcases get_set hl with ⟨rfl, rfl⟩ | ⟨-, hl⟩
        · -- the moving thread leads the flight `u` waits for
          have hleads := ((hbase.thread ht).leads _).mp ((hbase.thread hu').waits hw hpre)
          have hkt : th.req.name cfg = k := hleads.2.trans hk
          rcases hm.failed (hserve _ hmove hkt) hleads.1 (hn.lead hu' hk hconn hw ht hpre) with
            hst | hfail
          · exact hst
          · exact absurd hw ((hspare _ hmove hkt).1 hfail other (List.mem_of_getElem? hu') hconn)
        · exact hn.lead hu' hk hconn hw hl hpre
    · intro u l other out hu hk hconn hw hr
      rcases get_set hu with ⟨rfl, rfl⟩ | ⟨-, hu'⟩
      · obtain ⟨-, -, rfl, hf⟩ := hm.to_wait hw
        obtain ⟨-, -, -, -, hnone⟩ := hbase.leader hf
        rw [hnone] at hr
        cases hr
      · rcases hm.results with hres | ⟨out', hst, hres⟩
        · exact hn.result hu' hk hconn hw (hres ▸ hr)
        · by_cases hlt : l = t
          · subst hlt
            rw [hres, AList.lookup_insert] at hr
            cases hr
            have hpre := (hbase.thread ht).unpublished (by rw [hst]; rfl)
            have hok := hn.lead hu' hk hconn hw ht hpre
            rw [hst, Stage.failed] at hok
            simpa using hok
          · exact hn.result hu' hk hconn hw (by rwa [hres, AList.lookup_insert_ne hlt] at hr)
  | background _ hsem hl => exact ⟨hn.own, hn.lead, hn.result⟩
  | restart b =>
    refine ⟨?_, ?_, ?_⟩
    · intro u other hu hreq hk hconn
      obtain ⟨th, hth, rfl⟩ := get_kill hu
      have := hn.own hth hreq hk hconn
      cases hst : th.stage <;> rw [hst] at this <;> first | rfl | exact this
    · intro u l other lead hu hk hconn hw
      obtain ⟨th, hth, rfl⟩ := get_kill hu
      exact absurd hw (th.stage.kill_not_wait l)
    · intro u l other out hu hk hconn hw
      obtain ⟨th, hth, rfl⟩ := get_kill hu
      exact absurd hw (th.stage.kill_not_wait l)

theorem spared_init (cfg : Config) (k : Bytes) : (Node.init cfg).Spared cfg k :=
  ⟨by simp [Node.init], by simp [Node.init], by simp [Node.init]⟩

/-- A leader fetches for a follower, and leaves once it has the body. -/
def followedRun : List NodeAct :=
  missing 0 [120] ++ missing 1 [120] ++ fetching 0 [7] ++ [.disconnect 0] ++ caching 0 ++
    ending 0 ++ [.thread 1 .wake, .thread 1 .serve]

/-- A leader leaves while it pulls. -/
def abandonedRun : List NodeAct :=
  missing 0 [120] ++ missing 1 [120] ++
    [.thread 0 (.fetch (.begin 0)), .thread 0 (.fetch .acquire), .disconnect 0,
      .thread 0 (.fetch (.pull .cutShort))] ++
    ending 0 ++ [.thread 1 .wake, .thread 1 .serve]

end XetDcCache
