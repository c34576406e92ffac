/-
How fills are booked (metrics.go, recordRaceWin, the two branches of getXorb).

A fill is booked in two places: by `recordRaceWin` when a race hands on its body, and by
the branch of `getXorb` once the body is cached.  An `Account` is a counter with what it
is owed early and late, and `Account.Conserved` says that the counter, what the fills in
flight still owe it and what they have paid ahead always add up to the fills.

`lost_write_is_booked` is a run where a race wins and the write of its body fails: the
win stays booked for a fill that never was.  `fills_booked` is the claim where the
writes of the races' bodies succeed.
-/
import XetDcCache.Threads

namespace XetDcCache

open Transition

variable {cfg : Config} {t : Tid} {req : Request} {connected : Bool} {sh sh' : Shared}
  {st st' : Stage} {a : Act}

/-! ### Accounts -/

/-- A counter, and what a fill of a source and a size adds to it: `early` when its race is
won, `late` once it is cached. -/
structure Account where
  counter : Metrics.Ledger → ℕ
  early : FillSource → ℕ → ℕ
  late : FillSource → ℕ → ℕ
  early_plain : ∀ n, early .plain n = 0
  win : ∀ (m : Metrics) res src, counter (m.recordRaceWin res src).ledger =
    counter m.ledger + early (.race src) res.body.length
  fill : ∀ (m : Metrics) res src, counter (m.bookFill res src).ledger =
    counter m.ledger + late src res.body.length
  other : ∀ (l : Metrics.Ledger) hits served,
    counter { l with hits := hits, servedBytes := served } = counter l
  zero : counter Metrics.zero.ledger = 0

namespace Account

/-- `misses`. -/
def misses : Account where
  counter := Metrics.Ledger.misses
  early _ _ := 0
  late _ _ := 1
  early_plain _ := rfl
  win _ _ src := by cases src <;> rfl
  fill _ _ src := by cases src <;> rfl
  other _ _ _ := rfl
  zero := rfl

/-- `wan_bytes`. -/
def wanBytes : Account where
  counter := Metrics.Ledger.wanBytes
  early src n := if src = .race .srcCDN then n else 0
  late src n := if src = .plain then n else 0
  early_plain _ := rfl
  win _ _ src := by cases src <;> rfl
  fill _ _ src := by cases src <;> rfl
  other _ _ _ := rfl
  zero := rfl

/-- `peer_bytes`. -/
def peerBytes : Account where
  counter := Metrics.Ledger.peerBytes
  early src n := if src = .race .srcPeer then n else 0
  late _ _ := 0
  early_plain _ := rfl
  win _ _ src := by cases src <;> rfl
  fill _ _ src := by cases src <;> rfl
  other _ _ _ := rfl
  zero := rfl

/-- `peer_hits`. -/
def peerHits : Account where
  counter := Metrics.Ledger.peerHits
  early src _ := if src = .race .srcPeer then 1 else 0
  late _ _ := 0
  early_plain _ := rfl
  win _ _ src := by cases src <;> rfl
  fill _ _ src := by cases src <;> rfl
  other _ _ _ := rfl
  zero := rfl

variable (A : Account)

/-- What the fills so far come to. -/
def due (fills : List Fill) : ℕ :=
  (fills.map fun f => A.early f.src f.body.length + A.late f.src f.body.length).sum

/-- What a thread has cached and not booked yet. -/
def owed : Stage → ℕ
  | .record src res | .evict src res | .remove src res _ | .book src res =>
    A.late src res.body.length
  | _ => 0

/-- What a thread has booked and not cached yet. -/
def ahead : Stage → ℕ
  | .write src res => A.early src res.body.length
  | _ => 0

/-- The counter, with what is owed to it, is what the fills and the payments ahead come to. -/
def Conserved (n : Node) : Prop :=
  A.counter n.shared.hub.metrics.ledger + (n.threads.map fun th => A.owed th.stage).sum =
    A.due n.shared.fills + (n.threads.map fun th => A.ahead th.stage).sum

end Account

/-- The thread is about to write the body of a race it won. -/
def Stage.won : Stage → Bool
  | .write (.race _) _ => true
  | _ => false

/-- The body of a race is cached if it is written. -/
def Node.KeepsWins (n : Node) (b : NodeAct) : Prop :=
  ∀ m ∈ n.moving b, m.act.writeFails → m.th.stage.won = false

instance (n : Node) (b : NodeAct) : Decidable (n.KeepsWins b) :=
  inferInstanceAs (Decidable (∀ m ∈ n.moving b, _))

/-- What one step of a thread moves between the accounts. -/
theorem Stage.Moves.conserves (A : Account) (h : st.Moves cfg t req connected sh a sh' st')
    (hwin : a.writeFails → st.won = false) :
    A.counter sh'.hub.metrics.ledger + A.owed st' + (A.due sh.fills + A.ahead st) =
      A.counter sh.hub.metrics.ledger + A.owed st + (A.due sh'.fills + A.ahead st') := by
  cases h
  case fetchGo f f' b hub hf =>
    simp only [Fetch.step_ledger hf, FetchNext.books, Account.owed, Account.ahead]
  case fetchFailed f b hub slot e hf =>
    simp only [Fetch.step_ledger hf, FetchNext.books, Account.owed, Account.ahead]
  case fetchFilled f b hub src res hf =>
    simp only [Fetch.step_ledger hf, Account.owed, Account.ahead]
    cases src with
    | plain => simp only [FetchNext.books, A.early_plain]
    | race side =>
      rw [FetchNext.books, A.win]
      omega
  case rename src res =>
    simp only [Account.owed, Account.ahead, Account.due, List.map_append, List.sum_append,
      List.map_cons, List.map_nil, List.sum_cons, List.sum_nil]
    omega
  case writeFailed src res err =>
    cases src with
    | plain => simp only [Account.owed, Account.ahead, A.early_plain]
    | race side => cases hwin rfl
  case book src res =>
    simp only [Account.owed, Account.ahead, A.fill]
    omega
  case serveHit file =>
    exact congrArg (· + 0 + (A.due sh.fills + 0)) (A.other sh.hub.metrics.ledger _ _)
  case serveMiss res =>
    exact congrArg (· + 0 + (A.due sh.fills + 0))
      (A.other sh.hub.metrics.ledger sh.hub.metrics.hits _)
  all_goals rfl

/-- Every run in which the races' bodies are cached conserves every account. -/
theorem Account.Conserved.step {A : Account} {n n' : Node} {b : NodeAct} (hn : A.Conserved n)
    (hwin : n.KeepsWins b) (hstep : n.step cfg b = some n') : A.Conserved n' := by
  cases Node.step_moves hstep with
  | arrive req =>
    rw [Account.Conserved] at hn ⊢
    simpa [Account.owed, Account.ahead] using hn
  | @disconnect t th ht =>
    rw [Account.Conserved] at hn ⊢
    have howed := sum_set ht (fun th => A.owed th.stage) { th with connected := false }
    have hahead := sum_set ht (fun th => A.ahead th.stage) { th with connected := false }
    simp only at howed hahead ⊢
    omega
  | @thread t th a sh stage ht hm =>
    rw [Account.Conserved] at hn ⊢
    have hmove : ⟨t, th, a⟩ ∈ n.moving (.thread t a) := by simp [Node.moving, ht]
    have hcons := hm.conserves A (hwin _ hmove)
    have howed := sum_set ht (fun th => A.owed th.stage) { th with stage := stage }
    have hahead := sum_set ht (fun th => A.ahead th.stage) { th with stage := stage }
    simp only at howed hahead ⊢
    omega
  | background _ hsem hl =>
    rw [Account.Conserved] at hn ⊢
    simpa only [hl] using hn
  | restart b =>
    have hkill : ∀ st : Stage, A.owed st.kill = 0 ∧ A.ahead st.kill = 0 := by
      intro st
      cases st <;> exact ⟨rfl, rfl⟩
    rw [Account.Conserved]
    simp [hkill, Function.comp_def, Shared.boot, Shared.fresh, A.zero, Account.due]

theorem Account.conserved_init (A : Account) (cfg : Config) : A.Conserved (Node.init cfg) := by
  rw [Account.Conserved]
  simp [Node.init, Shared.fresh, A.zero, Account.due]

/-! ### Served bytes -/

/-- The size of the fills so far. -/
def filledBytes (fills : List Fill) : ℕ := (fills.map fun f => f.body.length).sum

/-- The body a thread has in hand and will serve. -/
def Stage.unserved : Stage → ℕ
  | .record _ res | .evict _ res | .remove _ res _ | .book _ res | .ret _ (.ok res)
  | .finish (.ok res) | .reply (.ok res) => res.body.length
  | _ => 0

/-- What is filled is served, or in the hands of a thread that will serve it. -/
def Node.Serving (n : Node) : Prop :=
  filledBytes n.shared.fills ≤
    n.shared.hub.metrics.servedBytes + (n.threads.map fun th => th.stage.unserved).sum

theorem Stage.Moves.serves (h : st.Moves cfg t req connected sh a sh' st') :
    filledBytes sh'.fills + sh.hub.metrics.servedBytes + st.unserved ≤
      filledBytes sh.fills + sh'.hub.metrics.servedBytes + st'.unserved := by
  cases h
  case fetchGo f f' b hub hf =>
    simp only [Fetch.step_servedBytes hf, Stage.unserved, le_refl]
  case fetchFailed f b hub slot e hf =>
    simp only [Fetch.step_servedBytes hf, Stage.unserved, le_refl]
  case fetchFilled f b hub src res hf =>
    simp only [Fetch.step_servedBytes hf, Stage.unserved, le_refl]
  case rename src res =>
    simp only [filledBytes, Stage.unserved, List.map_append, List.sum_append, List.map_cons,
      List.map_nil, List.sum_cons, List.sum_nil]
    omega
  case wake leader out hw =>
    simp only [Stage.unserved]
    omega
  case book src res =>
    cases src <;> exact le_rfl
  case release slot out => cases out <;> exact le_rfl
  case finish out => cases out <;> exact le_rfl
  case serveHit file =>
    simp only [Stage.unserved]
    omega
  case serveMiss res =>
    simp only [Stage.unserved]
    omega
  all_goals exact le_rfl

theorem Node.Serving.step {n n' : Node} {b : NodeAct} (hn : n.Serving)
    (hstep : n.step cfg b = some n') : n'.Serving := by
  cases Node.step_moves hstep with
  | arrive req =>
    rw [Node.Serving] at hn ⊢
    simpa [Stage.unserved] using hn
  | @disconnect t th ht =>
    rw [Node.Serving] at hn ⊢
    have hsum := sum_set ht (fun th => th.stage.unserved) { th with connected := false }
    simp only at hsum ⊢
    omega
  | @thread t th a sh stage ht hm =>
    rw [Node.Serving] at hn ⊢
    have hserves := hm.serves
    have hsum := sum_set ht (fun th => th.stage.unserved) { th with stage := stage }
    simp only at hsum ⊢
    omega
  | @background _ hub _ hsem hl =>
    have hserved : hub.metrics.servedBytes = n.shared.hub.metrics.servedBytes :=
      congrArg Metrics.Ledger.servedBytes hl
    rw [Node.Serving] at hn ⊢
    simpa only [hserved] using hn
  | restart b =>
    rw [Node.Serving]
    simp [Shared.boot, Shared.fresh, filledBytes]

/-! ### A node at rest -/

/-- The fills of the peers. -/
def peerFills (fills : List Fill) : List Fill := fills.filter (·.src = .race .srcPeer)

/-- The fills that came over the WAN. -/
def wanFills (fills : List Fill) : List Fill := fills.filter (·.src ≠ .race .srcPeer)

/-- Every fill is counted once in `misses` and its bytes once in `wan_bytes` or `peer_bytes`,
and nothing else is. -/
structure Node.Balanced (n : Node) : Prop where
  misses : n.shared.hub.metrics.misses = n.shared.fills.length
  wanBytes : n.shared.hub.metrics.wanBytes = filledBytes (wanFills n.shared.fills)
  peerBytes : n.shared.hub.metrics.peerBytes = filledBytes (peerFills n.shared.fills)
  peerHits : n.shared.hub.metrics.peerHits = (peerFills n.shared.fills).length
  total : n.shared.hub.metrics.wanBytes + n.shared.hub.metrics.peerBytes =
    filledBytes n.shared.fills
  hits_le : n.shared.hub.metrics.peerHits ≤ n.shared.hub.metrics.misses
  rate_le : n.shared.hub.metrics.effectiveHitRate ≤ 1
  saved : 0 ≤ n.shared.hub.metrics.wanBytesSaved

theorem due_misses (fills : List Fill) : Account.misses.due fills = fills.length := by
  simp [Account.due, Account.misses]

theorem due_wanBytes (fills : List Fill) :
    Account.wanBytes.due fills = filledBytes (wanFills fills) := by
  induction fills with
  | nil => rfl
  | cons f rest ih =>
    obtain ⟨tid, name, src, body⟩ := f
    rw [Account.due, filledBytes, wanFills] at ih ⊢
    rcases src with _ | _ | _ <;> simp [Account.wanBytes] at ih ⊢ <;> omega

theorem due_peerBytes (fills : List Fill) :
    Account.peerBytes.due fills = filledBytes (peerFills fills) := by
  induction fills with
  | nil => rfl
  | cons f rest ih =>
    obtain ⟨tid, name, src, body⟩ := f
    rw [Account.due, filledBytes, peerFills] at ih ⊢
    rcases src with _ | _ | _ <;> simp [Account.peerBytes] at ih ⊢ <;> omega

theorem due_peerHits (fills : List Fill) :
    Account.peerHits.due fills = (peerFills fills).length := by
  induction fills with
  | nil => rfl
  | cons f rest ih =>
    obtain ⟨tid, name, src, body⟩ := f
    rw [Account.due, peerFills] at ih ⊢
    rcases src with _ | _ | _ <;> simp [Account.peerHits] at ih ⊢ <;> omega

theorem filledBytes_split (fills : List Fill) :
    filledBytes (wanFills fills) + filledBytes (peerFills fills) = filledBytes fills := by
  induction fills with
  | nil => rfl
  | cons f rest ih =>
    obtain ⟨tid, name, src, body⟩ := f
    rw [filledBytes, filledBytes, filledBytes, wanFills, peerFills] at ih ⊢
    rcases src with _ | _ | _ <;> simp at ih ⊢ <;> omega

/-- A weight that an ended thread does not have adds up to nothing at rest. -/
theorem Node.Quiet.sum_eq_zero {n : Node} (hquiet : n.Quiet) {w : Stage → ℕ}
    (hdone : ∀ resp, w (.done resp) = 0) (hkilled : w .killed = 0) :
    (n.threads.map fun th => w th.stage).sum = 0 := by
  refine List.sum_eq_zero fun x hx => ?_
  obtain ⟨th, hth, rfl⟩ := List.mem_map.mp hx
  have hended := hquiet th hth
  cases hst : th.stage with
  | done resp => exact hdone resp
  | killed => exact hkilled
  | _ =>
    rw [hst] at hended
    cases hended

/-- At rest, a conserved counter is what the fills come to. -/
theorem Account.Conserved.quiet {A : Account} {n : Node} (hn : A.Conserved n) (hquiet : n.Quiet) :
    A.counter n.shared.hub.metrics.ledger = A.due n.shared.fills := by
  rw [Account.Conserved, hquiet.sum_eq_zero (fun _ => rfl) rfl,
    hquiet.sum_eq_zero (fun _ => rfl) rfl] at hn
  exact hn

/-- **Fill accounting is conserved**, where the body of every race that is won is cached:
at rest, each fill is counted once and its bytes once, and failed fills not at all. -/
theorem fills_booked {as : List NodeAct} {n : Node}
    (hwin : Along (Node.step cfg) Node.KeepsWins (Node.init cfg) as)
    (h : exec (Node.step cfg) (Node.init cfg) as = some n) (hquiet : n.Quiet) : n.Balanced := by
  have hconserved : ∀ A : Account, A.Conserved n := fun A =>
    exec_invariant A.Conserved (fun hs hok hstep => hs.step hok hstep) (A.conserved_init cfg) hwin h
  have hserving : n.Serving :=
    exec_always Node.Serving (fun hs hstep => hs.step hstep)
      (by simp [Node.Serving, Node.init, Shared.fresh, filledBytes]) h
  have hmisses := (hconserved .misses).quiet hquiet
  have hwan := (hconserved .wanBytes).quiet hquiet
  have hpeer := (hconserved .peerBytes).quiet hquiet
  have hhits := (hconserved .peerHits).quiet hquiet
  rw [due_misses] at hmisses
  rw [due_wanBytes] at hwan
  rw [due_peerBytes] at hpeer
  rw [due_peerHits] at hhits
  have hsplit := filledBytes_split n.shared.fills
  have hle : n.shared.hub.metrics.peerHits ≤ n.shared.hub.metrics.misses := by
    change n.shared.hub.metrics.peerHits = _ at hhits
    change n.shared.hub.metrics.misses = _ at hmisses
    rw [hhits, hmisses]
    exact List.length_filter_le _ _
  refine ⟨hmisses, hwan, hpeer, hhits, ?_, hle, ?_, ?_⟩
  · change n.shared.hub.metrics.wanBytes = _ at hwan
    change n.shared.hub.metrics.peerBytes = _ at hpeer
    rw [hwan, hpeer, hsplit]
  · exact Metrics.rate_le_one (Nat.add_le_add_left hle _)
  · rw [Node.Serving, hquiet.sum_eq_zero (fun _ => rfl) rfl] at hserving
    change n.shared.hub.metrics.wanBytes = _ at hwan
    rw [Metrics.wanBytesSaved, hwan]
    omega

/-- A node with one peer. -/
def Config.paired : Config := { Config.lone with peers := [lit "p"] }

/-- A request finds its range at the peer and wins its body. -/
def winning (t : Tid) (body : Bytes) : List NodeAct :=
  [.thread t (.fetch (.begin 0)), .thread t (.fetch (.head (lit "p") (.reply ⟨200, [], .full []⟩))),
    .thread t (.fetch .found), .thread t (.fetch (.race (.peer (.reply ⟨206, [], .full body⟩)))),
    .thread t (.fetch (.race .recvPeer)), .thread t (.fetch (.settle 0))]

theorem fills_booked_peer :
    ∃ n, exec (Node.step .paired) (Node.init .paired)
        (missing 0 [120] ++ winning 0 [7] ++ caching 0 ++ ending 0) = some n ∧
      n.Balanced ∧ n.shared.hub.metrics.peerHits = 1 := by
  obtain ⟨n, hn, hp⟩ := exec_of_any (Node.step .paired) (Node.init .paired)
    (missing 0 [120] ++ winning 0 [7] ++ caching 0 ++ ending 0)
    (fun n => n.Quiet ∧ n.shared.hub.metrics.peerHits = 1) (by decide +kernel)
  obtain ⟨hquiet, hhits⟩ := of_decide_eq_true hp
  exact ⟨n, hn, fills_booked (by decide +kernel) hn hquiet, hhits⟩

/-- A peer's body that is won and then not written stays booked as a hit that was no miss. -/
theorem lost_write_is_booked :
    ∃ n, exec (Node.step .paired) (Node.init .paired)
        (missing 0 [120] ++ winning 0 [7] ++ [.thread 0 (.write (some (lit "disk full")))] ++
          ending 0) = some n ∧
      n.Quiet ∧ n.shared.fills = [] ∧ n.shared.hub.metrics.misses = 0 ∧
      n.shared.hub.metrics.peerHits = 1 ∧ n.shared.hub.metrics.peerBytes = 1 ∧ ¬ n.Balanced := by
  obtain ⟨n, hn, hp⟩ := exec_of_any (Node.step .paired) (Node.init .paired)
    (missing 0 [120] ++ winning 0 [7] ++ [.thread 0 (.write (some (lit "disk full")))] ++
      ending 0)
    (fun n => n.Quiet ∧ n.shared.fills = [] ∧ n.shared.hub.metrics.misses = 0 ∧
      n.shared.hub.metrics.peerHits = 1 ∧ n.shared.hub.metrics.peerBytes = 1) (by decide +kernel)
  obtain ⟨hquiet, hfills, hmisses, hhits, hbytes⟩ := of_decide_eq_true hp
  refine ⟨n, hn, hquiet, hfills, hmisses, hhits, hbytes, fun hbal => ?_⟩
  have := hbal.hits_le
  omega

end XetDcCache
