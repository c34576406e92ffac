/-
The requests nodes send to each other (peer_fetch.go, peer_keepalive.go, xorb.go).

`Traffic` is any number of nodes with the requests they have sent to siblings: of a race
(`peerGet`), of a probe (`headProbe`) and of the keepalive loop (`pingPeer`).  The network
delivers such a request at any node, at any time or never.  Every request has a `Trail`: the
client's request it descends from, and the hops since.

* `Stage.Moves.sibling` — a sibling's request looks at the disk, and at nothing else;
* `Traffic.Kept.exec` — what every run keeps: who sends and who answers, and how many
  requests a fetch may still send;
* `peer_traffic_bounded` — no request of a sibling sends another, and nobody waits in a circle.
-/
import XetDcCache.Fleet
import XetDcCache.FetchSlots
import Mathlib.Logic.Relation

namespace XetDcCache

open Transition

/-! ### Requests to siblings -/

/-- A request to a sibling: for a xorb, or `HEAD /healthz` with or without `X-Xet-Peer`. -/
inductive PeerCall
  | xorb (req : Request)
  | healthz (isPeer : Bool)
deriving DecidableEq, Repr

def PeerCall.isPeer : PeerCall → Bool
  | .xorb req => req.isPeer
  | .healthz isPeer => isPeer

/-- The client's request a request descends from, if any, and the hops since. -/
structure Trail (ι : Type*) where
  root : Option (ι × Tid)
  hops : ℕ
deriving DecidableEq

/-- A request on its way or delivered; `sender` is the thread that sent it, none for the
keepalive loop, and `callee` the thread that handles it. -/
structure Message (ι : Type*) where
  sender : Option (ι × Tid)
  base : Url
  call : PeerCall
  trail : Trail ι
  callee : Option (ι × Tid)
deriving DecidableEq

/-- The requests a step of a fetch sends: those of the race or of the probe it starts. -/
def Fetch.sends (req : Request) : Fetch → Fetch → List (Url × Request)
  | .racing _ _ _, .racing _ _ _ => []
  | _, .racing _ base _ => [(base, req.toPeer .get)]
  | .probing _ _, .probing _ _ => []
  | _, .probing pending _ => pending.map fun base => (base, req.toPeer .head)
  | _, _ => []

def Stage.sends (req : Request) : Stage → Stage → List (Url × Request)
  | .fetch f, .fetch f' => f.sends req f'
  | _, _ => []

/-- The nodes, where their requests come from, and all they have sent to siblings. -/
structure Traffic (ι : Type*) where
  nodes : ι → Node
  trail : ι → Tid → Trail ι
  sent : List (Message ι)

/-- `deliver k j` hands the `k`-th request to the node its base url leads to. -/
inductive TrafficAct (ι : Type*)
  | client (i : ι) (req : Request)
  | deliver (k : ℕ) (j : ι)
  | ping (i : ι) (base : Url)
  | node (i : ι) (b : NodeAct)

namespace Traffic

variable {ι : Type*} [DecidableEq ι]

def init (cfg : ι → Config) : Traffic ι := ⟨fun i => .init (cfg i), fun _ _ => ⟨none, 0⟩, []⟩

/-- A request arrives at a node. -/
def arrive (s : Traffic ι) (i : ι) (req : Request) (trail : Trail ι) : Traffic ι :=
  { s with
    nodes := Function.update s.nodes i
      { s.nodes i with threads := (s.nodes i).threads ++ [⟨req, .check, true⟩] }
    trail := Function.update s.trail i
      (Function.update (s.trail i) (s.nodes i).threads.length trail) }

/-- What a step of a node sends: one hop further than the request it handles. -/
def emits (s : Traffic ι) (i : ι) (n : Node) : NodeAct → List (Message ι)
  | .thread t _ =>
    match (s.nodes i).threads[t]?, n.threads[t]? with
    | some th, some th' =>
      (th.stage.sends th.req th'.stage).map fun q =>
        ⟨some (i, t), q.1, .xorb q.2, ⟨(s.trail i t).root, (s.trail i t).hops + 1⟩, none⟩
    | _, _ => []
  | _ => []

/-- `pingPeer`, one hop from no request at all. -/
def pingPeer (base : Url) : Message ι := ⟨none, base, .healthz true, ⟨none, 1⟩, none⟩

def step (cfg : ι → Config) (s : Traffic ι) : TrafficAct ι → Option (Traffic ι)
  | .client i req => some (s.arrive i req ⟨some (i, (s.nodes i).threads.length), 0⟩)
  | .deliver k j =>
    match s.sent[k]? with
    | some ⟨sender, base, .xorb req, trail, none⟩ =>
      some { s.arrive j req trail with
        sent := s.sent.set k
          ⟨sender, base, .xorb req, trail, some (j, (s.nodes j).threads.length)⟩ }
    | _ => none
  | .ping i base =>
    if base ∈ (cfg i).peers then some { s with sent := s.sent ++ [pingPeer base] } else none
  -- requests arrive as `client` and `deliver` say
  | .node _ (.arrive _) => none
  | .node i b =>
    match (s.nodes i).step (cfg i) b with
    | none => none
    | some n =>
      some { s with
        nodes := Function.update s.nodes i n
        sent := s.sent ++ s.emits i n b }

/-- The requests sent on behalf of a client's request. -/
def onBehalf (s : Traffic ι) (x : ι × Tid) : ℕ := s.sent.countP fun m => m.trail.root = some x

end Traffic

/-! ### A request of a sibling -/

/-- Where `getXorb` can be with a request of a sibling. -/
def Stage.looksUp : Stage → Bool
  | .check | .headHit | .hit _ | .serve _ | .done _ | .killed => true
  | _ => false

section Steps

variable {cfg : Config} {t : Tid} {req : Request} {connected : Bool} {sh sh' : Shared}
  {st st' : Stage} {a : Act}

/-- A sibling's request pulls from no upstream, takes no slot and starts no flight. -/
theorem Stage.Moves.sibling (h : st.Moves cfg t req connected sh a sh' st') (hpeer : req.isPeer)
    (hst : st.looksUp) :
    st'.looksUp ∧ a.upstream = none ∧ sh'.flights = sh.flights ∧ sh'.hub.sem = sh.hub.sem ∧
      sh'.hub.orphans = sh.hub.orphans := by
  cases h
  case miss ok hr hm hp hd => exact absurd hpeer hp
  all_goals first
    | exact ⟨rfl, rfl, rfl, rfl, rfl⟩
    | cases hst

/-! ### What a fetch may still send -/

/-- How many requests a fetch may still send, by the number of siblings. -/
def Fetch.budget (peers : ℕ) : Fetch → ℕ
  | .enter => 2 + peers
  | .racing .sticky _ _ | .settle .sticky _ _ => 1 + peers
  | .probing _ _ => 1
  | _ => 0

def Stage.budget (peers : ℕ) : Stage → ℕ
  | .check | .join => 2 + peers
  | .fetch f => f.budget peers
  | _ => 0

theorem Stage.budget_kill (peers : ℕ) (st : Stage) : st.kill.budget peers = 0 := by
  cases st <;> rfl

theorem Stage.looksUp_kill (st : Stage) : st.kill.looksUp := by
  cases st <;> rfl

/-- A race costs one request, a probe one for every sibling. -/
theorem Fetch.step_sends {cancelled : Bool} {hub hub' : Hub} {f f' : Fetch} {b : FetchAct}
    (h : f.step cfg t cancelled req.byteRange hub b = some (hub', .go f')) :
    (f.sends req f').length + f'.budget cfg.peers.length ≤ f.budget cfg.peers.length := by
  revert h
  fun_cases Fetch.step cfg t cancelled req.byteRange hub f b
  case case5 leg base r a hub'' r' hr =>
    intro h
    cases h
    cases leg <;> simp [Fetch.sends, Fetch.budget]
  case case6 leg base r a hub'' out orphan hr =>
    intro h
    cases h
    cases leg <;> simp [Fetch.sends, Fetch.budget]
  all_goals
    intro h
    cases h
  all_goals
    simp only [Fetch.sends, Fetch.budget, List.length_nil, List.length_singleton, List.length_map]
    omega

theorem Stage.Moves.sends (h : st.Moves cfg t req connected sh a sh' st') :
    (st.sends req st').length + st'.budget cfg.peers.length ≤ st.budget cfg.peers.length := by
  cases h
  case fetchGo hf => exact Fetch.step_sends hf
  all_goals simp [Stage.sends, Stage.budget, Fetch.budget]

theorem Stage.sends_of_looksUp (hst : st.looksUp) : st.sends req st' = [] := by
  cases st with
  | fetch f => cases hst
  | _ => rfl

/-- What a fetch sends carries `X-Xet-Peer`. -/
theorem Stage.isPeer_of_sends {q : Url × Request} (hq : q ∈ st.sends req st') : q.2.isPeer := by
  revert hq
  fun_cases Stage.sends req st st'
  case case1 f f' =>
    fun_cases Fetch.sends req f f' <;> simp only [List.mem_singleton, List.mem_map,
      List.not_mem_nil, false_imp_iff]
    · rintro rfl
      rfl
    · rintro ⟨base, -, rfl⟩
      rfl
  case case2 => exact nofun

end Steps

/-- What a step of a node other than an arrival makes of a thread. -/
theorem Node.step_thread {cfg : Config} {n n' : Node} {b : NodeAct} {u : Tid} {th' : Thread}
    (hb : ∀ req, b ≠ .arrive req) (hstep : n.step cfg b = some n')
    (hu : n'.threads[u]? = some th') :
    ∃ th, n.threads[u]? = some th ∧ th'.req = th.req ∧
      ((∀ a, b ≠ .thread u a) ∧ (th'.stage = th.stage ∨ th'.stage = th.stage.kill) ∨
        ∃ a, b = .thread u a ∧
          th.stage.Moves cfg u th.req th.connected n.shared a n'.shared th'.stage) := by
  cases Node.step_moves hstep with
  | arrive req => exact absurd rfl (hb req)
  | @disconnect t th ht =>
    rcases get_set hu with ⟨rfl, rfl⟩ | ⟨-, hu⟩
    · exact ⟨th, ht, rfl, Or.inl ⟨nofun, Or.inl rfl⟩⟩
    · exact ⟨th', hu, rfl, Or.inl ⟨nofun, Or.inl rfl⟩⟩
  | @thread t th a sh stage ht hm =>
    rcases get_set hu with ⟨rfl, rfl⟩ | ⟨hne, hu⟩
    · exact ⟨th, ht, rfl, Or.inr ⟨a, rfl, hm⟩⟩
    · refine ⟨th', hu, rfl, Or.inl ⟨fun a h => ?_, Or.inl rfl⟩⟩
      cases h
      exact hne rfl
  | background ha =>
    refine ⟨th', hu, rfl, Or.inl ⟨fun a h => ?_, Or.inl rfl⟩⟩
    rcases ha with ⟨i, x, rfl⟩ | ⟨i, rfl⟩ <;> cases h
  | restart x =>
    obtain ⟨th, hth, rfl⟩ := get_kill hu
    exact ⟨th, hth, rfl, Or.inl ⟨nofun, Or.inr rfl⟩⟩

theorem Node.step_length {cfg : Config} {n n' : Node} {b : NodeAct}
    (hb : ∀ req, b ≠ .arrive req) (hstep : n.step cfg b = some n') :
    n'.threads.length = n.threads.length := by
  cases Node.step_moves hstep with
  | arrive req => exact absurd rfl (hb req)
  | background => rfl
  | disconnect | thread => exact List.length_set
  | restart => exact List.length_map _

/-- A thread keeps its request. -/
theorem Node.step_req {cfg : Config} {n n' : Node} {b : NodeAct} {u : Tid} {th : Thread}
    (hb : ∀ req, b ≠ .arrive req) (hstep : n.step cfg b = some n')
    (hu : n.threads[u]? = some th) : ∃ th', n'.threads[u]? = some th' ∧ th'.req = th.req := by
  have hlt : u < n'.threads.length := by
    rw [Node.step_length hb hstep]
    exact (List.getElem?_eq_some_iff.mp hu).1
  obtain ⟨th₀, h₀, hreq, -⟩ := Node.step_thread hb hstep (List.getElem?_eq_getElem hlt)
  rw [hu, Option.some_inj] at h₀
  exact ⟨_, List.getElem?_eq_getElem hlt, hreq.trans (congrArg Thread.req h₀.symm)⟩

/-! ### What every run keeps -/

namespace Traffic

variable {ι : Type*}

/-- A thread that is no sibling's is at hop zero; what was sent for it and what it may still
send are two requests and one for every sibling. -/
structure KeptThread [DecidableEq ι] (cfg : ι → Config) (s : Traffic ι) (i : ι) (t : Tid)
    (th : Thread) : Prop where
  trail : th.req.isPeer = false → s.trail i t = ⟨some (i, t), 0⟩
  stage : th.req.isPeer → th.stage.looksUp
  budget : s.onBehalf (i, t) + th.stage.budget (cfg i).peers.length ≤ 2 + (cfg i).peers.length

/-- The thread exists and handles a request that has, or has not, the header of a sibling. -/
def Handles (s : Traffic ι) (isPeer : Bool) (x : ι × Tid) : Prop :=
  ∃ th, (s.nodes x.1).threads[x.2]? = some th ∧ th.req.isPeer = isPeer

/-- A request to a sibling says so; it is one hop from the thread that sent it, which handles
none of these itself. -/
structure KeptMessage (s : Traffic ι) (m : Message ι) : Prop where
  isPeer : m.call.isPeer
  hops : m.trail.hops = 1
  root : m.trail.root = m.sender
  sender : ∀ x ∈ m.sender, s.Handles false x
  callee : ∀ x ∈ m.callee, s.Handles true x

structure Kept [DecidableEq ι] (cfg : ι → Config) (s : Traffic ι) : Prop where
  base : ∀ i, (s.nodes i).Base (cfg i)
  thread : ∀ {i t th}, (s.nodes i).threads[t]? = some th → s.KeptThread cfg i t th
  message : ∀ m ∈ s.sent, s.KeptMessage m

/-- What was sent stays as it was if the threads keep their requests. -/
theorem KeptMessage.mono {s s' : Traffic ι} {m : Message ι} (h : s.KeptMessage m)
    (hs : ∀ b x, s.Handles b x → s'.Handles b x) : s'.KeptMessage m :=
  ⟨h.isPeer, h.hops, h.root, fun x hx => hs _ _ (h.sender x hx),
    fun x hx => hs _ _ (h.callee x hx)⟩

variable [DecidableEq ι] {cfg : ι → Config} {s s' : Traffic ι}

theorem kept_init (cfg : ι → Config) : (init cfg).Kept cfg where
  base i := base_init (cfg i)
  thread := by simp [init, Node.init]
  message := by simp [init]

/-- The thread an arrival starts, and the others. -/
theorem arrive_thread {i j : ι} {req : Request} {trail : Trail ι} {u : Tid} {th : Thread}
    (hu : ((s.arrive i req trail).nodes j).threads[u]? = some th) :
    (s.nodes j).threads[u]? = some th ∧ (s.arrive i req trail).trail j u = s.trail j u ∨
      j = i ∧ u = (s.nodes i).threads.length ∧ th = ⟨req, .check, true⟩ ∧
        (s.arrive i req trail).trail j u = trail := by
  by_cases hj : j = i
  · subst hj
    simp only [arrive, Function.update_self] at hu ⊢
    rcases get_append hu with hu | ⟨rfl, rfl⟩
    · refine Or.inl ⟨hu, Function.update_of_ne (ne_of_lt ?_) _ _⟩
      exact (List.getElem?_eq_some_iff.mp hu).1
    · exact Or.inr ⟨trivial, rfl, rfl, Function.update_self _ _ _⟩
  · simp only [arrive, Function.update_of_ne hj] at hu ⊢
    exact Or.inl ⟨hu, trivial⟩

theorem Handles.arrive {b : Bool} {x : ι × Tid} (h : s.Handles b x) (i : ι) (req : Request)
    (trail : Trail ι) : (s.arrive i req trail).Handles b x := by
  obtain ⟨th, ht, hreq⟩ := h
  refine ⟨th, ?_, hreq⟩
  by_cases hx : x.1 = i
  · subst hx
    simp only [Traffic.arrive, Function.update_self]
    rw [List.getElem?_append_left (List.getElem?_eq_some_iff.mp ht).1, ht]
  · simp only [Traffic.arrive, Function.update_of_ne hx, ht]

/-- A thread that has just arrived. -/
theorem handles_arrived (s : Traffic ι) (i : ι) (req : Request) (trail : Trail ι) :
    (s.arrive i req trail).Handles req.isPeer (i, (s.nodes i).threads.length) :=
  ⟨⟨req, .check, true⟩, by simp [arrive], rfl⟩

/-- Nothing was sent yet for a thread that does not exist. -/
theorem Kept.onBehalf_eq_zero (hs : s.Kept cfg) (i : ι) :
    s.onBehalf (i, (s.nodes i).threads.length) = 0 := by
  refine List.countP_eq_zero.mpr fun m hm hroot => ?_
  have hm' := hs.message m hm
  obtain ⟨th, hth, -⟩ := hm'.sender (i, (s.nodes i).threads.length)
    (hm'.root ▸ of_decide_eq_true hroot)
  exact absurd (List.getElem?_eq_some_iff.mp hth).1 (lt_irrefl _)

/-- A request arrives at a node: a client's, or one of a sibling. -/
theorem Kept.arrive (hs : s.Kept cfg) {i : ι} {req : Request} {trail : Trail ι}
    (htrail : req.isPeer = false → trail = ⟨some (i, (s.nodes i).threads.length), 0⟩) :
    (s.arrive i req trail).Kept cfg where
  base j := by
    by_cases hj : j = i
    · subst hj
      simp only [Traffic.arrive, Function.update_self]
      exact (hs.base j).step (b := .arrive req) rfl
    · simp only [Traffic.arrive, Function.update_of_ne hj]
      exact hs.base j
  thread := by
    intro j u th hu
    rcases arrive_thread hu with ⟨hu, ht⟩ | ⟨rfl, rfl, rfl, ht⟩
    · have hth := hs.thread hu
      exact ⟨fun h => ht.trans (hth.trail h), hth.stage, hth.budget⟩
    · refine ⟨fun h => ht.trans (htrail h), fun _ => rfl, ?_⟩
      show s.onBehalf (j, (s.nodes j).threads.length) + (2 + (cfg j).peers.length) ≤ _
      rw [hs.onBehalf_eq_zero j, Nat.zero_add]
  message m hm := (hs.message m hm).mono fun _ _ h => h.arrive i req trail

/-- Delivered or not, a message counts for the same request. -/
theorem countP_set {m : Message ι} {k : ℕ} {l : List (Message ι)} (hk : l[k]? = some m)
    (m' : Message ι) (htrail : m'.trail = m.trail) (x : ι × Tid) :
    (l.set k m').countP (fun m => m.trail.root = some x) =
      l.countP fun m => m.trail.root = some x := by
  induction l generalizing k with
  | nil => cases hk
  | cons y rest ih =>
    cases k with
    | zero =>
      cases hk
      rw [List.set_cons_zero, List.countP_cons, List.countP_cons, htrail]
    | succ k => rw [List.set_cons_succ, List.countP_cons, List.countP_cons, ih (by simpa using hk)]

theorem Kept.deliver (hs : s.Kept cfg) {k : ℕ} {j : ι} {sender : Option (ι × Tid)} {base : Url}
    {req : Request} {trail : Trail ι}
    (hk : s.sent[k]? = some ⟨sender, base, .xorb req, trail, none⟩) :
    Kept cfg { s.arrive j req trail with
      sent := s.sent.set k
        ⟨sender, base, .xorb req, trail, some (j, (s.nodes j).threads.length)⟩ } := by
  have hm := hs.message _ (List.mem_of_getElem? hk)
  have hpeer : req.isPeer = true := hm.isPeer
  have harr : (s.arrive j req trail).Kept cfg := hs.arrive (by simp [hpeer])
  refine ⟨harr.base, fun {i t th} ht => ?_, fun m hmem => ?_⟩
  · have hth := harr.thread ht
    have hcount := countP_set hk
      ⟨sender, base, .xorb req, trail, some (j, (s.nodes j).threads.length)⟩ rfl (i, t)
    exact ⟨hth.trail, hth.stage, (congrArg (· + _) hcount).trans_le hth.budget⟩
  · rcases List.mem_or_eq_of_mem_set hmem with hmem | rfl
    · have := harr.message m hmem
      exact ⟨this.isPeer, this.hops, this.root, this.sender, this.callee⟩
    · refine ⟨hm.isPeer, hm.hops, hm.root, fun x hx => (hm.sender x hx).arrive j req trail,
        ?_⟩
      rintro x hx
      cases hx
      exact hpeer ▸ handles_arrived s j req trail

theorem Kept.ping (hs : s.Kept cfg) (base : Url) :
    Kept cfg { s with sent := s.sent ++ [pingPeer base] } := by
  refine ⟨hs.base, fun {i t th} ht => ?_, fun m hm => ?_⟩
  · have hth := hs.thread ht
    refine ⟨hth.trail, hth.stage, ?_⟩
    rw [onBehalf, List.countP_append]
    exact hth.budget
  · rcases List.mem_append.mp hm with hm | hm
    · exact (hs.message m hm).mono fun _ _ => id
    · rw [List.mem_singleton.mp hm]
      exact ⟨rfl, rfl, rfl, nofun, nofun⟩

theorem handles_node {i : ι} {n : Node} {b : NodeAct} (hb : ∀ req, b ≠ .arrive req)
    (hstep : (s.nodes i).step (cfg i) b = some n) {sent : List (Message ι)} {isPeer : Bool}
    {x : ι × Tid} (h : s.Handles isPeer x) :
    Handles ⟨Function.update s.nodes i n, s.trail, sent⟩ isPeer x := by
  obtain ⟨th, ht, hreq⟩ := h
  by_cases hx : x.1 = i
  · subst hx
    obtain ⟨th', ht', hreq'⟩ := Node.step_req hb hstep ht
    exact ⟨th', by simpa using ht', hreq' ▸ hreq⟩
  · exact ⟨th, by simpa [Function.update_of_ne hx] using ht, hreq⟩

/-- A step sends only for the thread it moves, and that one handles no sibling's request. -/
theorem Kept.emits (hs : s.Kept cfg) {i : ι} {n : Node} {b : NodeAct} {m : Message ι}
    (hm : m ∈ s.emits i n b) :
    ∃ t, (∃ a, b = .thread t a) ∧ s.Handles false (i, t) ∧ m.call.isPeer ∧
      m.sender = some (i, t) ∧ m.trail = ⟨some (i, t), 1⟩ ∧ m.callee = none := by
  revert hm
  fun_cases Traffic.emits s i n b
  case case1 t a th th' ht' ht =>
    intro hm
    obtain ⟨q, hq, rfl⟩ := List.mem_map.mp hm
    have hth := hs.thread ht
    have hpeer : th.req.isPeer = false := by
      by_contra hp
      rw [Stage.sends_of_looksUp (hth.stage (by simpa using hp))] at hq
      cases hq
    refine ⟨t, ⟨a, rfl⟩, ⟨th, ht, hpeer⟩, Stage.isPeer_of_sends hq, rfl, ?_, rfl⟩
    rw [hth.trail hpeer]
  all_goals exact nofun

omit [DecidableEq ι] in
/-- What a step of a node sends for a thread. -/
theorem emits_thread {i : ι} {n : Node} {t : Tid} {a : Act}
    {th th' : Thread} (ht : (s.nodes i).threads[t]? = some th) (ht' : n.threads[t]? = some th')
    (hm : th.stage.Moves (cfg i) t th.req th.connected (s.nodes i).shared a n.shared th'.stage) :
    (s.emits i n (.thread t a)).length + th'.stage.budget (cfg i).peers.length ≤
      th.stage.budget (cfg i).peers.length := by
  rw [Traffic.emits, ht, ht']
  show (List.map _ _).length + _ ≤ _
  rw [List.length_map]
  exact hm.sends

theorem Kept.node (hs : s.Kept cfg) {i : ι} {n : Node} {b : NodeAct} (hb : ∀ req, b ≠ .arrive req)
    (hstep : (s.nodes i).step (cfg i) b = some n) :
    Kept cfg ⟨Function.update s.nodes i n, s.trail, s.sent ++ s.emits i n b⟩ := by
  refine ⟨fun j => ?_, fun {j t th'} ht' => ?_, fun m hm => ?_⟩
  · by_cases hj : j = i
    · subst hj
      show Node.Base (cfg j) (Function.update s.nodes j n j)
      rw [Function.update_self]
      exact (hs.base j).step hstep
    · show Node.Base (cfg j) (Function.update s.nodes i n j)
      rw [Function.update_of_ne hj]
      exact hs.base j
  · have hsum : onBehalf ⟨Function.update s.nodes i n, s.trail, s.sent ++ s.emits i n b⟩ (j, t) =
        s.onBehalf (j, t) + (s.emits i n b).countP fun m => m.trail.root = some (j, t) :=
      List.countP_append
    -- nothing is sent for a thread that does not move
    have hnone : (j = i → ∀ a, b ≠ .thread t a) →
        (s.emits i n b).countP (fun m => m.trail.root = some (j, t)) = 0 := by
      intro hne
      refine List.countP_eq_zero.mpr fun m hm hroot => ?_
      obtain ⟨u, ⟨a, rfl⟩, -, -, -, htrail, -⟩ := hs.emits hm
      simp only [htrail, decide_eq_true_eq, Option.some_inj, Prod.mk.injEq] at hroot
      obtain ⟨rfl, rfl⟩ := hroot
      exact hne rfl a rfl
    by_cases hj : j = i
    · subst hj
      simp only [Function.update_self] at ht'
      obtain ⟨th, ht, hreq, ⟨hne, hst⟩ | ⟨a, rfl, hmove⟩⟩ := Node.step_thread hb hstep ht'
      · have hth := hs.thread ht
        refine ⟨fun h => hth.trail (hreq ▸ h), fun h => ?_, ?_⟩
        · rcases hst with hst | hst
          · exact hst ▸ hth.stage (hreq ▸ h)
          · exact hst ▸ Stage.looksUp_kill th.stage
        · rw [hsum, hnone fun _ => hne, Nat.add_zero]
          refine le_trans (Nat.add_le_add_left ?_ _) hth.budget
          rcases hst with hst | hst
          · rw [hst]
          · rw [hst, Stage.budget_kill]
            exact Nat.zero_le _
      · have hth := hs.thread ht
        refine ⟨fun h => hth.trail (hreq ▸ h), fun h => ?_, ?_⟩
        · rw [hreq] at h
          exact (hmove.sibling h (hth.stage h)).1
        · have hlen := emits_thread ht ht' hmove
          have hle : (s.emits j n (.thread t a)).countP (fun m => m.trail.root = some (j, t)) ≤
            (s.emits j n (.thread t a)).length := List.countP_le_length
          have := hth.budget
          rw [hsum]
          omega
    · simp only [Function.update_of_ne hj] at ht'
      have hth := hs.thread ht'
      refine ⟨hth.trail, hth.stage, ?_⟩
      rw [hsum, hnone fun h => absurd h hj, Nat.add_zero]
      exact hth.budget
  · rcases List.mem_append.mp hm with hm | hm
    · exact (hs.message m hm).mono fun _ _ => handles_node hb hstep
    · obtain ⟨t, -, hsend, hpeer, hsender, htrail, hcallee⟩ := hs.emits hm
      refine ⟨hpeer, by rw [htrail], by rw [htrail, hsender], fun x hx => ?_, fun x hx => ?_⟩
      · rw [hsender, Option.mem_some_iff] at hx
        subst hx
        exact handles_node hb hstep hsend
      · rw [hcallee] at hx
        cases hx

theorem Kept.step {b : TrafficAct ι} (hs : s.Kept cfg) (h : s.step cfg b = some s') :
    s'.Kept cfg := by
  revert h
  fun_cases Traffic.step cfg s b
  all_goals
    intro h
    cases h
  case case1 i req => exact hs.arrive fun _ => rfl
  case case2 k j sender base req trail hk => exact hs.deliver hk
  case case4 i base hbase => exact hs.ping base
  case case8 i b hb n hn => exact hs.node hb hn

theorem Kept.exec {as : List (TrafficAct ι)}
    (h : Transition.exec (Traffic.step cfg) (init cfg) as = some s) :
    s.Kept cfg :=
  exec_always (Kept cfg) (fun hs hstep => hs.step hstep) (kept_init cfg) h

end Traffic

/-! ### Who waits for whom -/

/-- The thread waits for siblings. -/
def Stage.asks : Stage → Bool
  | .fetch (.racing _ _ _) | .fetch (.probing _ _) => true
  | _ => false

/-- A thread waits only for threads of a lower rank. -/
def Stage.waitRank : Stage → ℕ
  | .wait _ => 4
  | .fetch .blocked => 3
  | .fetch (.racing _ _ _) | .fetch (.probing _ _) => 2
  | .headHit | .hit _ | .record _ _ => 1
  | _ => 0

theorem Stage.waitRank_leads {st : Stage} (h : st.leads) : st.waitRank ≤ 3 := by
  cases st with
  | fetch f => cases f <;> simp [waitRank]
  | record => exact (by decide : 1 ≤ 3)
  | write | evict | remove | book | ret | finish => exact Nat.zero_le 3
  | _ => cases h

theorem Stage.waitRank_slots {st : Stage} (h : 0 < st.slots) : st.waitRank ≤ 2 := by
  cases st with
  | fetch f =>
    cases f with
    | blocked => exact absurd h (lt_irrefl 0)
    | _ => simp [waitRank]
  | wait l => exact absurd h (lt_irrefl 0)
  | headHit | hit | record => exact (by decide : 1 ≤ 2)
  | _ => exact Nat.zero_le 2

theorem Stage.waitRank_locks {st : Stage} (h : st.locks) : st.waitRank = 0 := by
  revert h
  cases st <;> simp [locks, waitRank]

theorem Stage.waitRank_looksUp {st : Stage} (h : st.looksUp) : st.waitRank ≤ 1 := by
  cases st with
  | headHit | hit => exact le_rfl
  | check | serve | done | killed => exact Nat.zero_le 1
  | _ => cases h

namespace Traffic

variable {ι : Type*}

/-- What a thread waits for: the leader of its flight, the holder of the LRU lock, whoever has
a fetch slot, or the thread of a sibling that handles a request it has sent. -/
inductive Waits (s : Traffic ι) : ι × Tid → ι × Tid → Prop
  | flight {i : ι} {t l : Tid} {th : Thread} (ht : (s.nodes i).threads[t]? = some th)
    (hst : th.stage = .wait l) (hr : (s.nodes i).shared.results.lookup l = none) :
    Waits s (i, t) (i, l)
  | lock {i : ι} {t u : Tid} {th : Thread} (ht : (s.nodes i).threads[t]? = some th)
    (hst : th.stage.locking) (hl : (s.nodes i).shared.lruLock = some u) : Waits s (i, t) (i, u)
  | slot {i : ι} {t u : Tid} {th other : Thread} (ht : (s.nodes i).threads[t]? = some th)
    (hst : th.stage = .fetch .blocked) (hu : (s.nodes i).threads[u]? = some other)
    (hslot : 0 < other.stage.slots) : Waits s (i, t) (i, u)
  | answer {i : ι} {t : Tid} {th : Thread} {m : Message ι} {y : ι × Tid}
    (ht : (s.nodes i).threads[t]? = some th) (hst : th.stage.asks) (hm : m ∈ s.sent)
    (hsender : m.sender = some (i, t)) (hcallee : m.callee = some y) : Waits s (i, t) y

/-- The rank of a thread; one that does not exist has none. -/
def waitRank (s : Traffic ι) (x : ι × Tid) : ℕ :=
  ((s.nodes x.1).threads[x.2]?.map fun th => th.stage.waitRank).getD 0

theorem waitRank_eq {s : Traffic ι} {i : ι} {t : Tid} {th : Thread}
    (ht : (s.nodes i).threads[t]? = some th) : s.waitRank (i, t) = th.stage.waitRank := by
  rw [waitRank, ht]
  rfl

variable [DecidableEq ι] {cfg : ι → Config} {s s' : Traffic ι}

theorem Kept.waits_lt (hs : s.Kept cfg) {x y : ι × Tid} (h : s.Waits x y) :
    s.waitRank y < s.waitRank x := by
  cases h with
  | @flight i t l th ht hst hr =>
    obtain ⟨lead, hl, hleads, -⟩ := (hs.base i).leader (((hs.base i).thread ht).waits hst hr)
    rw [waitRank_eq ht, waitRank_eq hl, hst]
    exact Nat.lt_succ_of_le (Stage.waitRank_leads hleads)
  | @lock i t u th ht hst hl =>
    obtain ⟨other, hu⟩ : ∃ other, (s.nodes i).threads[u]? = some other :=
      ⟨_, List.getElem?_eq_getElem ((hs.base i).shared.lock hl)⟩
    -- the holder of the lock waits for nobody
    have hzero := Stage.waitRank_locks (((hs.base i).thread hu).locks.mp hl)
    rw [waitRank_eq ht, waitRank_eq hu, hzero]
    revert hst
    cases th.stage <;> simp [Stage.locking, Stage.waitRank]
  | slot ht hst hu hslot =>
    rw [waitRank_eq ht, waitRank_eq hu, hst]
    exact Nat.lt_succ_of_le (Stage.waitRank_slots hslot)
  | @answer i t th m y ht hst hm hsender hcallee =>
    obtain ⟨j, u⟩ := y
    obtain ⟨other, hu, hpeer⟩ := (hs.message m hm).callee (j, u) hcallee
    have hlook := (hs.thread hu).stage hpeer
    have hasks : th.stage.waitRank = 2 := by
      revert hst
      cases th.stage with
      | fetch f => cases f <;> simp [Stage.asks, Stage.waitRank]
      | _ => exact nofun
    rw [waitRank_eq ht, waitRank_eq hu, hasks]
    exact Nat.lt_succ_of_le (Stage.waitRank_looksUp hlook)

theorem Kept.acyclic (hs : s.Kept cfg) (x : ι × Tid) : ¬ Relation.TransGen s.Waits x x := by
  have hlt : ∀ y, Relation.TransGen s.Waits x y → s.waitRank y < s.waitRank x := by
    intro y h
    induction h with
    | single h => exact hs.waits_lt h
    | tail _ h ih => exact (hs.waits_lt h).trans ih
  exact fun h => lt_irrefl _ (hlt x h)

omit [DecidableEq ι] in
/-- A thread with no step of its own waits for another, or for a slot a hedge has. -/
theorem waits_of_stuck {i : ι} {t : Tid} {th : Thread}
    (ht : (s.nodes i).threads[t]? = some th) (hend : th.stage.ended = false)
    (hstuck : ∀ a, (s.nodes i).step (cfg i) (.thread t a) = none) :
    (∃ y, s.Waits (i, t) y) ∨ th.stage = .fetch .blocked := by
  by_contra hnot
  rw [not_or, not_exists] at hnot
  obtain ⟨a, sh, st, hstep⟩ : ∃ a sh st, th.stage.step (cfg i) t th.req th.connected
      (s.nodes i).shared a = some (sh, st) := by
    refine Stage.progress hend (fun hlock => ?_) (fun l hw hr => ?_) fun hb => absurd hb hnot.2
    · by_contra hl
      obtain ⟨u, hu⟩ := Option.ne_none_iff_exists'.mp hl
      exact hnot.1 _ (.lock ht hlock hu)
    · exact hnot.1 _ (.flight ht hw hr)
  have := hstuck a
  rw [Node.step, ht] at this
  simp [hstep] at this

end Traffic

variable {ι : Type*} [DecidableEq ι] {cfg : ι → Config} {s : Traffic ι}

/-- **Peer traffic does not recurse**, in every state of every run of nodes with any `PEERS`:
a request with `X-Xet-Peer` is in no fetch and in no flight, and no step of it sends a request,
pulls from an upstream or touches the fetch slots; every request to a sibling has that header
and is at most one hop from a client's; a client's request has at most two of them and one for
every entry of `PEERS`; and no threads wait for each other in a circle, where a thread with no
step of its own waits for another, or for a slot. -/
theorem peer_traffic_bounded {as : List (TrafficAct ι)}
    (h : exec (Traffic.step cfg) (Traffic.init cfg) as = some s) :
    (∀ i t th, (s.nodes i).threads[t]? = some th → th.req.isPeer →
      (∀ f, th.stage ≠ .fetch f) ∧ (∀ l, th.stage ≠ .wait l) ∧
      (∀ k, (s.nodes i).shared.flights.lookup k ≠ some t) ∧ th.stage.slots = 0 ∧
      ∀ a s', s.step cfg (.node i (.thread t a)) = some s' →
        a.upstream = none ∧ s'.sent = s.sent ∧
        (s'.nodes i).shared.flights = (s.nodes i).shared.flights ∧
        (s'.nodes i).shared.hub.sem = (s.nodes i).shared.hub.sem ∧
        (s'.nodes i).shared.hub.orphans = (s.nodes i).shared.hub.orphans) ∧
    (∀ m ∈ s.sent, m.call.isPeer ∧ m.trail.hops ≤ 1) ∧
    (∀ i t, s.onBehalf (i, t) ≤ 2 + (cfg i).peers.length) ∧
    (∀ x, ¬ Relation.TransGen s.Waits x x) ∧
    ∀ i t th, (s.nodes i).threads[t]? = some th → th.stage.ended = false →
      (∀ a, (s.nodes i).step (cfg i) (.thread t a) = none) →
      (∃ y, s.Waits (i, t) y) ∨ th.stage = .fetch .blocked := by
  have hs := Traffic.Kept.exec h
  refine ⟨fun i t th ht hpeer => ?_, fun m hm => ?_, fun i t => ?_, hs.acyclic,
    fun i t th ht hend hstuck => Traffic.waits_of_stuck ht hend hstuck⟩
  · have hlook := (hs.thread ht).stage hpeer
    refine ⟨fun f hf => ?_, fun l hl => ?_, fun k hk => ?_, ?_, fun a s' hstep => ?_⟩
    · rw [hf] at hlook
      cases hlook
    · rw [hl] at hlook
      cases hlook
    · -- the leader of a flight runs its closure
      have hleads := ((((hs.base i).thread ht).leads k).mp hk).1
      revert hleads hlook
      cases th.stage <;> simp [Stage.leads, Stage.looksUp]
    · revert hlook
      cases th.stage <;> simp [Stage.slots, Stage.looksUp]
    · simp only [Traffic.step] at hstep
      cases hn : (s.nodes i).step (cfg i) (.thread t a) with
      | none =>
        rw [hn] at hstep
        cases hstep
      | some n =>
        rw [hn] at hstep
        cases hstep
        cases Node.step_moves hn with
        | @thread _ th' _ sh st ht' hm =>
          rw [ht, Option.some_inj] at ht'
          subst ht'
          obtain ⟨-, hup, hflights, hsem, horphans⟩ := hm.sibling hpeer hlook
          have hemits : s.emits i ⟨sh, (s.nodes i).threads.set t { th with stage := st }⟩
              (.thread t a) = [] := by
            rw [Traffic.emits, ht]
            simp [List.getElem?_set_self (List.getElem?_eq_some_iff.mp ht).1,
              Stage.sends_of_looksUp hlook]
          simp only [hemits, List.append_nil, Function.update_self]
          exact ⟨hup, trivial, hflights, hsem, horphans⟩
        | background ha => rcases ha with ⟨i, x, hx⟩ | ⟨i, hx⟩ <;> cases hx
  · have := hs.message m hm
    exact ⟨this.isPeer, this.hops.le⟩
  · by_cases hlt : t < (s.nodes i).threads.length
    · exact (Nat.le_add_right _ _).trans (hs.thread (List.getElem?_eq_getElem hlt)).budget
    · have hzero : s.onBehalf (i, t) = 0 := by
        refine List.countP_eq_zero.mpr fun m hm hroot => ?_
        have hm' := hs.message m hm
        obtain ⟨th, hth, -⟩ := hm'.sender (i, t) (hm'.root ▸ of_decide_eq_true hroot)
        exact hlt (List.getElem?_eq_some_iff.mp hth).1
      rw [hzero]
      exact Nat.zero_le _

/-- A node that lists itself. -/
def Config.selfish : Config := { Config.lone with peers := [lit "a"] }

/-- It asks itself for what it has not, and then goes to the CDN. -/
def askingItself : List (TrafficAct Unit) :=
  [.client () (.ranged [120]), .node () (.thread 0 (.check true)), .node () (.thread 0 .join),
    .node () (.thread 0 (.fetch (.begin 0))), .deliver 0 (), .ping () (lit "a"),
    .node () (.thread 1 (.check true)),
    .node () (.thread 0 (.fetch (.head (lit "a") (.reply ⟨404, [], .full []⟩)))),
    .node () (.thread 0 (.fetch .closed))]

theorem peer_traffic_bounded_selfish :
    ∃ s, exec (Traffic.step fun _ => .selfish) (Traffic.init fun _ => .selfish) askingItself =
        some s ∧
      s.sent.length = 2 ∧ s.onBehalf ((), 0) = 1 ∧ s.onBehalf ((), 0) ≤ 2 + 1 ∧
      ¬ Relation.TransGen s.Waits ((), 0) ((), 0) := by
  obtain ⟨s, hs, hp⟩ := exec_of_any (Traffic.step fun _ => .selfish)
    (Traffic.init fun _ => .selfish) askingItself
    (fun s => s.sent.length = 2 ∧ s.onBehalf ((), 0) = 1) (by decide +kernel)
  obtain ⟨hsent, hone⟩ := of_decide_eq_true hp
  obtain ⟨-, -, hbound, hacyclic, -⟩ := peer_traffic_bounded hs
  exact ⟨s, hs, hsent, hone, hbound () 0, hacyclic ((), 0)⟩

end XetDcCache
