/-
Byte coherence across a fleet.

A `Fleet` is any number of nodes with their `PEERS` lists, the node each base url leads
to, and an origin.  The nodes step in any order.  What ties them together is what an
exchange may bring:

* `Fleet.Serves` — a complete body of the CDN is that of the origin;
* `Fleet.Relays` — a sibling's answer is one its own `getXorb` wrote to a sibling's
  request for the same range, cut short anywhere, possibly without an error.

`fleet_coherent` is the result: whatever is stored or answered with a 206 for a range
inside a xorb is what the origin has there.
-/
import XetDcCache.Coherence

namespace XetDcCache

open Transition

/-! ### The fleet -/

/-- The xorbs, by hash: the body of a range, and the size, with the length of the body
of a closed range inside the xorb. -/
structure Origin where
  body : Bytes → Bytes → Bytes
  size : Bytes → ℕ
  length_body : ∀ {hash byteRange : Bytes} {lo hi : ℕ}, ClosedRange byteRange lo hi → lo ≤ hi →
    hi < size hash → (body hash byteRange).length = hi - lo + 1

/-- The configuration of every node, and the node a base url leads to, if any. -/
structure Fleet (ι : Type*) where
  cfg : ι → Config
  route : Url → Option ι
  origin : Origin

variable {ι : Type*}

namespace Fleet

def init (F : Fleet ι) : ι → Node := fun i => .init (F.cfg i)

/-- One node takes a step. -/
def step [DecidableEq ι] (F : Fleet ι) (s : ι → Node) (b : ι × NodeAct) : Option (ι → Node) :=
  (Node.step (F.cfg b.1) (s b.1) b.2).map (Function.update s b.1)

end Fleet

/-! ### What the nodes see of each other and of the CDN -/

/-- The bytes that were read of a body. -/
def BodyRead.read : BodyRead → Bytes
  | .full body => body
  | .broken body _ => body

def Response.contentRange (resp : Response) : Bytes :=
  (resp.headers.lookup (lit "Content-Range")).getD []

/-- What may arrive of a response: nothing, or its head with some of its body. -/
def Response.Delivers (resp : Response) : Exchange → Prop
  | .failed => True
  | .reply r =>
    r.status = resp.status ∧ r.contentRange = resp.contentRange ∧ r.body.read <+: resp.body

theorem Node.moving_thread {n : Node} {b : NodeAct} {m : Node.Move} (h : m ∈ n.moving b) :
    ∃ t, b = .thread t m.act := by
  cases b with
  | thread t a =>
    obtain ⟨th, -, rfl⟩ := Option.map_eq_some_iff.mp h
    exact ⟨t, rfl⟩
  | _ => cases h

/-- The response a request was answered with. -/
def Stage.response : Stage → Option Response
  | .done resp => some resp
  | _ => none

/-- The request `headProbe` and `peerGet` send for a request. -/
def Request.toPeer (req : Request) (method : Method) : Request :=
  ⟨method, req.hash, req.byteRange, true⟩

/-- The exchange with a sibling a step completes: its base url, the request and the
outcome. -/
def Node.Move.asked (m : Node.Move) : Option (Url × Request × Exchange) :=
  match m.th.stage, m.act with
  | .fetch (.racing _ base _), .fetch (.race (.peer ex)) => some (base, m.th.req.toPeer .get, ex)
  | .fetch (.probing _ _), .fetch (.head base ex) => some (base, m.th.req.toPeer .head, ex)
  | _, _ => none

/-- The CDN pull a step completes, on the plain path or in a race. -/
def Act.upstream : Act → Option Upstream
  | .fetch (.pull up) | .fetch (.race (.cdn (.pull up))) => some up
  | _ => none

/-- A body a pull reads to its end is that of the origin. -/
def Origin.Serves (origin : Origin) (hash byteRange : Bytes) (up : Upstream) : Prop :=
  ∀ ⦃i url r body⦄, up.doer i url byteRange = .reply r → Upstream.authorizes r.status →
    r.body = .full body → body = origin.body hash byteRange

namespace Fleet

def Serves (F : Fleet ι) (s : ι → Node) (b : ι × NodeAct) : Prop :=
  ∀ m ∈ (s b.1).moving b.2, ∀ up ∈ m.act.upstream,
    F.origin.Serves m.th.req.hash m.th.req.byteRange up

/-- An exchange with the node at `base` fails, or that node has answered the request. -/
def Answers (F : Fleet ι) (s : ι → Node) (base : Url) (req : Request) (ex : Exchange) : Prop :=
  ex = .failed ∨ ∃ i ∈ F.route base, ∃ th ∈ (s i).threads, th.req = req ∧
    ∃ resp ∈ th.stage.response, resp.Delivers ex

def Relays (F : Fleet ι) (s : ι → Node) (b : ι × NodeAct) : Prop :=
  ∀ m ∈ (s b.1).moving b.2, ∀ q ∈ m.asked, F.Answers s q.1 q.2.1 q.2.2

instance (resp : Response) (ex : Exchange) : Decidable (resp.Delivers ex) :=
  match ex with
  | .failed => .isTrue trivial
  | .reply r => inferInstanceAs (Decidable (r.status = resp.status ∧ _ ∧ _ <+: _))

instance (F : Fleet ι) (s : ι → Node) (base : Url) (req : Request) (ex : Exchange) :
    Decidable (F.Answers s base req ex) :=
  inferInstanceAs (Decidable (ex = .failed ∨ ∃ i ∈ F.route base, ∃ th ∈ (s i).threads, _))

instance (F : Fleet ι) (s : ι → Node) (b : ι × NodeAct) : Decidable (F.Relays s b) :=
  inferInstanceAs (Decidable (∀ m ∈ (s b.1).moving b.2, ∀ q ∈ m.asked, _))

end Fleet

/-! ### Coherence -/

/-- A body for a closed range inside the xorb is that of the origin. -/
def Origin.Good (origin : Origin) (hash byteRange body : Bytes) : Prop :=
  ∀ ⦃lo hi : ℕ⦄, ClosedRange byteRange lo hi → lo ≤ hi → hi < origin.size hash →
    body = origin.body hash byteRange

/-- A pull of the plain path or of a race brings in what the origin has. -/
theorem Origin.Serves.good {origin : Origin} {hash byteRange : Bytes} {up : Upstream}
    {res : XorbResult} (h : origin.Serves hash byteRange up)
    (hres : up.plainFetch byteRange = .ok res) : origin.Good hash byteRange res.body := by
  obtain ⟨r, hauth, hbody, i, url, hdo⟩ := Upstream.plainFetch_ok hres
  intro lo hi _ _ _
  exact h hdo hauth hbody

/-- What a step brings in comes from a CDN pull or from a sibling. -/
theorem Act.brings_cases {byteRange : Bytes} {a : Act} {res : XorbResult}
    (h : res ∈ a.brings byteRange) :
    (∃ up, a.upstream = some up ∧ up.plainFetch byteRange = .ok res) ∨
      ∃ ex, a = .fetch (.race (.peer ex)) ∧ peerGet byteRange ex = some res := by
  have hopt : ∀ {o : Except HttpError XorbResult}, res ∈ o.toOption.toList → o = .ok res := by
    intro o ho
    cases o <;> simp_all [Except.toOption]
  cases a with
  | fetch b =>
    cases b with
    | pull up => exact Or.inl ⟨up, rfl, hopt h⟩
    | race r =>
      cases r with
      | peer ex => exact Or.inr ⟨ex, rfl, Option.mem_toList.mp h⟩
      | cdn c =>
        cases c with
        | pull up =>
          rw [Act.brings, FetchAct.brings, RaceAct.brings, CdnAct.brings, Upstream.cdnGet_fst] at h
          exact Or.inl ⟨up, rfl, hopt h⟩
        | tryAcquire => cases h
      | _ => cases h
    | _ => cases h
  | _ => cases h

/-- Only a fetch that races takes a step of a race. -/
theorem Stage.Moves.racing {cfg : Config} {t : Tid} {req : Request} {connected : Bool}
    {sh sh' : Shared} {st st' : Stage} {r : RaceAct}
    (h : st.Moves cfg t req connected sh (.fetch (.race r)) sh' st') :
    ∃ leg base race, st = .fetch (.racing leg base race) := by
  have hfetch : ∀ {f : Fetch} {x}, f.step cfg t (!connected) req.byteRange sh.hub (.race r) =
      some x → ∃ leg base race, f = .racing leg base race := by
    intro f x hf
    cases f with
    | racing leg base race => exact ⟨leg, base, race, rfl⟩
    | settle leg base out => rcases out with _ | ⟨res, src⟩ <;> cases leg <;> cases hf
    | probing pending found => cases pending <;> cases found <;> cases hf
    | _ => cases hf
  cases h with
  | fetchGo hf | fetchFilled hf | fetchFailed hf =>
    obtain ⟨leg, base, race, rfl⟩ := hfetch hf
    exact ⟨leg, base, race, rfl⟩

/-- What `peerGet` takes of a coherent response is good: a body cut short has not the
length of the range. -/
theorem Origin.good_of_peerGet {origin : Origin} {hash byteRange : Bytes} {resp : Response}
    {ex : Exchange} {res : XorbResult} (hresp : resp.Holds (origin.Good hash byteRange))
    (hex : resp.Delivers ex) (hres : peerGet byteRange ex = some res) :
    origin.Good hash byteRange res.body := by
  intro lo hi hr hle hin
  obtain ⟨r, rfl, hstatus, hbody, hacc⟩ := peerGet_some hres
  obtain ⟨heq, -, hpre⟩ := hex
  rw [hbody, BodyRead.read] at hpre
  have hlen := origin.length_body hr hle hin
  rcases hresp with ⟨-, hgood⟩ | ⟨-, hempty⟩ | herr
  · -- the prefix has the length of the whole
    have hwhole := hgood hr hle hin
    rw [hwhole] at hpre
    have := length_eq_of_accepts hr hle (hlen ▸ hpre.length_le) hacc
    exact hpre.eq_of_length (this.trans hlen.symm)
  · rw [hempty, List.prefix_nil] at hpre
    have := length_eq_of_accepts hr hle (by simp [hpre]) hacc
    rw [hpre, List.length_nil] at this
    omega
  · omega

namespace Fleet

/-- The node that moves restores what holds of every node. -/
theorem step_each [DecidableEq ι] (F : Fleet ι) {P : ι → Node → Prop} {s s' : ι → Node}
    {b : ι × NodeAct} (hs : ∀ i, P i (s i)) (hstep : F.step s b = some s')
    (hmoved : ∀ n', Node.step (F.cfg b.1) (s b.1) b.2 = some n' → P b.1 n') :
    ∀ i, P i (s' i) := by
  obtain ⟨n', hn', rfl⟩ := Option.map_eq_some_iff.mp hstep
  intro i
  by_cases hi : i = b.1
  · subst hi
    rw [Function.update_self]
    exact hmoved n' hn'
  · rw [Function.update_of_ne hi]
    exact hs i

/-- What `peerGet` takes, a node has answered. -/
theorem Answers.of_peerGet {F : Fleet ι} {s : ι → Node} {base : Url} {req : Request}
    {ex : Exchange} {byteRange : Bytes} {res : XorbResult} (h : F.Answers s base req ex)
    (hres : peerGet byteRange ex = some res) :
    ∃ (i : ι) (t : Tid) (th : Thread) (resp : Response), (s i).threads[t]? = some th ∧
      th.req = req ∧ th.stage = .done resp ∧ resp.Delivers ex := by
  rcases h with rfl | ⟨i, -, th, hth, hreq, resp, hresp, hex⟩
  · cases hres
  · obtain ⟨t, ht⟩ := List.mem_iff_getElem?.mp hth
    refine ⟨i, t, th, resp, ht, hreq, ?_, hex⟩
    cases hst : th.stage with
    | done resp' =>
      rw [hst] at hresp
      cases hresp
      rfl
    | _ =>
      rw [hst] at hresp
      cases hresp

/-- What a step brings the moving node meets `P` if what the CDN and the siblings hand over
does. -/
theorem brings_of (F : Fleet ι) {P : Bytes → Bytes → XorbResult → Prop} {s : ι → Node}
    {b : ι × NodeAct} {n' : Node}
    (hpull : ∀ m ∈ (s b.1).moving b.2, ∀ up ∈ m.act.upstream, ∀ res,
      up.plainFetch m.th.req.byteRange = .ok res → P m.th.req.hash m.th.req.byteRange res)
    (hpeer : ∀ {base : Url} {req : Request} {ex : Exchange} {res : XorbResult},
      F.Answers s base (req.toPeer .get) ex → peerGet req.byteRange ex = some res →
      P req.hash req.byteRange res)
    (hrelay : F.Relays s b) (hstep : Node.step (F.cfg b.1) (s b.1) b.2 = some n') :
    ∀ m ∈ (s b.1).moving b.2, ∀ res ∈ m.act.brings m.th.req.byteRange,
      P m.th.req.hash m.th.req.byteRange res := by
  obtain ⟨i, b⟩ := b
  cases Node.step_moves hstep with
  | @thread t th a sh stage ht hm =>
    intro m hmove res hres
    have hpull' := hpull m hmove
    have hrelay' := hrelay m hmove
    simp only [Node.moving, ht, Option.map_some, Option.mem_some_iff] at hmove
    subst hmove
    rcases Act.brings_cases hres with ⟨up, hup, hok⟩ | ⟨ex, rfl, hget⟩
    · exact hpull' up hup res hok
    · obtain ⟨leg, base, r, hst⟩ := hm.racing
      exact hpeer (hrelay' (base, th.req.toPeer .get, ex) (by simp [Node.Move.asked, hst])) hget
  | background ha hsem hl =>
    rcases ha with ⟨i, b, rfl⟩ | ⟨i, rfl⟩ <;>
      · intro m hm
        cases hm
  | _ =>
    intro m hm
    cases hm

variable {F : Fleet ι}

/-- Every node keeps its own invariant and is coherent with the origin. -/
def Coherent (F : Fleet ι) (s : ι → Node) : Prop :=
  ∀ i, (s i).Base (F.cfg i) ∧ (s i).Coherent (F.cfg i) F.origin.Good

theorem coherent_init (F : Fleet ι) : F.Coherent F.init := fun i =>
  ⟨base_init (F.cfg i), XetDcCache.coherent_init (F.cfg i) F.origin.Good⟩

/-- What a sibling of a coherent fleet hands over is good. -/
theorem Coherent.answers {s : ι → Node} {base : Url} {req : Request} {ex : Exchange}
    {res : XorbResult} (hs : F.Coherent s) (h : F.Answers s base (req.toPeer .get) ex)
    (hres : peerGet req.byteRange ex = some res) :
    F.origin.Good req.hash req.byteRange res.body := by
  obtain ⟨i, t, th, resp, ht, hreq, hst, hex⟩ := h.of_peerGet hres
  have hgood := ((hs i).2.thread ht).holds
  rw [hst, hreq] at hgood
  exact Origin.good_of_peerGet hgood hex hres

/-- A step of a coherent fleet brings the moving node only good bodies. -/
theorem Coherent.brings {s : ι → Node} (hs : F.Coherent s) {b : ι × NodeAct} {n' : Node}
    (hserve : F.Serves s b) (hrelay : F.Relays s b)
    (hhash : ∀ req, b.2 = .arrive req → (58 : UInt8) ∉ req.hash)
    (hstep : Node.step (F.cfg b.1) (s b.1) b.2 = some n') :
    (s b.1).Brings F.origin.Good b.2 := by
  have hmove := F.brings_of (P := fun hash r res => F.origin.Good hash r res.body)
    (fun m hm up hup res hok => (hserve m hm up hup).good hok) (fun h hget => hs.answers h hget)
    hrelay hstep
  obtain ⟨i, b⟩ := b
  cases b with
  | arrive req => exact hhash req rfl
  | _ => exact hmove

theorem Coherent.step [DecidableEq ι] (hsha : ∀ i, Function.Injective (F.cfg i).sum256)
    {s s' : ι → Node} {b : ι × NodeAct} (hs : F.Coherent s) (hserve : F.Serves s b)
    (hrelay : F.Relays s b) (hhash : ∀ req, b.2 = .arrive req → (58 : UInt8) ∉ req.hash)
    (hstep : F.step s b = some s') : F.Coherent s' :=
  F.step_each (P := fun i n => n.Base (F.cfg i) ∧ n.Coherent (F.cfg i) F.origin.Good) hs hstep
    fun _ hn' => ⟨(hs b.1).1.step hn', (hs b.1).2.step (hsha b.1) (hs b.1).1
      (hs.brings hserve hrelay hhash hn') hn'⟩

end Fleet

variable [DecidableEq ι] {F : Fleet ι}

/-- **Fleet-wide byte coherence**: in every state of every run of the fleet, the file a node
has for a closed range inside a xorb, and the body of every 206 written for it, is what the
origin has there. -/
theorem fleet_coherent (hsha : ∀ i, Function.Injective (F.cfg i).sum256)
    {as : List (ι × NodeAct)} {s : ι → Node}
    (hhash : ∀ b ∈ as, ∀ req, b.2 = .arrive req → (58 : UInt8) ∉ req.hash)
    (hserve : Along F.step F.Serves F.init as) (hrelay : Along F.step F.Relays F.init as)
    (h : exec F.step F.init as = some s) (i : ι) {hash byteRange : Bytes} {lo hi : ℕ}
    (hcolon : (58 : UInt8) ∉ hash) (hr : ClosedRange byteRange lo hi) (hle : lo ≤ hi)
    (hin : hi < F.origin.size hash) :
    (∀ file, (s i).shared.disk.lookup (cacheName (F.cfg i).sum256 hash byteRange) = some file →
      file = F.origin.body hash byteRange) ∧
    ∀ th ∈ (s i).threads, th.req.hash = hash → th.req.byteRange = byteRange →
      ∀ resp ∈ th.stage.response, resp.status = 206 → resp.body = F.origin.body hash byteRange := by
  have hs : F.Coherent s := by
    refine exec_invariant F.Coherent (fun hs hok hstep => hs.step hsha hok.1 hok.2.1 hok.2.2 hstep)
      F.coherent_init (hserve.and (hrelay.and (Along.of_forall fun b hb _ => hhash b hb))) h
  refine ⟨fun file hfile => (hs i).2.shared hcolon hfile hr hle hin, ?_⟩
  rintro th hth rfl rfl resp hresp hstatus
  obtain ⟨t, ht⟩ := List.mem_iff_getElem?.mp hth
  have hL := ((hs i).2.thread ht).holds
  cases hst : th.stage with
  | done resp' =>
    rw [hst] at hresp hL
    cases hresp
    rcases hL with ⟨-, hgood⟩ | ⟨hother, -⟩ | hother
    · exact hgood hr hle hin
    · rw [hstatus] at hother
      cases hother
    · rw [hstatus] at hother
      omega
  | _ =>
    rw [hst] at hresp
    cases hresp

/-! ### Two nodes -/

/-- A xorb of one byte. -/
def Origin.oneByte (b : UInt8) : Origin where
  body _ _ := [b]
  size _ := 1
  length_body _ _ hin := by
    rw [List.length_singleton]
    omega

/-- A node whose sibling has the only copy. -/
def Fleet.pair : Fleet Bool where
  cfg i := if i then { Config.lone with peers := [lit "b"] } else .lone
  route base := if base = lit "b" then some false else none
  origin := .oneByte 7

/-- Steps of one node. -/
def Fleet.only {ι : Type*} (i : ι) (as : List NodeAct) : List (ι × NodeAct) := as.map (i, ·)

/-- One node fetches from the CDN, the other from its sibling. -/
def siblingRun : List (Bool × NodeAct) :=
  Fleet.only false (missing 0 [120] ++ fetching 0 [7] ++ caching 0 ++ ending 0) ++
  Fleet.only true (missing 0 [120] ++ [.thread 0 (.fetch (.begin 0))]) ++
  Fleet.only false [.arrive ((Request.ranged [120]).toPeer .head), .thread 1 (.check true),
    .thread 1 .touch] ++
  Fleet.only true [.thread 0 (.fetch (.head (lit "b") (.reply ⟨200, [], .full []⟩))),
    .thread 0 (.fetch .found)] ++
  Fleet.only false [.arrive ((Request.ranged [120]).toPeer .get), .thread 2 (.check true),
    .thread 2 .touch, .thread 2 .serve] ++
  Fleet.only true ([.thread 0 (.fetch (.race (.peer (.reply ⟨206, lit "bytes 0-0/*", .full [7]⟩)))),
    .thread 0 (.fetch (.race .recvPeer)), .thread 0 (.fetch (.settle 0))] ++ caching 0 ++
    ending 0)

theorem fleet_coherent_sibling :
    ∃ s, exec Fleet.pair.step Fleet.pair.init siblingRun = some s ∧
      (s true).shared.disk.lookup ((Request.ranged [120]).name .lone) = some [7] ∧
      ((∀ file, (s true).shared.disk.lookup ((Request.ranged [120]).name .lone) = some file →
        file = [7]) ∧
      ∀ th ∈ (s true).threads, th.req.hash = [120] → th.req.byteRange = lit "bytes=0-0" →
        ∀ resp ∈ th.stage.response, resp.status = 206 → resp.body = [7]) := by
  obtain ⟨s, hs, hp⟩ := exec_of_any Fleet.pair.step Fleet.pair.init siblingRun
    (fun s => (s true).shared.disk.lookup ((Request.ranged [120]).name .lone) = some [7])
    (by decide +kernel)
  refine ⟨s, hs, by simpa using hp, ?_⟩
  have hr : ClosedRange (lit "bytes=0-0") 0 0 := ⟨lit "0", lit "0", by decide,
    ⟨by decide, by decide, by decide⟩, by decide, by decide, by decide⟩
  refine fleet_coherent (fun i => ?_) ?_ ?_ (by decide +kernel) hs true (by decide) hr le_rfl
    (by decide)
  · cases i <;> exact Function.injective_id
  · simp [siblingRun, Fleet.only, missing, fetching, caching, ending, Request.ranged,
      Request.toPeer]
  · refine Along.of_forall fun b hb s m hm up hup => ?_
    have hpull : ∀ b ∈ siblingRun, ∀ t a, b.2 = .thread t a → ∀ up ∈ a.upstream,
        up = .serving [7] := by
      simp [siblingRun, Fleet.only, missing, fetching, caching, ending, Act.upstream]
    obtain ⟨t, hact⟩ := Node.moving_thread hm
    rw [hpull b hb t m.act hact up hup]
    rintro i url r body ⟨⟩ - ⟨⟩
    rfl

end XetDcCache
