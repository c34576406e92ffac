/-
Reasoning about a node thread by thread.

`Stage.Moves` lists what one step of a thread can do, a constructor a branch, and
`Stage.step_moves` is the inversion of `Stage.step` every invariant starts from.

`Node.Each I L` is an invariant made of a part `I` about the shared state and a part
`L` about each thread.  `Node.each_step` is its step rule: the moving thread restores
both parts, and what it does disturbs no other thread.  `Node.Base` is the first
such invariant: a flight has one leader and the LRU lock one holder, and a waiting
request waits for the flight of its own file or for a result that is there.
-/
import XetDcCache.GetXorb
import XetDcCache.Transition

namespace XetDcCache

variable {cfg : Config} {t : Tid} {req : Request} {connected : Bool} {sh sh' : Shared}
  {st st' : Stage} {a : Act}

/-! ### What a step can do -/

/-- What the disk check of `getXorb` finds. -/
def Shared.found (sh : Shared) (name : Bytes) (ok : Bool) : Option Bytes :=
  if ok then sh.disk.lookup name else none

theorem Shared.found_some {name file : Bytes} {ok : Bool} (h : sh.found name ok = some file) :
    sh.disk.lookup name = some file := by
  rw [found] at h
  split at h
  · exact h
  · cases h

/-- The steps of `getXorb` by name. -/
inductive Stage.Moves (cfg : Config) (t : Tid) (req : Request) (connected : Bool) (sh : Shared) :
    Stage → Act → Shared → Stage → Prop
  | reject {ok : Bool} (hr : req.byteRange = []) :
    Moves cfg t req connected sh .check (.check ok) sh (.done (httpErrWrite rangeRequired))
  | probe {ok : Bool} {file : Bytes} (hr : req.byteRange ≠ []) (hm : req.method = .head)
    (hd : sh.found (req.name cfg) ok = some file) :
    Moves cfg t req connected sh .check (.check ok) sh .headHit
  | absent {ok : Bool} (hr : req.byteRange ≠ []) (hm : req.method = .head ∨ req.isPeer)
    (hd : sh.found (req.name cfg) ok = none) :
    Moves cfg t req connected sh .check (.check ok) sh (.done notFound)
  | hit {ok : Bool} {file : Bytes} (hr : req.byteRange ≠ []) (hm : req.method = .get)
    (hd : sh.found (req.name cfg) ok = some file) :
    Moves cfg t req connected sh .check (.check ok) sh (.hit file)
  | miss {ok : Bool} (hr : req.byteRange ≠ []) (hm : req.method = .get) (hp : ¬ req.isPeer)
    (hd : sh.found (req.name cfg) ok = none) :
    Moves cfg t req connected sh .check (.check ok) sh .join
  | touchHead (hl : sh.lruLock = none) :
    Moves cfg t req connected sh .headHit .touch
      { sh with lru := sh.lru.touch (req.name cfg) } (.done headFound)
  | touchHit {file : Bytes} (hl : sh.lruLock = none) :
    Moves cfg t req connected sh (.hit file) .touch
      { sh with lru := sh.lru.touch (req.name cfg) } (.serve file)
  | serveHit {file : Bytes} :
    Moves cfg t req connected sh (.serve file) .serve
      { sh with
        hub := { sh.hub with
          metrics := { sh.hub.metrics with
            hits := sh.hub.metrics.hits + 1
            servedBytes := sh.hub.metrics.servedBytes + file.length } } }
      (.done (serveHit cfg req.byteRange file))
  | follow {leader : Tid} (hf : sh.flights.lookup (req.name cfg) = some leader) :
    Moves cfg t req connected sh .join .join sh (.wait leader)
  | lead (hf : sh.flights.lookup (req.name cfg) = none) :
    Moves cfg t req connected sh .join .join
      { sh with flights := sh.flights.insert (req.name cfg) t } (.fetch .enter)
  | wake {leader : Tid} {out : Outcome} (hw : sh.results.lookup leader = some out) :
    Moves cfg t req connected sh (.wait leader) .wake sh (.reply out)
  | fetchGo {f f' : Fetch} {b : FetchAct} {hub : Hub}
    (hf : f.step cfg t (!connected) req.byteRange sh.hub b = some (hub, .go f')) :
    Moves cfg t req connected sh (.fetch f) (.fetch b) { sh with hub := hub } (.fetch f')
  | fetchFilled {f : Fetch} {b : FetchAct} {hub : Hub} {src : FillSource} {res : XorbResult}
    (hf : f.step cfg t (!connected) req.byteRange sh.hub b = some (hub, .filled src res)) :
    Moves cfg t req connected sh (.fetch f) (.fetch b) { sh with hub := hub } (.write src res)
  | fetchFailed {f : Fetch} {b : FetchAct} {hub : Hub} {slot : Bool} {e : HttpError}
    (hf : f.step cfg t (!connected) req.byteRange sh.hub b = some (hub, .failed slot e)) :
    Moves cfg t req connected sh (.fetch f) (.fetch b) { sh with hub := hub }
      (.ret slot (.error e))
  | rename {src : FillSource} {res : XorbResult} :
    Moves cfg t req connected sh (.write src res) (.write none)
      { sh with
        disk := sh.disk.insert (req.name cfg) res.body
        fills := sh.fills ++ [⟨t, req.name cfg, src, res.body⟩] } (.record src res)
  | writeFailed {src : FillSource} {res : XorbResult} {err : Bytes} :
    Moves cfg t req connected sh (.write src res) (.write (some err)) sh
      (.ret (src = .plain) (.error ⟨500, lit "cache write: " ++ err⟩))
  | record {src : FillSource} {res : XorbResult} (hl : sh.lruLock = none) :
    Moves cfg t req connected sh (.record src res) .record
      { sh with
        lruLock := some t
        lru := sh.lru.recordEntry (req.name cfg) (Int64.ofNat res.body.length) } (.evict src res)
  | evictStop {src : FillSource} {res : XorbResult} {free : Option Int64}
    (hs : sh.lru.entries = [] ∨ sh.lru.overLimitLocked free = false) :
    Moves cfg t req connected sh (.evict src res) (.evict free) { sh with lruLock := none }
      (.book src res)
  | evictPop {src : FillSource} {res : XorbResult} {free : Option Int64} {victim : Bytes}
    {lru : LruCache Bytes} (hp : sh.lru.popFront = some (victim, lru))
    (hs : sh.lru.overLimitLocked free = true) :
    Moves cfg t req connected sh (.evict src res) (.evict free) { sh with lru := lru }
      (.remove src res victim)
  | remove {src : FillSource} {res : XorbResult} {victim : Bytes} {ok : Bool} :
    Moves cfg t req connected sh (.remove src res victim) (.remove ok)
      { sh with disk := if ok then sh.disk.erase victim else sh.disk } (.evict src res)
  | book {src : FillSource} {res : XorbResult} :
    Moves cfg t req connected sh (.book src res) .book
      { sh with hub := { sh.hub with metrics := sh.hub.metrics.bookFill res src } }
      (.ret (src = .plain) (.ok res))
  | release {slot : Bool} {out : Outcome} :
    Moves cfg t req connected sh (.ret slot out) .release
      { sh with
        hub := { sh.hub with
          sem := if slot then sh.hub.sem.release cfg.slots else sh.hub.sem } } (.finish out)
  | finish {out : Outcome} :
    Moves cfg t req connected sh (.finish out) .finish
      { sh with
        flights := sh.flights.erase (req.name cfg)
        results := sh.results.insert t out } (.reply out)
  | serveMiss {res : XorbResult} :
    Moves cfg t req connected sh (.reply (.ok res)) .serve
      { sh with
        hub := { sh.hub with
          metrics := { sh.hub.metrics with
            servedBytes := sh.hub.metrics.servedBytes + res.body.length } } }
      (.done (writeXorbBytes res.body (lit "MISS") res.contentRange))
  | serveError {e : HttpError} :
    Moves cfg t req connected sh (.reply (.error e)) .serve sh (.done (httpErrWrite e))

theorem Stage.step_moves (h : st.step cfg t req connected sh a = some (sh', st')) :
    st.Moves cfg t req connected sh a sh' st' := by
  revert h
  fun_cases Stage.step cfg t req connected sh st a
  all_goals
    intro h
    cases h
  all_goals
    first
    | exact .reject ‹_›
    | exact .probe ‹_› ‹_› ‹_›
    | exact .absent ‹_› (Or.inl ‹_›) ‹_›
    | exact .absent ‹_› (Or.inr ‹_›) ‹_›
    | exact .hit ‹_› ‹_› ‹_›
    | exact .miss ‹_› ‹_› ‹_› ‹_›
    | exact .touchHead ‹_›
    | exact .touchHit ‹_›
    | exact .serveHit
    | exact .follow ‹_›
    | exact .lead ‹_›
    | exact .wake ‹_›
    | exact .fetchGo ‹_›
    | exact .fetchFilled ‹_›
    | exact .fetchFailed ‹_›
    | exact .rename
    | exact .writeFailed
    | exact .record ‹_›
    | exact .evictPop ‹_› ‹_›
    | exact .evictStop (Or.inl (LruCache.popFront_none.mp ‹_›))
    | exact .evictStop (Or.inr (Bool.not_eq_true _ ▸ ‹¬ _›))
    | exact .remove
    | exact .book
    | exact .release
    | exact .finish
    | exact .serveMiss
    | exact .serveError

/-- A request starts to wait only for a flight that is running. -/
theorem Stage.Moves.to_wait {l : Tid} (h : st.Moves cfg t req connected sh a sh' st')
    (hw : st' = .wait l) :
    st = .join ∧ a = .join ∧ sh' = sh ∧ sh.flights.lookup (req.name cfg) = some l := by
  subst hw
  cases h with
  | follow hf => exact ⟨rfl, rfl, rfl, hf⟩

/-- Only the end of a flight publishes a result, and it is that of its leader. -/
theorem Stage.Moves.results (h : st.Moves cfg t req connected sh a sh' st') :
    sh'.results = sh.results ∨
      ∃ out, st = .finish out ∧ sh'.results = sh.results.insert t out := by
  cases h
  case finish out => exact Or.inr ⟨out, rfl, rfl⟩
  all_goals exact Or.inl rfl

/-- The thread has left `getXorb`. -/
def Stage.ended : Stage → Bool
  | .done _ | .killed => true
  | _ => false

/-- No request is in progress. -/
def Node.Quiet (n : Node) : Prop := ∀ th ∈ n.threads, th.stage.ended

instance (n : Node) : Decidable n.Quiet := inferInstanceAs (Decidable (∀ th ∈ n.threads, _))

theorem Stage.Moves.not_ended (h : st.Moves cfg t req connected sh a sh' st') :
    st.ended = false := by
  cases h <;> rfl

/-- The thread is about to take the LRU lock. -/
def Stage.locking : Stage → Bool
  | .headHit | .hit _ | .record _ _ => true
  | _ => false

/-- A thread that has not ended has a step, unless it waits for the LRU lock, a flight or a
slot. -/
theorem Stage.progress (hend : st.ended = false) (hlock : st.locking → sh.lruLock = none)
    (hwait : ∀ l, st = .wait l → sh.results.lookup l ≠ none)
    (hslot : st = .fetch .blocked → t ∈ sh.hub.sem.granted) :
    ∃ a sh' st', st.step cfg t req connected sh a = some (sh', st') := by
  cases st with
  | check =>
    refine ⟨.check true, ?_⟩
    rw [Stage.step]
    split
    · exact ⟨_, _, rfl⟩
    · split
      · exact ⟨_, _, rfl⟩
      · exact ⟨_, _, rfl⟩
      · exact ⟨_, _, rfl⟩
      · split <;> exact ⟨_, _, rfl⟩
  | headHit => exact ⟨.touch, _, _, by rw [Stage.step, if_pos (hlock rfl)]⟩
  | hit file => exact ⟨.touch, _, _, by rw [Stage.step, if_pos (hlock rfl)]⟩
  | serve file => exact ⟨.serve, _, _, rfl⟩
  | join =>
    refine ⟨.join, ?_⟩
    rw [Stage.step]
    split <;> exact ⟨_, _, rfl⟩
  | wait l =>
    -- a follower wakes only when its leader has published
    obtain ⟨out, hout⟩ := Option.ne_none_iff_exists'.mp (hwait l rfl)
    exact ⟨.wake, sh, .reply out, by rw [Stage.step, hout]⟩
  | fetch f =>
    -- whatever the fetch does next is a step of the thread, be it the last one
    obtain ⟨b, hub, next, hstep⟩ : ∃ b hub next, f.step cfg t (!connected) req.byteRange sh.hub b =
        some (hub, next) := Fetch.progress f sh.hub fun hb => hslot (by rw [hb])
    refine ⟨.fetch b, ?_⟩
    rw [Stage.step, hstep]
    cases next <;> exact ⟨_, _, rfl⟩
  | write src res => exact ⟨.write none, _, _, rfl⟩
  | record src res => exact ⟨.record, _, _, by rw [Stage.step, if_pos (hlock rfl)]⟩
  | evict src res =>
    refine ⟨.evict none, ?_⟩
    rw [Stage.step]
    split
    · exact ⟨_, _, rfl⟩
    · split <;> exact ⟨_, _, rfl⟩
  | remove src res victim => exact ⟨.remove true, _, _, rfl⟩
  | book src res => exact ⟨.book, _, _, rfl⟩
  | ret slot out => exact ⟨.release, _, _, rfl⟩
  | finish out => exact ⟨.finish, _, _, rfl⟩
  | reply out => cases out <;> exact ⟨.serve, _, _, rfl⟩
  | done resp => cases hend
  | killed => cases hend

/-- The steps of a node by name; `background` is a step of a CDN goroutine that outlived
its race, or its drain. -/
inductive Node.Moves (cfg : Config) (n : Node) : NodeAct → Node → Prop
  | arrive (req : Request) :
    Moves cfg n (.arrive req) { n with threads := n.threads ++ [⟨req, .check, true⟩] }
  | disconnect {t : Tid} {th : Thread} (ht : n.threads[t]? = some th) :
    Moves cfg n (.disconnect t) { n with threads := n.threads.set t { th with connected := false } }
  | thread {t : Tid} {th : Thread} {a : Act} {sh : Shared} {stage : Stage}
    (ht : n.threads[t]? = some th)
    (hm : th.stage.Moves cfg t th.req th.connected n.shared a sh stage) :
    Moves cfg n (.thread t a) ⟨sh, n.threads.set t { th with stage := stage }⟩
  | background {a : NodeAct} {hub : Hub}
    (ha : (∃ i b, a = .orphan i b) ∨ ∃ i, a = .drain i)
    (hsem : ∀ t, Sem.Op cfg.slots t n.shared.hub.sem hub.sem)
    (hl : hub.metrics.ledger = n.shared.hub.metrics.ledger) :
    Moves cfg n a { n with shared := { n.shared with hub := hub } }
  | restart (b : Boot) :
    Moves cfg n (.restart b) ⟨.boot cfg b n.shared.disk,
      n.threads.map fun th => { th with stage := th.stage.kill }⟩

theorem Node.step_moves {n n' : Node} {a : NodeAct} (h : n.step cfg a = some n') :
    n.Moves cfg a n' := by
  revert h
  fun_cases Node.step cfg n a
  all_goals
    intro h
    cases h
  case case1 req => exact .arrive req
  case case3 t th ht => exact .disconnect ht
  case case6 t a th ht sh stage hstep => exact .thread ht (Stage.step_moves hstep)
  case case9 i a byteRange c hi sem c' hc =>
    exact .background (Or.inl ⟨i, a, rfl⟩) (fun t => CdnSide.step_sem t hc) rfl
  case case10 i byteRange res read hi m =>
    exact .background (Or.inr ⟨i, rfl⟩) (fun t => .idle _) rfl
  case case12 b => exact .restart b

/-! ### What an action meets -/

/-- A GET with a range that is not a sibling's: one that may fetch. -/
def Request.fetches (req : Request) : Bool :=
  req.method = .get && !req.isPeer && req.byteRange ≠ []

/-- The pull an action makes on the plain path. -/
def Act.pull : Act → Option Upstream
  | .fetch (.pull up) => some up
  | _ => none

def Act.writeFails : Act → Bool
  | .write (some _) => true
  | _ => false

def Act.joins : Act → Bool
  | .join => true
  | _ => false

/-- The upstream serves every pull that is not cancelled, and the write succeeds. -/
def Act.Served (byteRange : Bytes) (a : Act) : Prop :=
  (∀ up ∈ a.pull, up.cutoff = none → (up.plainFetch byteRange).isOk) ∧ ¬ a.writeFails

/-- So for every request for the file `k`. -/
def Node.Serves (cfg : Config) (k : Bytes) (n : Node) (b : NodeAct) : Prop :=
  ∀ m ∈ n.moving b, m.th.req.name cfg = k → m.act.Served m.th.req.byteRange

instance (byteRange : Bytes) (a : Act) : Decidable (a.Served byteRange) :=
  inferInstanceAs (Decidable (_ ∧ _))

instance (cfg : Config) (k : Bytes) (n : Node) (b : NodeAct) : Decidable (n.Serves cfg k b) :=
  inferInstanceAs (Decidable (∀ m ∈ n.moving b, _ → m.act.Served m.th.req.byteRange))

/-- A connected request the upstream serves is not failed by its fetch. -/
theorem Fetch.step_served {byteRange : Bytes} {hub hub' : Hub} {f : Fetch} {b : FetchAct}
    {slot : Bool} {e : HttpError} (hconn : connected)
    (hserve : (Act.fetch b).Served byteRange) :
    f.step cfg t (!connected) byteRange hub b ≠ some (hub', .failed slot e) := by
  intro hf
  rcases Fetch.step_failed hf with ⟨-, hc, -⟩ | ⟨-, up, rfl, hcut, herr⟩
  · simp [hconn] at hc
  · have hok := hserve.1 up rfl (hcut.resolve_right (by simp [hconn]))
    rw [herr] at hok
    cases hok

/-! ### Invariants thread by thread -/

theorem get_append {α : Type*} {l : List α} {u : ℕ} {x other : α}
    (h : (l ++ [x])[u]? = some other) : l[u]? = some other ∨ (u = l.length ∧ other = x) := by
  rcases lt_or_ge u l.length with hlt | hge
  · rw [List.getElem?_append_left hlt] at h
    exact Or.inl h
  · rw [List.getElem?_append_right hge, List.getElem?_singleton] at h
    split at h
    · next hzero =>
      cases h
      exact Or.inr ⟨le_antisymm (Nat.sub_eq_zero_iff_le.mp hzero) hge, rfl⟩
    · cases h

theorem get_set {α : Type*} {l : List α} {t u : ℕ} {x other : α}
    (h : (l.set t x)[u]? = some other) : (u = t ∧ other = x) ∨ (u ≠ t ∧ l[u]? = some other) := by
  rw [List.getElem?_set] at h
  split at h
  · next htu =>
    split at h
    · cases h
      exact Or.inl ⟨htu.symm, rfl⟩
    · cases h
  · next htu => exact Or.inr ⟨Ne.symm htu, h⟩

theorem get_kill {threads : List Thread} {u : Tid} {other : Thread}
    (h : (threads.map fun th => { th with stage := th.stage.kill })[u]? = some other) :
    ∃ th, threads[u]? = some th ∧ other = { th with stage := th.stage.kill } := by
  rw [List.getElem?_map, Option.map_eq_some_iff] at h
  obtain ⟨th, hth, rfl⟩ := h
  exact ⟨th, hth, rfl⟩

/-- `I` holds of the shared state and the number of threads, and `L` of every thread. -/
structure Node.Each (I : Shared → ℕ → Prop) (L : Shared → Tid → Thread → Prop) (n : Node) :
    Prop where
  shared : I n.shared n.threads.length
  thread : ∀ {t th}, n.threads[t]? = some th → L n.shared t th

/-- What has to be shown for `Node.Each I L` to be kept by the steps that meet `ok`. -/
structure Node.Stable (cfg : Config) (ok : Node → NodeAct → Prop) (I : Shared → ℕ → Prop)
    (L : Shared → Tid → Thread → Prop) : Prop where
  arrive : ∀ {n : Node} {req : Request}, n.Each I L → ok n (.arrive req) →
    I n.shared (n.threads.length + 1) ∧ L n.shared n.threads.length ⟨req, .check, true⟩
  disconnect : ∀ {n : Node} {t : Tid} {th : Thread}, n.Each I L → ok n (.disconnect t) →
    n.threads[t]? = some th → L n.shared t { th with connected := false }
  move : ∀ {n : Node} {t : Tid} {th : Thread} {a : Act} {sh : Shared} {stage : Stage},
    n.Each I L → ok n (.thread t a) → n.threads[t]? = some th →
    th.stage.Moves cfg t th.req th.connected n.shared a sh stage →
    I sh n.threads.length ∧ L sh t { th with stage := stage }
  frame : ∀ {n : Node} {t u : Tid} {th other : Thread} {a : Act} {sh : Shared} {stage : Stage},
    n.Each I L → ok n (.thread t a) → n.threads[t]? = some th →
    th.stage.Moves cfg t th.req th.connected n.shared a sh stage →
    u ≠ t → n.threads[u]? = some other → L sh u other
  background : ∀ {n : Node} {a : NodeAct} {hub : Hub}, n.Each I L → ok n a →
    (∀ t, Sem.Op cfg.slots t n.shared.hub.sem hub.sem) →
    hub.metrics.ledger = n.shared.hub.metrics.ledger →
    I { n.shared with hub := hub } n.threads.length ∧
      ∀ {t th}, n.threads[t]? = some th → L { n.shared with hub := hub } t th
  restart : ∀ {n : Node} {b : Boot}, n.Each I L → ok n (.restart b) →
    I (.boot cfg b n.shared.disk) n.threads.length ∧
      ∀ {t th}, n.threads[t]? = some th →
        L (.boot cfg b n.shared.disk) t { th with stage := th.stage.kill }

/-- Step rule: what the moving thread restores and no other thread loses, a step of the
node keeps. -/
theorem Node.each_step {ok : Node → NodeAct → Prop} {I : Shared → ℕ → Prop}
    {L : Shared → Tid → Thread → Prop} (h : Node.Stable cfg ok I L) {n n' : Node} {a : NodeAct}
    (hn : n.Each I L) (hok : ok n a) (hstep : n.step cfg a = some n') : n'.Each I L := by
  cases Node.step_moves hstep with
  | arrive req =>
    obtain ⟨hI, hL⟩ := h.arrive hn hok
    refine ⟨by simpa using hI, fun {u other} hu => ?_⟩
    rcases get_append hu with hu | ⟨rfl, rfl⟩
    · exact hn.thread hu
    · exact hL
  | disconnect ht =>
    have hL := h.disconnect hn hok ht
    refine ⟨by simpa using hn.shared, fun {u other} hu => ?_⟩
    rcases get_set hu with ⟨rfl, rfl⟩ | ⟨-, hu⟩
    · exact hL
    · exact hn.thread hu
  | thread ht hm =>
    obtain ⟨hI, hL⟩ := h.move hn hok ht hm
    refine ⟨by simpa using hI, fun {u other} hu => ?_⟩
    rcases get_set hu with ⟨rfl, rfl⟩ | ⟨hne, hu⟩
    · exact hL
    · exact h.frame hn hok ht hm hne hu
  | background _ hsem hl =>
    obtain ⟨hI, hL⟩ := h.background hn hok hsem hl
    exact ⟨hI, fun ht => hL ht⟩
  | restart b =>
    obtain ⟨hI, hL⟩ := h.restart hn hok
    refine ⟨by simpa using hI, fun {u other} hu => ?_⟩
    obtain ⟨th, hth, rfl⟩ := get_kill hu
    exact hL hth

/-- A sum over the threads changes by what the moving one changes. -/
theorem sum_set {α : Type*} {l : List α} {t : ℕ} {x : α} (ht : l[t]? = some x) (w : α → ℕ)
    (x' : α) : ((l.set t x').map w).sum + w x = (l.map w).sum + w x' := by
  induction l generalizing t with
  | nil => cases ht
  | cons y rest ih =>
    cases t with
    | zero =>
      cases ht
      simp only [List.set_cons_zero, List.map_cons, List.sum_cons]
      omega
    | succ t =>
      have := ih (t := t) (by simpa using ht)
      simp only [List.set_cons_succ, List.map_cons, List.sum_cons]
      omega

/-! ### What every run keeps -/

/-- The thread runs the closure of its flight. -/
def Stage.leads : Stage → Bool
  | .fetch _ | .write _ _ | .record _ _ | .evict _ _ | .remove _ _ _ | .book _ _ | .ret _ _
  | .finish _ => true
  | _ => false

/-- The thread holds the LRU lock. -/
def Stage.locks : Stage → Bool
  | .evict _ _ | .remove _ _ _ => true
  | _ => false

/-- The thread has left `Do`, or never will. -/
def Stage.published : Stage → Bool
  | .reply _ | .done _ | .killed => true
  | _ => false

theorem Stage.kill_leads (st : Stage) : st.kill.leads = false := by
  cases st <;> rfl

theorem Stage.kill_locks (st : Stage) : st.kill.locks = false := by
  cases st <;> rfl

theorem Stage.kill_published (st : Stage) : st.kill.published = true := by
  cases st <;> rfl

theorem Stage.Moves.sem (h : st.Moves cfg t req connected sh a sh' st') :
    Sem.Op cfg.slots t sh.hub.sem sh'.hub.sem := by
  cases h
  case fetchGo hf => exact Fetch.step_sem hf
  case fetchFilled hf => exact Fetch.step_sem hf
  case fetchFailed hf => exact Fetch.step_sem hf
  case release slot out =>
    cases slot
    · exact .idle _
    · exact .released _
  all_goals exact .idle _

theorem Sem.trySend_queues {slots : Option ℕ} {s s' : Sem} (h : s.trySend slots = some s') :
    s'.waitq = s.waitq ∧ s'.granted = s.granted := by
  cases slots with
  | none =>
    cases h
    exact ⟨rfl, rfl⟩
  | some cap =>
    rw [Sem.trySend] at h
    split at h
    · cases h
      exact ⟨rfl, rfl⟩
    · cases h

/-- A goroutine stays in the queue, or has been handed a slot, whatever others do. -/
theorem Sem.Op.stays {slots : Option ℕ} {u : Tid} {s s' : Sem} (h : Sem.Op slots u s s')
    (hne : t ≠ u) (hq : t ∈ s.waitq ∨ t ∈ s.granted) : t ∈ s'.waitq ∨ t ∈ s'.granted := by
  cases h with
  | idle => exact hq
  | sent hs =>
    obtain ⟨hw, hg⟩ := Sem.trySend_queues hs
    rwa [hw, hg]
  | queued => exact hq.imp_left fun h => List.mem_append_left _ h
  | left => exact hq.imp_left (List.mem_erase_of_ne hne).mpr
  | took => exact hq.imp_right (List.mem_erase_of_ne hne).mpr
  | released =>
    cases slots with
    | none => exact hq
    | some cap =>
      rw [Sem.release]
      split
      · exact hq
      · next v rest hw =>
        rw [hw] at hq
        simp only [List.mem_cons, List.mem_append, List.not_mem_nil, or_false] at hq ⊢
        tauto

/-- What every run keeps of the shared state: it names no thread that never arrived. -/
structure BaseShared (sh : Shared) (m : ℕ) : Prop where
  flights : ∀ {k l}, sh.flights.lookup k = some l → l < m
  results : ∀ {l out}, sh.results.lookup l = some out → l < m
  lock : ∀ {l}, sh.lruLock = some l → l < m

/-- What every run keeps of a thread. -/
structure BaseThread (cfg : Config) (sh : Shared) (t : Tid) (th : Thread) : Prop where
  leads : ∀ k, sh.flights.lookup k = some t ↔ th.stage.leads ∧ th.req.name cfg = k
  locks : sh.lruLock = some t ↔ th.stage.locks
  unpublished : th.stage.published = false → sh.results.lookup t = none
  waits : ∀ {l}, th.stage = .wait l → sh.results.lookup l = none →
    sh.flights.lookup (th.req.name cfg) = some l
  queued : th.stage = .fetch .blocked → t ∈ sh.hub.sem.waitq ∨ t ∈ sh.hub.sem.granted

/-- One leader a flight, one holder of the LRU lock, and every wait is for a flight of
the same file or for a result that is there. -/
abbrev Node.Base (cfg : Config) (n : Node) : Prop :=
  n.Each BaseShared (BaseThread cfg)

theorem base_init (cfg : Config) : (Node.init cfg).Base cfg where
  shared := ⟨by simp [Node.init, Shared.fresh], by simp [Node.init, Shared.fresh],
    by simp [Node.init, Shared.fresh]⟩
  thread := by simp [Node.init]

/-- The thread's own step changes nothing `BaseThread` reads. -/
theorem BaseThread.quiet {th th' : Thread} (hL : BaseThread cfg sh t th)
    (hf : sh'.flights = sh.flights) (hr : sh'.results = sh.results)
    (hl : sh'.lruLock = sh.lruLock) (hreq : th'.req = th.req)
    (hleads : th'.stage.leads = th.stage.leads) (hlocks : th'.stage.locks = th.stage.locks)
    (hpub : th'.stage.published = false → th.stage.published = false)
    (hwait : ∀ {l}, th'.stage ≠ .wait l)
    (hq : th'.stage = .fetch .blocked → t ∈ sh'.hub.sem.waitq ∨ t ∈ sh'.hub.sem.granted) :
    BaseThread cfg sh' t th' where
  leads k := by rw [hf, hleads, hreq]; exact hL.leads k
  locks := by rw [hl, hlocks]; exact hL.locks
  unpublished h := by rw [hr]; exact hL.unpublished (hpub h)
  waits h := absurd h hwait
  queued := hq

/-- The moving thread restores the invariant. -/
theorem BaseThread.move {m : ℕ} {th : Thread} (hI : BaseShared sh m) (hL : BaseThread cfg sh t th)
    (ht : t < m) (h : th.stage.Moves cfg t th.req th.connected sh a sh' st') :
    BaseShared sh' m ∧ BaseThread cfg sh' t { th with stage := st' } := by
  obtain ⟨req, st, connected⟩ := th
  cases h
  case follow leader hf =>
    refine ⟨hI, ⟨hL.leads, hL.locks, hL.unpublished, ?_, nofun⟩⟩
    rintro l hl -
    cases hl
    exact hf
  case lead hf =>
    -- the flight of its name is new, and its own
    refine ⟨⟨?_, hI.results, hI.lock⟩, ⟨?_, hL.locks, hL.unpublished, nofun, nofun⟩⟩
    · intro k l hk
      by_cases hname : k = Request.name cfg req
      · rw [hname, AList.lookup_insert] at hk
        cases hk
        exact ht
      · rw [AList.lookup_insert_ne hname] at hk
        exact hI.flights hk
    · intro k
      by_cases hname : k = Request.name cfg req
      · rw [hname, AList.lookup_insert]
        simp [Stage.leads]
      · rw [AList.lookup_insert_ne hname, hL.leads]
        simp [Stage.leads, Ne.symm hname]
  case finish out =>
    -- its flight goes, and its result is published in one step
    refine ⟨⟨?_, ?_, hI.lock⟩, ⟨?_, hL.locks, nofun, nofun, nofun⟩⟩
    · intro k l hk
      by_cases hname : k = Request.name cfg req
      · rw [hname, AList.lookup_erase] at hk
        cases hk
      · rw [AList.lookup_erase_ne hname] at hk
        exact hI.flights hk
    · intro l o hl
      by_cases hlt : l = t
      · exact hlt ▸ ht
      · rw [AList.lookup_insert_ne hlt] at hl
        exact hI.results hl
    · intro k
      by_cases hname : k = Request.name cfg req
      · rw [hname, AList.lookup_erase]
        simp [Stage.leads]
      · rw [AList.lookup_erase_ne hname, hL.leads]
        simp [Stage.leads, Ne.symm hname]
  case record src res hl =>
    refine ⟨⟨hI.flights, hI.results, ?_⟩, ⟨hL.leads, by simp [Stage.locks], hL.unpublished, nofun,
      nofun⟩⟩
    rintro l hl
    cases hl
    exact ht
  case evictStop src res free hs =>
    exact ⟨⟨hI.flights, hI.results, nofun⟩, ⟨hL.leads, by simp [Stage.locks], hL.unpublished,
      nofun, nofun⟩⟩
  case fetchGo f f' b hub hf =>
    refine ⟨⟨hI.flights, hI.results, hI.lock⟩, hL.quiet rfl rfl rfl rfl rfl rfl id nofun ?_⟩
    intro hb
    cases hb
    exact Or.inl (Fetch.step_blocked hf)
  all_goals
    exact ⟨⟨hI.flights, hI.results, hI.lock⟩,
      hL.quiet rfl rfl rfl rfl rfl rfl (by simp [Stage.published]) nofun nofun⟩

/-- The leader of a running flight is a thread in its closure. -/
theorem Node.Base.leader {n : Node} (h : n.Base cfg) {k : Bytes} {l : Tid}
    (hf : n.shared.flights.lookup k = some l) :
    ∃ lead, n.threads[l]? = some lead ∧ lead.stage.leads ∧ lead.req.name cfg = k ∧
      n.shared.results.lookup l = none := by
  have hlt := h.shared.flights hf
  have hget := List.getElem?_eq_getElem hlt
  have hL := h.thread hget
  obtain ⟨hleads, hname⟩ := (hL.leads k).mp hf
  refine ⟨_, hget, hleads, hname, hL.unpublished ?_⟩
  revert hleads
  cases (n.threads[l]).stage <;> simp [Stage.leads, Stage.published]

/-- The moving thread disturbs no other. -/
theorem BaseThread.frame {th other : Thread} {u : Tid} (hL : BaseThread cfg sh t th)
    (h : th.stage.Moves cfg t th.req th.connected sh a sh' st') (hne : u ≠ t)
    (hu : BaseThread cfg sh u other) : BaseThread cfg sh' u other := by
  have hqueued : other.stage = .fetch .blocked →
      u ∈ sh'.hub.sem.waitq ∨ u ∈ sh'.hub.sem.granted := fun hb => h.sem.stays hne (hu.queued hb)
  obtain ⟨req, st, connected⟩ := th
  cases h
  case lead hf =>
    refine ⟨?_, hu.locks, hu.unpublished, ?_, hqueued⟩
    · intro k
      by_cases hname : k = Request.name cfg req
      · rw [hname, AList.lookup_insert]
        have := hu.leads (Request.name cfg req)
        rw [hf] at this
        simpa [Ne.symm hne] using this
      · rw [AList.lookup_insert_ne hname]
        exact hu.leads k
    · intro l hw hl
      have hlead := hu.waits hw hl
      by_cases hname : Request.name cfg other.req = Request.name cfg req
      · -- it waits for a flight of this name, but there was none
        rw [hname, hf] at hlead
        cases hlead
      · rw [AList.lookup_insert_ne hname]
        exact hlead
  case finish out =>
    have hmine := (hL.leads (Request.name cfg req)).mpr ⟨rfl, rfl⟩
    refine ⟨?_, hu.locks, ?_, ?_, hqueued⟩
    · intro k
      by_cases hname : k = Request.name cfg req
      · rw [hname, AList.lookup_erase]
        have := hu.leads (Request.name cfg req)
        rw [hmine] at this
        simpa [Ne.symm hne] using this
      · rw [AList.lookup_erase_ne hname]
        exact hu.leads k
    · intro hp
      rw [AList.lookup_insert_ne hne]
      exact hu.unpublished hp
    · intro l hw hl
      by_cases hlt : l = t
      · -- its leader has just published
        rw [hlt, AList.lookup_insert] at hl
        cases hl
      · rw [AList.lookup_insert_ne hlt] at hl
        have hlead := hu.waits hw hl
        by_cases hname : Request.name cfg other.req = Request.name cfg req
        · rw [hname, hmine] at hlead
          cases hlead
          exact absurd rfl hlt
        · rw [AList.lookup_erase_ne hname]
          exact hlead
  case record src res hl =>
    refine ⟨hu.leads, ?_, hu.unpublished, hu.waits, hqueued⟩
    have := hu.locks
    rw [hl] at this
    simpa [Ne.symm hne] using this
  case evictStop src res free hs =>
    refine ⟨hu.leads, ?_, hu.unpublished, hu.waits, hqueued⟩
    have hmine := hL.locks.mpr rfl
    have := hu.locks
    rw [hmine] at this
    simpa [Ne.symm hne] using this
  all_goals exact ⟨hu.leads, hu.locks, hu.unpublished, hu.waits, hqueued⟩

theorem base_stable (cfg : Config) :
    Node.Stable cfg (fun _ _ => True) BaseShared (BaseThread cfg) where
  arrive := by
    intro n req hn _
    have hlt := fun {k l} => hn.shared.flights (k := k) (l := l)
    refine ⟨⟨fun h => (hn.shared.flights h).trans (Nat.lt_succ_self _),
      fun h => (hn.shared.results h).trans (Nat.lt_succ_self _),
      fun h => (hn.shared.lock h).trans (Nat.lt_succ_self _)⟩, ⟨?_, ?_, ?_, nofun, nofun⟩⟩
    · intro k
      simp only [Stage.leads, Bool.false_eq_true, false_and, iff_false]
      exact fun h => (hn.shared.flights h).ne rfl
    · simp only [Stage.locks, Bool.false_eq_true, iff_false]
      exact fun h => (hn.shared.lock h).ne rfl
    · intro _
      cases hr : n.shared.results.lookup n.threads.length with
      | none => rfl
      | some out => exact absurd rfl (hn.shared.results hr).ne
  disconnect := by
    intro n t th hn _ ht
    have hL := hn.thread ht
    exact ⟨hL.leads, hL.locks, hL.unpublished, hL.waits, hL.queued⟩
  move := by
    intro n t th a sh stage hn _ ht h
    exact (hn.thread ht).move hn.shared (List.getElem?_eq_some_iff.mp ht).1 h
  frame := by
    intro n t u th other a sh stage hn _ ht h hne hu
    exact (hn.thread ht).frame h hne (hn.thread hu)
  background := by
    intro n a hub hn _ hsem _
    refine ⟨⟨hn.shared.flights, hn.shared.results, hn.shared.lock⟩, fun {t th} ht => ?_⟩
    have hL := hn.thread ht
    exact ⟨hL.leads, hL.locks, hL.unpublished, hL.waits,
      fun hb => (hsem (t + 1)).stays (Nat.succ_ne_self t).symm (hL.queued hb)⟩
  restart := by
    intro n b hn _
    refine ⟨⟨by simp [Shared.boot, Shared.fresh], by simp [Shared.boot, Shared.fresh],
      by simp [Shared.boot, Shared.fresh]⟩, fun {t th} ht => ⟨?_, ?_, ?_, ?_, ?_⟩⟩
    · simp [Shared.boot, Shared.fresh, Stage.kill_leads]
    · simp [Shared.boot, Shared.fresh, Stage.kill_locks]
    · simp [Stage.kill_published]
    · intro l hw
      cases hst : th.stage <;> simp [hst, Stage.kill] at hw
    · intro hb
      cases hst : th.stage <;> simp [hst, Stage.kill] at hb

/-- Every run keeps `Node.Base`. -/
theorem Node.Base.step {n n' : Node} {b : NodeAct} (h : n.Base cfg)
    (hstep : n.step cfg b = some n') :
    n'.Base cfg := Node.each_step (base_stable cfg) h trivial hstep

theorem Node.Base.exec {as : List NodeAct} {n : Node}
    (h : Transition.exec (Node.step cfg) (Node.init cfg) as = some n) : n.Base cfg :=
  Transition.exec_always (Node.Base cfg) (fun hs => hs.step) (base_init cfg) h

end XetDcCache
