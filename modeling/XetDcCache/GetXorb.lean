/-
A node (xorb.go, main.go).

Every request is a thread that runs `getXorb`; `Stage` is where it is, and one
`Stage.step` is one access to what the threads share: the cache dir, the LRU and
its lock, the singleflight group, and the `Hub` of the fetches.  `Node.step`
interleaves the threads with arrivals, disconnects, the CDN goroutines that
outlive their race, and restarts.
-/
import XetDcCache.PeerFetch
import XetDcCache.Lru

namespace XetDcCache

/-! ### Requests and responses -/

inductive Method
  | get
  | head
deriving DecidableEq, Repr

/-- A request to `/xorb/xorbs/default/{xorb_hash}`; `byteRange` is its `Range` header,
empty if absent. -/
structure Request where
  method : Method
  hash : Bytes
  byteRange : Bytes
  isPeer : Bool
deriving DecidableEq, Repr

structure Response where
  status : ℕ
  headers : List (Bytes × Bytes)
  body : Bytes
deriving DecidableEq, Repr

/-- The name of the cache file of a request. -/
def Request.name (cfg : Config) (req : Request) : Bytes :=
  cacheName cfg.sum256 req.hash req.byteRange

def setXorbHeaders (cache contentRange : Bytes) (n : Int64) : List (Bytes × Bytes) :=
  [(lit "X-Cache", cache), (lit "Accept-Ranges", lit "bytes"),
    (lit "Content-Type", lit "application/octet-stream"), (lit "Content-Length", formatInt n)] ++
  if contentRange ≠ [] then [(lit "Content-Range", contentRange)] else []

def writeXorbBytes (body cache contentRange : Bytes) : Response :=
  ⟨206, setXorbHeaders cache contentRange (Int64.ofNat body.length), body⟩

def writeXorbStream (file contentRange : Bytes) (n : Int64) : Response :=
  ⟨206, setXorbHeaders (lit "HIT") contentRange n, file⟩

/-- The response to a hit. -/
def serveHit (cfg : Config) (byteRange file : Bytes) : Response :=
  let n := Int64.ofNat file.length
  if cfg.streamHits then writeXorbStream file (contentRangeForHit byteRange n) n
  else writeXorbBytes file (lit "HIT") (contentRangeForHit byteRange n)

/-- `http.Error`. -/
def httpErrWrite (e : HttpError) : Response :=
  ⟨e.code, [(lit "Content-Type", lit "text/plain; charset=utf-8"),
    (lit "X-Content-Type-Options", lit "nosniff")], e.msg ++ [10]⟩

def rangeRequired : HttpError := ⟨400, lit "Range header required (xorbs are range-addressed)"⟩

def notFound : Response := ⟨404, [], []⟩

def headFound : Response := ⟨200, [(lit "Accept-Ranges", lit "bytes")], []⟩

/-! ### Threads -/

/-- What `getXorb` answers its client from: a body or an error. -/
abbrev Outcome := Except HttpError XorbResult

/-- Where a thread is in `getXorb`.  From `fetch` to `finish` it runs the closure of its
flight; `evict` and `remove` are inside `Record`, under the LRU lock; `killed` is a
request the process did not live to answer. -/
inductive Stage
  | check
  | headHit
  | hit (file : Bytes)
  | serve (file : Bytes)
  | join
  | wait (leader : Tid)
  | fetch (f : Fetch)
  | write (src : FillSource) (res : XorbResult)
  | record (src : FillSource) (res : XorbResult)
  | evict (src : FillSource) (res : XorbResult)
  | remove (src : FillSource) (res : XorbResult) (victim : Bytes)
  | book (src : FillSource) (res : XorbResult)
  | ret (slot : Bool) (out : Outcome)
  | finish (out : Outcome)
  | reply (out : Outcome)
  | done (resp : Response)
  | killed
deriving DecidableEq

/-- The status a request was answered with. -/
def Stage.status : Stage → Option ℕ
  | .done resp => some resp.status
  | _ => none

/-- `connected`: the request's context is not cancelled. -/
structure Thread where
  req : Request
  stage : Stage
  connected : Bool
deriving DecidableEq

/-- A body fetched and written, by the flight of `tid`. -/
structure Fill where
  tid : Tid
  name : Bytes
  src : FillSource
  body : Bytes
deriving DecidableEq, Repr

/-- What the threads share.  `flights` has the leader of each running flight and `results`
what the flight of a leader returned; `fills` is the history of the fills of this process. -/
structure Shared where
  hub : Hub
  disk : AList fun _ : Bytes => Bytes
  lru : LruCache Bytes
  lruLock : Option Tid
  flights : AList fun _ : Bytes => Tid
  results : AList fun _ : Tid => Outcome
  fills : List Fill

/-- A thread's next step.  `check` and `remove` say whether the file operation succeeds, `write`
its error, `evict` what `freeFn` answers. -/
inductive Act
  | check (ok : Bool)
  | touch
  | serve
  | join
  | wake
  | fetch (a : FetchAct)
  | write (err : Option Bytes)
  | record
  | evict (free : Option Int64)
  | remove (ok : Bool)
  | book
  | release
  | finish

/-- The counters of a fill, booked by the branch that made it. -/
def Metrics.bookFill (m : Metrics) (res : XorbResult) : FillSource → Metrics
  | .plain =>
    { m with misses := m.misses + 1, wanBytes := m.wanBytes + res.body.length }
  | .race _ => { m with misses := m.misses + 1 }

def Stage.step (cfg : Config) (t : Tid) (req : Request) (connected : Bool) (sh : Shared) :
    Stage → Act → Option (Shared × Stage)
  | .check, .check ok =>
    if req.byteRange = [] then some (sh, .done (httpErrWrite rangeRequired))
    else
      match req.method, if ok then sh.disk.lookup (req.name cfg) else none with
      | .head, some _ => some (sh, .headHit)
      | .head, none => some (sh, .done notFound)
      | .get, some file => some (sh, .hit file)
      | .get, none => if req.isPeer then some (sh, .done notFound) else some (sh, .join)
  | .headHit, .touch =>
    if sh.lruLock = none then
      some ({ sh with lru := sh.lru.touch (req.name cfg) }, .done headFound)
    else none
  | .hit file, .touch =>
    if sh.lruLock = none then
      some ({ sh with lru := sh.lru.touch (req.name cfg) }, .serve file)
    else none
  | .serve file, .serve =>
    let m := sh.hub.metrics
    some ({ sh with
      hub := { sh.hub with
        metrics := { m with
          hits := m.hits + 1
          servedBytes := m.servedBytes + file.length } } },
      .done (serveHit cfg req.byteRange file))
  -- singleflight.Do
  | .join, .join =>
    match sh.flights.lookup (req.name cfg) with
    | some leader => some (sh, .wait leader)
    | none => some ({ sh with flights := sh.flights.insert (req.name cfg) t }, .fetch .enter)
  | .wait leader, .wake =>
    match sh.results.lookup leader with
    | some out => some (sh, .reply out)
    | none => none
  -- the closure of the flight
  | .fetch f, .fetch a =>
    match f.step cfg t (!connected) req.byteRange sh.hub a with
    | none => none
    | some (hub, .go f') => some ({ sh with hub := hub }, .fetch f')
    | some (hub, .filled src res) => some ({ sh with hub := hub }, .write src res)
    | some (hub, .failed slot e) => some ({ sh with hub := hub }, .ret slot (.error e))
  | .write src res, .write none =>
    some ({ sh with
      disk := sh.disk.insert (req.name cfg) res.body
      fills := sh.fills ++ [⟨t, req.name cfg, src, res.body⟩] }, .record src res)
  | .write src _, .write (some err) =>
    some (sh, .ret (src = .plain) (.error ⟨500, lit "cache write: " ++ err⟩))
  | .record src res, .record =>
    if sh.lruLock = none then
      some ({ sh with
        lruLock := some t
        lru := sh.lru.recordEntry (req.name cfg) (Int64.ofNat res.body.length) }, .evict src res)
    else none
  | .evict src res, .evict free =>
    match sh.lru.popFront with
    | none => some ({ sh with lruLock := none }, .book src res)
    | some (victim, lru) =>
      if sh.lru.overLimitLocked free then some ({ sh with lru := lru }, .remove src res victim)
      else some ({ sh with lruLock := none }, .book src res)
  | .remove src res victim, .remove ok =>
    some ({ sh with disk := if ok then sh.disk.erase victim else sh.disk }, .evict src res)
  | .book src res, .book =>
    some ({ sh with hub := { sh.hub with metrics := sh.hub.metrics.bookFill res src } },
      .ret (src = .plain) (.ok res))
  | .ret slot out, .release =>
    some ({ sh with
      hub := { sh.hub with sem := if slot then sh.hub.sem.release cfg.slots else sh.hub.sem } },
      .finish out)
  | .finish out, .finish =>
    some ({ sh with
      flights := sh.flights.erase (req.name cfg)
      results := sh.results.insert t out }, .reply out)
  -- the caller of Do
  | .reply (.ok res), .serve =>
    let m := sh.hub.metrics
    some ({ sh with
      hub := { sh.hub with
        metrics := { m with servedBytes := m.servedBytes + res.body.length } } },
      .done (writeXorbBytes res.body (lit "MISS") res.contentRange))
  | .reply (.error e), .serve => some (sh, .done (httpErrWrite e))
  | _, _ => none

/-! ### The node -/

structure Node where
  shared : Shared
  threads : List Thread

/-- What a process meets when it boots: which files `seedLRU` can read, their modification
times, the order `sort.Slice` leaves, what `freeFn` answers, and which removals succeed. -/
structure Boot where
  readable : Bytes → Bool
  mtime : Bytes → ℤ
  sort : Lru.SortSlice Bytes
  free : Option (ℕ → Int64)
  removes : Bytes → Bool

inductive NodeAct
  | arrive (req : Request)
  | disconnect (t : Tid)
  | thread (t : Tid) (a : Act)
  | orphan (i : ℕ) (a : CdnAct)
  | drain (i : ℕ)
  | restart (b : Boot)

/-- The seeds `seedLRU` gathers from the cache dir. -/
def Boot.seeds (b : Boot) (disk : AList fun _ : Bytes => Bytes) : List (LruSeed Bytes) :=
  (disk.entries.filter fun e => b.readable e.1).map fun e =>
    ⟨e.1, Int64.ofNat e.2.length, b.mtime e.1⟩

/-- The cache dir once the deleted files that can be removed are. -/
def Boot.sweep (b : Boot) (disk : AList fun _ : Bytes => Bytes) (deleted : List Bytes) :
    AList fun _ : Bytes => Bytes :=
  deleted.foldl (fun d k => if b.removes k then d.erase k else d) disk

/-- A process that has nothing in memory yet. -/
def Shared.fresh (cfg : Config) (disk : AList fun _ : Bytes => Bytes) : Shared where
  hub := ⟨.empty, ⟨[], 0⟩, .zero, []⟩
  disk := disk
  lru := .new cfg.maxBytes cfg.minFree
  lruLock := none
  flights := ∅
  results := ∅
  fills := []

/-- `main` up to `ListenAndServe`. -/
def Shared.boot (cfg : Config) (b : Boot) (disk : AList fun _ : Bytes => Bytes) : Shared :=
  let loaded := (LruCache.new cfg.maxBytes cfg.minFree).load b.sort (b.seeds disk) b.free
  { Shared.fresh cfg (b.sweep disk loaded.1) with lru := loaded.2 }

/-- A request that is answered stays so, any other dies with the process. -/
def Stage.kill : Stage → Stage
  | .done resp => .done resp
  | _ => .killed

namespace Node

/-- A node on an empty cache dir. -/
def init (cfg : Config) : Node := ⟨.fresh cfg ∅, []⟩

def step (cfg : Config) (n : Node) : NodeAct → Option Node
  | .arrive req => some { n with threads := n.threads ++ [⟨req, .check, true⟩] }
  | .disconnect t =>
    match n.threads[t]? with
    | none => none
    | some th => some { n with threads := n.threads.set t { th with connected := false } }
  | .thread t a =>
    match n.threads[t]? with
    | none => none
    | some th =>
      match th.stage.step cfg t th.req th.connected n.shared a with
      | none => none
      | some (sh, stage) => some ⟨sh, n.threads.set t { th with stage := stage }⟩
  -- the race is over, so its context is cancelled
  | .orphan i a =>
    match n.shared.hub.orphans[i]? with
    | none => none
    | some (byteRange, c) =>
      match c.step cfg.slots true byteRange n.shared.hub.sem a with
      | none => none
      | some (sem, c') =>
        some { n with
          shared := { n.shared with
            hub := { n.shared.hub with
              sem := sem
              orphans := n.shared.hub.orphans.set i (byteRange, c') } } }
  | .drain i =>
    match n.shared.hub.orphans[i]? with
    | some (_, .sent _ read) =>
      let m := n.shared.hub.metrics
      some { n with
        shared := { n.shared with
          hub := { n.shared.hub with
            orphans := n.shared.hub.orphans.eraseIdx i
            metrics := { m with peerBytesWasted := m.peerBytesWasted + read } } } }
    | _ => none
  | .restart b =>
    some ⟨.boot cfg b n.shared.disk,
      n.threads.map fun th => { th with stage := th.stage.kill }⟩

/-- A thread about to take a step. -/
structure Move where
  tid : Tid
  th : Thread
  act : Act

/-- The thread an action moves. -/
def moving (n : Node) : NodeAct → Option Move
  | .thread t a => n.threads[t]?.map fun th => ⟨t, th, a⟩
  | _ => none

end Node

/-! ### A small node -/

/-- A node with no peers and no limits, which names its files by the key itself. -/
def Config.lone : Config := ⟨[], none, 0, 0, 0, true, id⟩

def Request.ranged (hash : Bytes) : Request := ⟨.get, hash, lit "bytes=0-0", false⟩

/-- A CDN that authorizes its first candidate and serves `body`. -/
def Upstream.serving (body : Bytes) : Upstream :=
  ⟨some [lit "u"], none, fun _ _ _ => .reply ⟨206, [], .full body⟩⟩

/-- A pull whose context is cancelled before its first attempt. -/
def Upstream.cutShort : Upstream := ⟨some [lit "u"], some 0, fun _ _ _ => .failed⟩

/-- A request misses and asks for its flight. -/
def missing (t : Tid) (hash : Bytes) : List NodeAct :=
  [.arrive (.ranged hash), .thread t (.check true), .thread t .join]

/-- The leader of a flight fetches `body`. -/
def fetching (t : Tid) (body : Bytes) : List NodeAct :=
  [.thread t (.fetch (.begin 0)), .thread t (.fetch .acquire),
    .thread t (.fetch (.pull (.serving body)))]

/-- It caches the body, with nothing to evict. -/
def caching (t : Tid) : List NodeAct :=
  [.thread t (.write none), .thread t .record, .thread t (.evict none), .thread t .book]

/-- It ends its flight and answers. -/
def ending (t : Tid) : List NodeAct :=
  [.thread t .release, .thread t .finish, .thread t .serve]

end XetDcCache
