/-
The bytes a node stores and serves under a name.

A node never makes bytes up.  If every result a fetch for `(hash, range)` brings in from
outside is `good hash range`, so is every file the node has stored for `(hash, range)`,
whatever is evicted, fails to be written, or dies with the process, and every 206 it
writes (`Node.Coherent.exec`).

A waiting request gets the result of a flight of the same file name, which is that of
the same `(hash, range)` because SHA-256 is injective and hashes hold no colon.
-/
import XetDcCache.Threads

namespace XetDcCache

open Transition

variable {cfg : Config} {t : Tid} {req : Request} {connected : Bool} {sh sh' : Shared}
  {st st' : Stage} {a : Act} {good : Bytes → Prop}

/-! ### What is good -/

/-- A result is good; an error is an error status. -/
def Outcome.Holds (good : Bytes → Prop) : Outcome → Prop
  | .ok res => good res.body
  | .error e => 400 ≤ e.code

/-- A response is a good 206, the bare 200 of a HEAD, or an error. -/
def Response.Holds (good : Bytes → Prop) (resp : Response) : Prop :=
  resp.status = 206 ∧ good resp.body ∨ resp.status = 200 ∧ resp.body = [] ∨ 400 ≤ resp.status

/-- All bytes the thread holds are good, and so is a 206 it has written. -/
def Stage.Holds (good : Bytes → Prop) : Stage → Prop
  | .hit file | .serve file => good file
  | .fetch f => ∀ res ∈ f.results, good res.body
  | .write _ res | .record _ res | .evict _ res | .remove _ res _ | .book _ res => good res.body
  | .ret _ out | .finish out | .reply out => out.Holds good
  | .done resp => resp.Holds good
  | _ => True

/-- The results an action brings in from outside. -/
def Act.brings (byteRange : Bytes) : Act → List XorbResult
  | .fetch a => a.brings byteRange
  | _ => []

/-- Every hash that arrives is free of colons, and what is fetched is good. -/
def Node.Brings (good : Bytes → Bytes → Bytes → Prop) (n : Node) : NodeAct → Prop
  | .arrive req => (58 : UInt8) ∉ req.hash
  | b => ∀ m ∈ n.moving b, ∀ res ∈ m.act.brings m.th.req.byteRange,
      good m.th.req.hash m.th.req.byteRange res.body

/-! ### One thread -/

theorem Upstream.tryCandidates_error {up : Upstream} {byteRange : Bytes} {e : HttpError} :
    ∀ {cands : List Url} {i last : ℕ}, up.tryCandidates byteRange i cands last = .error e →
      e.code = 502 := by
  intro cands
  induction cands with
  | nil =>
    intro i last h
    cases h
    rfl
  | cons url rest ih =>
    intro i last h
    rw [tryCandidates] at h
    split at h
    · cases h
      rfl
    · split at h
      · exact ih h
      · split at h
        · cases h
        · exact ih h

/-- A pull that fails answers 409 or 502. -/
theorem Upstream.plainFetch_error {up : Upstream} {byteRange : Bytes} {e : HttpError}
    (h : up.plainFetch byteRange = .error e) : e.code = 409 ∨ e.code = 502 := by
  rw [plainFetch] at h
  cases hf : up.fetchAuthorized byteRange with
  | error e' =>
    rw [hf] at h
    cases h
    rw [fetchAuthorized] at hf
    split at hf
    · cases hf
      exact Or.inl rfl
    · cases hf
      exact Or.inl rfl
    · exact Or.inr (tryCandidates_error hf)
  | ok r =>
    rw [hf] at h
    cases hb : r.body with
    | full body =>
      simp only [hb] at h
      cases h
    | broken body err =>
      simp only [hb] at h
      cases h
      exact Or.inr rfl

/-- A fetch that fails answers 409, 502 or 503. -/
theorem Fetch.step_error {byteRange : Bytes} {cancelled : Bool} {hub hub' : Hub} {f : Fetch}
    {b : FetchAct} {slot : Bool} {e : HttpError}
    (h : f.step cfg t cancelled byteRange hub b = some (hub', .failed slot e)) :
    e.code = 409 ∨ e.code = 502 ∨ e.code = 503 := by
  rcases Fetch.step_failed h with ⟨-, -, -, rfl⟩ | ⟨-, up, -, -, herr⟩
  · exact Or.inr (Or.inr rfl)
  · exact (Upstream.plainFetch_error herr).imp_right Or.inl

/-- A hit is a 206 with the file. -/
theorem serveHit_file (cfg : Config) (byteRange file : Bytes) :
    (serveHit cfg byteRange file).status = 206 ∧ (serveHit cfg byteRange file).body = file := by
  rw [serveHit]
  split <;> exact ⟨rfl, rfl⟩

/-- Whatever a thread holds after a step is good if what it held, what it found and what it
brought in are. -/
theorem Stage.Moves.holds (h : st.Moves cfg t req connected sh a sh' st')
    (hdisk : ∀ {file}, sh.disk.lookup (req.name cfg) = some file → good file)
    (hbrings : ∀ res ∈ a.brings req.byteRange, good res.body)
    (hwait : ∀ {l out}, st = .wait l → sh.results.lookup l = some out → out.Holds good)
    (hst : st.Holds good) : st'.Holds good := by
  cases h
  case reject hr => exact Or.inr (Or.inr le_rfl)
  case absent hr hm hd => exact Or.inr (Or.inr (by decide))
  case touchHead hl => exact Or.inr (Or.inl ⟨rfl, rfl⟩)
  case hit ok file hr hm hd => exact hdisk (Shared.found_some hd)
  case serveHit file =>
    obtain ⟨hstatus, hbody⟩ := serveHit_file cfg req.byteRange file
    exact Or.inl ⟨hstatus, hbody.symm ▸ hst⟩
  case lead hf => exact fun res hres => nomatch hres
  case wake leader out hw => exact hwait rfl hw
  case fetchGo f f' b hub hf =>
    intro res hres
    rcases List.mem_append.mp (Fetch.step_results hf hres) with hold | hnew
    · exact hst res hold
    · exact hbrings res hnew
  case fetchFilled f b hub src res hf =>
    rcases List.mem_append.mp (Fetch.step_results hf List.mem_cons_self) with hold | hnew
    · exact hst res hold
    · exact hbrings res hnew
  case fetchFailed f b hub slot e hf =>
    have := Fetch.step_error hf
    show 400 ≤ e.code
    omega
  case writeFailed src res err => exact show 400 ≤ 500 by norm_num
  case serveMiss res => exact Or.inl ⟨rfl, hst⟩
  case serveError e => exact Or.inr (Or.inr hst)
  all_goals exact hst

theorem Stage.kill_holds (hst : st.Holds good) : st.kill.Holds good := by
  cases st with
  | done resp => exact hst
  | _ => trivial

/-! ### The node -/

/-- What is stored is good. -/
def Shared.Coherent (cfg : Config) (good : Bytes → Bytes → Bytes → Prop) (sh : Shared) (_ : ℕ) :
    Prop :=
  ∀ {hash byteRange file : Bytes}, (58 : UInt8) ∉ hash →
    sh.disk.lookup (cacheName cfg.sum256 hash byteRange) = some file → good hash byteRange file

/-- What a thread holds is good, and so is the result it waits for. -/
structure Thread.Coherent (good : Bytes → Bytes → Bytes → Prop) (sh : Shared) (_ : Tid)
    (th : Thread) : Prop where
  hash : (58 : UInt8) ∉ th.req.hash
  holds : th.stage.Holds (good th.req.hash th.req.byteRange)
  waits : ∀ {l out}, th.stage = .wait l → sh.results.lookup l = some out →
    out.Holds (good th.req.hash th.req.byteRange)

abbrev Node.Coherent (cfg : Config) (good : Bytes → Bytes → Bytes → Prop) (n : Node) : Prop :=
  n.Each (Shared.Coherent cfg good) (Thread.Coherent good)

/-- A file that is stored or removed leaves the others as they were. -/
theorem Stage.Moves.disk (h : st.Moves cfg t req connected sh a sh' st') {k file : Bytes}
    (hk : sh'.disk.lookup k = some file) :
    sh.disk.lookup k = some file ∨
      ∃ src res, st = .write src res ∧ k = req.name cfg ∧ file = res.body := by
  cases h
  case rename src res =>
    by_cases hname : k = req.name cfg
    · rw [hname, AList.lookup_insert, Option.some_inj] at hk
      exact Or.inr ⟨src, res, rfl, hname, hk.symm⟩
    · rw [AList.lookup_insert_ne hname] at hk
      exact Or.inl hk
  case remove src res victim ok =>
    cases ok with
    | false => exact Or.inl hk
    | true =>
      by_cases hv : k = victim
      · rw [if_pos rfl, hv, AList.lookup_erase] at hk
        cases hk
      · rw [if_pos rfl, AList.lookup_erase_ne hv] at hk
        exact Or.inl hk
  all_goals exact Or.inl hk

/-- A file that is still there after the sweep was there before it. -/
theorem Boot.of_sweep {b : Boot} {deleted : List Bytes} {k file : Bytes} :
    ∀ {disk : AList fun _ : Bytes => Bytes}, (b.sweep disk deleted).lookup k = some file →
      disk.lookup k = some file := by
  induction deleted with
  | nil =>
    intro disk h
    exact h
  | cons d ds ih =>
    intro disk h
    rw [sweep, List.foldl_cons] at h
    have hrest := ih h
    by_cases hd : b.removes d
    · rw [if_pos hd] at hrest
      by_cases hk : k = d
      · rw [hk, AList.lookup_erase] at hrest
        cases hrest
      · rwa [AList.lookup_erase_ne hk] at hrest
    · rwa [if_neg hd] at hrest

theorem coherent_stable (hsha : Function.Injective cfg.sum256)
    (good : Bytes → Bytes → Bytes → Prop) :
    Node.Stable cfg (fun n b => n.Base cfg ∧ n.Brings good b) (Shared.Coherent cfg good)
      (Thread.Coherent good) where
  arrive hn hok := ⟨hn.shared, ⟨hok.2, trivial, nofun⟩⟩
  disconnect hn _ ht := ⟨(hn.thread ht).hash, (hn.thread ht).holds, (hn.thread ht).waits⟩
  move := by
    intro n t th a sh stage hn hok ht h
    have hL := hn.thread ht
    have hbrings := hok.2 ⟨t, th, a⟩ (by simp [Node.moving, ht])
    refine ⟨fun {hash r file} hhash hfile => ?_, ⟨hL.hash, ?_, ?_⟩⟩
    · rcases h.disk hfile with hold | ⟨src, res, hst, hname, rfl⟩
      · exact hn.shared hhash hold
      · obtain ⟨rfl, rfl⟩ := cacheName_inj hsha hhash hL.hash hname
        have hholds := hL.holds
        rwa [hst] at hholds
    · exact h.holds (fun hd => hn.shared hL.hash hd) hbrings hL.waits hL.holds
    · -- a flight that is joined has no result yet
      intro l out hw hl
      obtain ⟨-, -, rfl, hf⟩ := h.to_wait hw
      obtain ⟨-, -, -, -, hnone⟩ := hok.1.leader hf
      rw [hnone] at hl
      cases hl
  frame := by
    intro n t u th other a sh stage hn hok ht h hne hu
    have hL := hn.thread ht
    have hU := hn.thread hu
    refine ⟨hU.hash, hU.holds, fun {l out} hw hl => ?_⟩
    rcases h.results with hres | ⟨out', hst, hres⟩
    · exact hU.waits hw (hres ▸ hl)
    · by_cases hlt : l = t
      · -- the moving thread led the flight `u` waits for
        subst hlt
        rw [hres, AList.lookup_insert, Option.some_inj] at hl
        subst hl
        have hpre := (hok.1.thread ht).unpublished (by rw [hst]; rfl)
        have hlead := ((hok.1.thread ht).leads _).mp ((hok.1.thread hu).waits hw hpre)
        obtain ⟨hhash, hr⟩ := cacheName_inj hsha hL.hash hU.hash hlead.2
        have hholds := hL.holds
        rw [hst, hhash, hr] at hholds
        exact hholds
      · exact hU.waits hw (by rwa [hres, AList.lookup_insert_ne hlt] at hl)
  background hn _ _ _ :=
    ⟨hn.shared, fun ht => ⟨(hn.thread ht).hash, (hn.thread ht).holds, (hn.thread ht).waits⟩⟩
  restart := by
    intro n b hn _
    refine ⟨fun {hash r file} hhash hfile => hn.shared hhash (Boot.of_sweep hfile), ?_⟩
    intro t th ht
    refine ⟨(hn.thread ht).hash, Stage.kill_holds (hn.thread ht).holds, fun {l out} hw => ?_⟩
    cases hst : th.stage <;> simp [hst, Stage.kill] at hw

theorem coherent_init (cfg : Config) (good : Bytes → Bytes → Bytes → Prop) :
    (Node.init cfg).Coherent cfg good where
  shared := fun _ hfile => by simp [Node.init, Shared.fresh] at hfile
  thread := by simp [Node.init]

theorem Node.Coherent.step (hsha : Function.Injective cfg.sum256)
    {good : Bytes → Bytes → Bytes → Prop} {n n' : Node} {b : NodeAct} (hbase : n.Base cfg)
    (hn : n.Coherent cfg good) (hok : n.Brings good b) (hstep : n.step cfg b = some n') :
    n'.Coherent cfg good :=
  Node.each_step (coherent_stable hsha good) hn ⟨hbase, hok⟩ hstep

/-- A node all of whose fetches bring in good results stores and serves nothing else. -/
theorem Node.Coherent.exec (hsha : Function.Injective cfg.sum256)
    {good : Bytes → Bytes → Bytes → Prop} {as : List NodeAct} {n : Node}
    (hok : Along (Node.step cfg) (Node.Brings good) (Node.init cfg) as)
    (h : Transition.exec (Node.step cfg) (Node.init cfg) as = some n) : n.Coherent cfg good := by
  have hinv : n.Base cfg ∧ n.Coherent cfg good := by
    refine exec_invariant (fun n => n.Base cfg ∧ n.Coherent cfg good)
      (fun {s b s'} hs hb hstep => ?_) ⟨base_init cfg, coherent_init cfg good⟩ hok h
    exact ⟨hs.1.step hstep, hs.2.step hsha hs.1 hb hstep⟩
  exact hinv.2

end XetDcCache
