/-
What a MISS and a HIT say of their body (util.go, xorb.go).

A MISS forwards the `Content-Range` it was given; a HIT makes one up from the text of the `Range`
header and the length of the file.  `Stage.Carries` follows the results of the fetches with their
header through `getXorb`, and `Carrying` is the invariant of a fleet on a CDN that answers with
slices.

* `hit_miss_ranges` — the positions the two give, for every satisfiable range;
* `hit_without_content_range` — an open-ended range, of which only the MISS gives them.
-/
import XetDcCache.Fleet
import XetDcCache.Ranges

namespace XetDcCache

open Transition

/-! ### Slices -/

/-- The xorbs, by hash; the length of a Go slice is an `int64`. -/
structure Xorbs where
  content : Bytes → Bytes
  fits : ∀ hash, (content hash).length < 2 ^ 63

/-- The bytes at the positions `p` to `q`. -/
def slice (x : Bytes) (p q : ℕ) : Bytes := (x.drop p).take (q - p + 1)

theorem slice_length {x : Bytes} {p q : ℕ} (hle : p ≤ q) (hlt : q < x.length) :
    (slice x p q).length = q - p + 1 := by
  rw [slice, List.length_take, List.length_drop]
  omega

/-- A `Content-Range` that gives the positions `p` to `q`. -/
def Names (p q : ℕ) (contentRange : Bytes) : Prop :=
  ∃ total, contentRange =
    lit "bytes " ++ lit (toString p) ++ lit "-" ++ lit (toString q) ++ lit "/" ++ total

theorem Names.ne_nil {p q : ℕ} {contentRange : Bytes} (h : Names p q contentRange) :
    contentRange ≠ [] := by
  obtain ⟨total, rfl⟩ := h
  exact List.cons_ne_nil _ _

/-- The response carries a `Content-Range` with these positions. -/
def Response.Carries (resp : Response) (p q : ℕ) : Prop :=
  ∃ contentRange, resp.headers.lookup (lit "Content-Range") = some contentRange ∧
    Names p q contentRange

namespace Xorbs

/-- A body for a satisfiable range is the slice. -/
def Good (X : Xorbs) (hash byteRange body : Bytes) : Prop :=
  ∀ ⦃p q : ℕ⦄, Satisfiable byteRange (X.content hash).length p q →
    body = slice (X.content hash) p q

/-- A result for a satisfiable range is the slice with its positions. -/
def Result (X : Xorbs) (hash byteRange : Bytes) (res : XorbResult) : Prop :=
  ∀ ⦃p q : ℕ⦄, Satisfiable byteRange (X.content hash).length p q →
    res.body = slice (X.content hash) p q ∧ Names p q res.contentRange

/-- The CDN answers a satisfiable range, where it authorizes it, with a 206 that has the slice,
its positions and the size. -/
def Serves (X : Xorbs) (hash byteRange : Bytes) (up : Upstream) : Prop :=
  ∀ ⦃i url r p q⦄, up.doer i url byteRange = .reply r → Upstream.authorizes r.status →
    Satisfiable byteRange (X.content hash).length p q →
    r.status = 206 ∧
      r.contentRange = lit "bytes " ++ lit (toString p) ++ lit "-" ++ lit (toString q) ++ lit "/" ++
        lit (toString (X.content hash).length) ∧
      ∀ body, r.body = .full body → body = slice (X.content hash) p q

theorem Result.good {X : Xorbs} {hash byteRange : Bytes} {res : XorbResult}
    (h : X.Result hash byteRange res) : X.Good hash byteRange res.body :=
  fun _ _ hsat => (h hsat).1

end Xorbs

/-! ### Headers -/

theorem setXorbHeaders_xCache (cache contentRange : Bytes) (n : Int64) :
    (setXorbHeaders cache contentRange n).lookup (lit "X-Cache") = some cache := rfl

theorem setXorbHeaders_contentRange (cache contentRange : Bytes) (n : Int64) :
    (setXorbHeaders cache contentRange n).lookup (lit "Content-Range") =
      if contentRange = [] then none else some contentRange := by
  rw [setXorbHeaders]
  by_cases h : contentRange = []
  · rw [if_neg (not_not.mpr h), if_pos h]
    rfl
  · rw [if_pos h, if_neg h]
    rfl

theorem serveHit_headers (cfg : Config) (byteRange file : Bytes) :
    (serveHit cfg byteRange file).headers = setXorbHeaders (lit "HIT")
      (contentRangeForHit byteRange (Int64.ofNat file.length)) (Int64.ofNat file.length) := by
  rw [serveHit]
  split <;> rfl

/-! ### Results on their way to a response -/

/-- A result meets `P`; an error is an error status. -/
def Outcome.Carries (P : XorbResult → Prop) : Outcome → Prop
  | .ok res => P res
  | .error e => 400 ≤ e.code

/-- Every result the thread holds meets `P`, and a 206 it has written is a hit on a file or a miss
with such a result. -/
def Stage.Carries (cfg : Config) (byteRange : Bytes) (P : XorbResult → Prop) : Stage → Prop
  | .fetch f => ∀ res ∈ f.results, P res
  | .write _ res | .record _ res | .evict _ res | .remove _ res _ | .book _ res => P res
  | .ret _ out | .finish out | .reply out => out.Carries P
  | .done resp => resp.status = 206 →
    (∃ file, resp = serveHit cfg byteRange file) ∨
      ∃ res, P res ∧ resp = writeXorbBytes res.body (lit "MISS") res.contentRange
  | _ => True

section Thread

variable {cfg : Config} {t : Tid} {req : Request} {connected : Bool} {sh sh' : Shared}
  {st st' : Stage} {a : Act}

theorem Stage.Moves.carries {P : XorbResult → Prop}
    (h : st.Moves cfg t req connected sh a sh' st')
    (hbrings : ∀ res ∈ a.brings req.byteRange, P res)
    (hwait : ∀ {l out}, st = .wait l → sh.results.lookup l = some out → out.Carries P)
    (hst : st.Carries cfg req.byteRange P) : st'.Carries cfg req.byteRange P := by
  cases h
  case reject hr => exact fun hs => absurd hs (by decide)
  case absent hr hm hd => exact fun hs => absurd hs (by decide)
  case touchHead hl => exact fun hs => absurd hs (by decide)
  case serveHit file => exact fun _ => Or.inl ⟨file, rfl⟩
  case lead hf => exact fun res hres => nomatch hres
  case wake leader out hw => exact hwait rfl hw
  case fetchGo f f' b hub hf =>
    intro res hres
    rcases List.mem_append.mp (Fetch.step_results hf hres) with hold | hnew
    · exact hst res hold
    · exact hbrings res hnew
  case fetchFilled f b hub src res hf =>
    rcases List.mem_append.mp (Fetch.step_results hf List.mem_cons_self) with hold | hnew
    · exact hst res hold
    · exact hbrings res hnew
  case fetchFailed f b hub slot e hf =>
    have := Fetch.step_error hf
    show 400 ≤ e.code
    omega
  case writeFailed src res err => exact show 400 ≤ 500 by norm_num
  case serveMiss res => exact fun _ => Or.inr ⟨res, hst, rfl⟩
  case serveError e =>
    intro hs
    have hcode : 400 ≤ e.code := hst
    have hstatus : e.code = 206 := hs
    omega
  all_goals exact hst

end Thread

/-- What a thread holds meets `P`, and so does the result it waits for. -/
structure Thread.Carries (cfg : Config) (P : Bytes → Bytes → XorbResult → Prop) (sh : Shared)
    (_ : Tid) (th : Thread) : Prop where
  hash : (58 : UInt8) ∉ th.req.hash
  holds : th.stage.Carries cfg th.req.byteRange (P th.req.hash th.req.byteRange)
  waits : ∀ {l out}, th.stage = .wait l → sh.results.lookup l = some out →
    out.Carries (P th.req.hash th.req.byteRange)

/-- Every hash that arrives is free of colons, and what is fetched meets `P`. -/
def Node.BringsResults (P : Bytes → Bytes → XorbResult → Prop) (n : Node) : NodeAct → Prop
  | .arrive req => (58 : UInt8) ∉ req.hash
  | b => ∀ m ∈ n.moving b, ∀ res ∈ m.act.brings m.th.req.byteRange,
      P m.th.req.hash m.th.req.byteRange res

abbrev Node.Carries (cfg : Config) (P : Bytes → Bytes → XorbResult → Prop) (n : Node) : Prop :=
  n.Each (fun _ _ => True) (Thread.Carries cfg P)

theorem carries_stable {cfg : Config} (hsha : Function.Injective cfg.sum256)
    (P : Bytes → Bytes → XorbResult → Prop) :
    Node.Stable cfg (fun n b => n.Base cfg ∧ n.BringsResults P b) (fun _ _ => True)
      (Thread.Carries cfg P) where
  arrive _ hok := ⟨trivial, ⟨hok.2, trivial, nofun⟩⟩
  disconnect hn _ ht := ⟨(hn.thread ht).hash, (hn.thread ht).holds, (hn.thread ht).waits⟩
  move := by
    intro n t th a sh stage hn hok ht h
    have hL := hn.thread ht
    have hbrings := hok.2 ⟨t, th, a⟩ (by simp [Node.moving, ht])
    refine ⟨trivial, hL.hash, h.carries hbrings hL.waits hL.holds, fun {l out} hw hl => ?_⟩
    -- a flight that is joined has no result yet
    obtain ⟨-, -, rfl, hf⟩ := h.to_wait hw
    obtain ⟨-, -, -, -, hnone⟩ := hok.1.leader hf
    rw [hnone] at hl
    cases hl
  frame := by
    intro n t u th other a sh stage hn hok ht h hne hu
    have hL := hn.thread ht
    have hU := hn.thread hu
    refine ⟨hU.hash, hU.holds, fun {l out} hw hl => ?_⟩
    rcases h.results with hres | ⟨out', hst, hres⟩
    · exact hU.waits hw (hres ▸ hl)
    · by_cases hlt : l = t
      · -- the moving thread led the flight `u` waits for
        subst hlt
        rw [hres, AList.lookup_insert, Option.some_inj] at hl
        subst hl
        have hpre := (hok.1.thread ht).unpublished (by rw [hst]; rfl)
        have hlead := ((hok.1.thread ht).leads _).mp ((hok.1.thread hu).waits hw hpre)
        obtain ⟨hhash, hr⟩ := cacheName_inj hsha hL.hash hU.hash hlead.2
        have hholds := hL.holds
        rw [hst, hhash, hr] at hholds
        exact hholds
      · exact hU.waits hw (by rwa [hres, AList.lookup_insert_ne hlt] at hl)
  background hn _ _ _ :=
    ⟨trivial, fun ht => ⟨(hn.thread ht).hash, (hn.thread ht).holds, (hn.thread ht).waits⟩⟩
  restart := by
    intro n b hn _
    refine ⟨trivial, fun {t th} ht => ⟨(hn.thread ht).hash, ?_, fun {l out} hw => ?_⟩⟩
    · have hholds := (hn.thread ht).holds
      cases hst : th.stage with
      | done resp =>
        rw [hst] at hholds
        exact hholds
      | _ => trivial
    · cases hst : th.stage <;> simp [hst, Stage.kill] at hw

/-! ### One response -/

section Responses

variable {X : Xorbs} {hash byteRange : Bytes} {p q : ℕ}

/-- A hit on the slice gives its positions exactly if the range can be reconstructed. -/
theorem serveHit_carries (cfg : Config)
    (hsat : Satisfiable byteRange (X.content hash).length p q) :
    let resp := serveHit cfg byteRange (slice (X.content hash) p q)
    resp.headers.lookup (lit "X-Cache") = some (lit "HIT") ∧
      (Reconstructible byteRange → resp.Carries p q) ∧
      (¬ Reconstructible byteRange → resp.headers.lookup (lit "Content-Range") = none) := by
  intro resp
  obtain ⟨hle, hlt⟩ := hsat.bounds
  have hheaders : resp.headers = setXorbHeaders (lit "HIT")
      (contentRangeForHit byteRange (Int64.ofNat (q - p + 1))) (Int64.ofNat (q - p + 1)) := by
    rw [serveHit_headers, slice_length hle hlt]
  rw [Response.Carries, hheaders, setXorbHeaders_contentRange]
  refine ⟨setXorbHeaders_xCache _ _ _, fun hrec => ?_, fun hrec => ?_⟩
  · rcases hsat.contentRangeForHit (X.fits hash) with ⟨heq, -⟩ | ⟨-, hnot⟩
    · have hnames : Names p q (contentRangeForHit byteRange (Int64.ofNat (q - p + 1))) :=
        ⟨lit "*", by rw [heq, List.append_assoc _ (lit "/")]; rfl⟩
      exact ⟨_, if_neg hnames.ne_nil, hnames⟩
    · exact absurd hrec hnot
  · rcases hsat.contentRangeForHit (X.fits hash) with ⟨-, hnot⟩ | ⟨heq, -⟩
    · exact absurd hnot hrec
    · rw [heq, if_pos rfl]

theorem writeXorbBytes_carries {res : XorbResult} (h : Names p q res.contentRange) :
    (writeXorbBytes res.body (lit "MISS") res.contentRange).Carries p q := by
  refine ⟨res.contentRange, ?_, h⟩
  show (setXorbHeaders _ _ _).lookup _ = _
  rw [setXorbHeaders_contentRange, if_neg h.ne_nil]

theorem Response.Carries.names {resp : Response} (h : resp.Carries p q) :
    Names p q resp.contentRange := by
  obtain ⟨contentRange, hlookup, hnames⟩ := h
  rwa [Response.contentRange, hlookup, Option.getD_some]

theorem peerGet_contentRange {r : Reply} {res : XorbResult}
    (h : peerGet byteRange (.reply r) = some res) : res.contentRange = r.contentRange := by
  rw [peerGet] at h
  split at h
  · split at h
    · split at h
      · cases h
        rfl
      · cases h
    · cases h
  · cases h

/-- `peerGet` takes a satisfiable range only if it is a closed one that `parseRange` reads, with a
body of just its length. -/
theorem Satisfiable.of_accepts {size : ℕ} {body : Bytes} (hsat : Satisfiable byteRange size p q)
    (hsize : size < 2 ^ 63) (hacc : rangeAccepts byteRange body) :
    Reconstructible byteRange ∧ ∃ hi, ClosedRange byteRange p hi ∧ p ≤ hi ∧ q ≤ hi := by
  obtain ⟨hrec, -⟩ | ⟨-, hnone⟩ := hsat.parseRange hsize
  · obtain ⟨hi, hc, hle, -, rfl⟩ | ⟨a, b, hparts, hab⟩ := hsat.cases_closed
    · exact ⟨hrec, hi, hc, hle, min_le_left _ _⟩
    · obtain ⟨lo, hi, hc, -⟩ := hrec
      exact absurd hc (not_closed hparts hab)
  · rw [rangeAccepts, hnone] at hacc
    cases hacc

/-- What `peerGet` takes of a sibling's response is good, and was a 206 with the same body. -/
theorem Xorbs.good_of_peerGet {resp : Response} {ex : Exchange} {res : XorbResult}
    (hgood : resp.Holds (X.Good hash byteRange)) (hex : resp.Delivers ex)
    (hres : peerGet byteRange ex = some res)
    (hsat : Satisfiable byteRange (X.content hash).length p q) :
    res.body = slice (X.content hash) p q ∧ resp.status = 206 ∧ resp.body = res.body := by
  obtain ⟨r, rfl, hstatus, hbody, hacc⟩ := peerGet_some hres
  obtain ⟨hst, -, hpre⟩ := hex
  rw [hbody, BodyRead.read] at hpre
  obtain ⟨hle, hlt⟩ := hsat.bounds
  obtain ⟨-, hi, hc, hlehi, hq⟩ := hsat.of_accepts (X.fits hash) hacc
  rcases hgood with ⟨h206, hslice⟩ | ⟨-, hempty⟩ | herr
  · have hwhole := hslice hsat
    have hslen := slice_length (x := X.content hash) hle hlt
    -- the prefix has the length of the range, and the slice is no longer
    have hprelen : res.body.length ≤ q - p + 1 := by
      rw [← hslen, ← hwhole]
      exact hpre.length_le
    have hlen := length_eq_of_accepts hc hlehi (by omega) hacc
    have heq : res.body = resp.body := by
      refine hpre.eq_of_length ?_
      rw [hwhole, hslen]
      omega
    exact ⟨heq.trans hwhole, h206, heq.symm⟩
  · rw [hempty, List.prefix_nil] at hpre
    have := length_eq_of_accepts hc hlehi (by simp [hpre]) hacc
    rw [hpre, List.length_nil] at this
    omega
  · omega

/-- A closed range taken from a sibling has the positions the sibling gave. -/
theorem Xorbs.result_of_peerGet {cfg : Config} {resp : Response} {ex : Exchange}
    {res : XorbResult} (hgood : resp.Holds (X.Good hash byteRange))
    (hcarries : Stage.Carries cfg byteRange (X.Result hash byteRange) (.done resp))
    (hex : resp.Delivers ex) (hres : peerGet byteRange ex = some res) :
    X.Result hash byteRange res := by
  intro p q hsat
  obtain ⟨heq, h206, hsame⟩ := Xorbs.good_of_peerGet hgood hex hres hsat
  refine ⟨heq, ?_⟩
  obtain ⟨r, rfl, -, -, hacc⟩ := peerGet_some hres
  obtain ⟨hrec, -⟩ := hsat.of_accepts (X.fits hash) hacc
  rw [peerGet_contentRange hres, hex.2.1]
  rcases hcarries h206 with ⟨file, rfl⟩ | ⟨res', hres', rfl⟩
  · rw [heq, (serveHit_file cfg byteRange file).2] at hsame
    rw [hsame]
    exact ((serveHit_carries cfg hsat).2.1 hrec).names
  · exact (writeXorbBytes_carries (hres' hsat).2).names

/-- What a pull from such a CDN brings in. -/
theorem Xorbs.Serves.result {up : Upstream} {res : XorbResult} (h : X.Serves hash byteRange up)
    (hres : up.plainFetch byteRange = .ok res) : X.Result hash byteRange res := by
  intro p q hsat
  obtain ⟨r, hr, hbody, hcr⟩ := Upstream.plainFetch_eq_ok_iff.mp hres
  obtain ⟨hauth, i, url, hdo⟩ := Upstream.fetchAuthorized_ok hr
  obtain ⟨-, hnames, hslice⟩ := h hdo hauth hsat
  exact ⟨hslice _ hbody, lit (toString (X.content hash).length), hcr.symm.trans hnames⟩

end Responses

/-! ### The fleet -/

variable {ι : Type*} {F : Fleet ι} {X : Xorbs}

/-- A step takes only slices from the CDN. -/
def Xorbs.Supplies (X : Xorbs) (s : ι → Node) (b : ι × NodeAct) : Prop :=
  ∀ m ∈ (s b.1).moving b.2, ∀ up ∈ m.act.upstream, X.Serves m.th.req.hash m.th.req.byteRange up

namespace Fleet

/-- Every node holds and has written slices, with their positions where it fetched them. -/
def Carrying (F : Fleet ι) (X : Xorbs) (s : ι → Node) : Prop :=
  ∀ i, (s i).Base (F.cfg i) ∧ (s i).Coherent (F.cfg i) X.Good ∧ (s i).Carries (F.cfg i) X.Result

theorem carrying_init (F : Fleet ι) (X : Xorbs) : F.Carrying X F.init := fun i =>
  ⟨base_init (F.cfg i), XetDcCache.coherent_init (F.cfg i) X.Good,
    ⟨trivial, by simp [Fleet.init, Node.init]⟩⟩

/-- What a sibling hands over. -/
theorem Carrying.answers {s : ι → Node} {base : Url} {req : Request} {ex : Exchange}
    {res : XorbResult} (hs : F.Carrying X s) (h : F.Answers s base (req.toPeer .get) ex)
    (hres : peerGet req.byteRange ex = some res) : X.Result req.hash req.byteRange res := by
  obtain ⟨i, t, th, resp, ht, hreq, hst, hex⟩ := h.of_peerGet hres
  have hgood := ((hs i).2.1.thread ht).holds
  have hcarries := ((hs i).2.2.thread ht).holds
  rw [hst, hreq] at hgood hcarries
  exact Xorbs.result_of_peerGet hgood hcarries hex hres

theorem Carrying.brings {s : ι → Node} (hs : F.Carrying X s) {b : ι × NodeAct} {n' : Node}
    (hserve : X.Supplies s b) (hrelay : F.Relays s b)
    (hhash : ∀ req, b.2 = .arrive req → (58 : UInt8) ∉ req.hash)
    (hstep : Node.step (F.cfg b.1) (s b.1) b.2 = some n') :
    (s b.1).BringsResults X.Result b.2 := by
  have hmove := F.brings_of (P := X.Result)
    (fun m hm up hup res hok => (hserve m hm up hup).result hok)
    (fun h hget => hs.answers h hget) hrelay hstep
  obtain ⟨i, b⟩ := b
  cases b with
  | arrive req => exact hhash req rfl
  | _ => exact hmove

theorem brings_good {n : Node} {b : NodeAct}
    (h : n.BringsResults X.Result b) : n.Brings X.Good b := by
  cases b with
  | arrive req => exact h
  | _ => exact fun m hm res hres => (h m hm res hres).good

theorem Carrying.step [DecidableEq ι] (hsha : ∀ i, Function.Injective (F.cfg i).sum256)
    {s s' : ι → Node} {b : ι × NodeAct} (hs : F.Carrying X s) (hserve : X.Supplies s b)
    (hrelay : F.Relays s b) (hhash : ∀ req, b.2 = .arrive req → (58 : UInt8) ∉ req.hash)
    (hstep : F.step s b = some s') : F.Carrying X s' := by
  refine F.step_each (P := fun i n => n.Base (F.cfg i) ∧ n.Coherent (F.cfg i) X.Good ∧
    n.Carries (F.cfg i) X.Result) hs hstep fun n' hn' => ?_
  have hbrings := hs.brings hserve hrelay hhash hn'
  obtain ⟨hbase, hgood, hcarries⟩ := hs b.1
  exact ⟨hbase.step hn', hgood.step (hsha b.1) hbase (brings_good hbrings) hn',
    Node.each_step (carries_stable (hsha b.1) X.Result) hcarries ⟨hbase, hbrings⟩ hn'⟩

end Fleet

/-- **HIT and MISS describe the same bytes.**  In every run of a fleet on a CDN that answers a
satisfiable range with its slice, every 206 for such a range has the slice as its body.  The MISS
carries a `Content-Range` with its positions; the HIT carries one, with the same positions,
if the range is a closed one whose last position is an `int64`, and none otherwise. -/
theorem hit_miss_ranges [DecidableEq ι] (hsha : ∀ i, Function.Injective (F.cfg i).sum256)
    {as : List (ι × NodeAct)} {s : ι → Node}
    (hhash : ∀ b ∈ as, ∀ req, b.2 = .arrive req → (58 : UInt8) ∉ req.hash)
    (hserve : Along F.step X.Supplies F.init as)
    (hrelay : Along F.step F.Relays F.init as) (h : exec F.step F.init as = some s) (i : ι)
    {th : Thread} (hth : th ∈ (s i).threads) {resp : Response} (hresp : resp ∈ th.stage.response)
    (hstatus : resp.status = 206) {p q : ℕ}
    (hsat : Satisfiable th.req.byteRange (X.content th.req.hash).length p q) :
    resp.body = slice (X.content th.req.hash) p q ∧ resp.body.length = q - p + 1 ∧
      (resp.headers.lookup (lit "X-Cache") = some (lit "MISS") ∧ resp.Carries p q ∨
        resp.headers.lookup (lit "X-Cache") = some (lit "HIT") ∧
          (Reconstructible th.req.byteRange → resp.Carries p q) ∧
          (¬ Reconstructible th.req.byteRange →
            resp.headers.lookup (lit "Content-Range") = none)) := by
  have hs : F.Carrying X s := by
    refine exec_invariant (F.Carrying X)
      (fun hs hok hstep => hs.step hsha hok.1 hok.2.1 hok.2.2 hstep) (F.carrying_init X)
      (hserve.and (hrelay.and (Along.of_forall fun b hb _ => hhash b hb))) h
  obtain ⟨t, ht⟩ := List.mem_iff_getElem?.mp hth
  have hgood := ((hs i).2.1.thread ht).holds
  have hcarries := ((hs i).2.2.thread ht).holds
  cases hst : th.stage with
  | done resp' =>
    rw [hst] at hresp hgood hcarries
    cases hresp
    have hbody : resp.body = slice (X.content th.req.hash) p q := by
      rcases hgood with ⟨-, hslice⟩ | ⟨hother, -⟩ | hother
      · exact hslice hsat
      · omega
      · omega
    obtain ⟨hle, hlt⟩ := hsat.bounds
    refine ⟨hbody, by rw [hbody, slice_length hle hlt], ?_⟩
    rcases hcarries hstatus with ⟨file, rfl⟩ | ⟨res, hres, rfl⟩
    · rw [(serveHit_file _ _ file).2] at hbody
      rw [hbody]
      exact Or.inr (serveHit_carries _ hsat)
    · exact Or.inl ⟨rfl, writeXorbBytes_carries (hres hsat).2⟩
  | _ =>
    rw [hst] at hresp
    cases hresp

/-! ### A range asked for twice -/

/-- A xorb of two bytes. -/
def Xorbs.twoBytes : Xorbs where
  content _ := [7, 8]
  fits _ := by decide

/-- A CDN that serves its second byte for one range. -/
def Upstream.secondByte (byteRange : Bytes) : Upstream where
  cands := some [lit "u"]
  cutoff := none
  doer _ _ r := if r = byteRange then .reply ⟨206, lit "bytes 1-1/2", .full [8]⟩ else .failed

theorem secondByte_serves {byteRange : Bytes} (hsat : Satisfiable byteRange 2 1 1)
    (hash r : Bytes) : Xorbs.twoBytes.Serves hash r (.secondByte byteRange) := by
  intro i url reply p q hdo _ hsat'
  by_cases hr : r = byteRange
  · subst hr
    have hdo' : Exchange.reply ⟨206, lit "bytes 1-1/2", .full [8]⟩ = .reply reply :=
      (if_pos rfl).symm.trans hdo
    cases hdo'
    obtain ⟨rfl, rfl⟩ := hsat.unique hsat'
    have hnames : lit "bytes 1-1/2" = lit "bytes " ++ lit (toString 1) ++ lit "-" ++
        lit (toString 1) ++ lit "/" ++ lit (toString 2) := by decide
    refine ⟨rfl, hnames, ?_⟩
    rintro body ⟨⟩
    rfl
  · have hdo' : Exchange.failed = .reply reply := (if_neg hr).symm.trans hdo
    cases hdo'

/-- One node is asked twice for a range, and its CDN once. -/
def askTwice (byteRange : Bytes) : List (Bool × NodeAct) :=
  Fleet.only false ([.arrive ⟨.get, [120], byteRange, false⟩, .thread 0 (.check true),
    .thread 0 .join, .thread 0 (.fetch (.begin 0)), .thread 0 (.fetch .acquire),
    .thread 0 (.fetch (.pull (.secondByte byteRange)))] ++ caching 0 ++ ending 0 ++
    [.arrive ⟨.get, [120], byteRange, false⟩, .thread 1 (.check true), .thread 1 .touch,
      .thread 1 .serve])

theorem askTwice_supplies {byteRange : Bytes} (hsat : Satisfiable byteRange 2 1 1) :
    Along Fleet.pair.step Xorbs.twoBytes.Supplies Fleet.pair.init (askTwice byteRange) := by
  refine Along.of_forall fun b hb s m hm up hup => ?_
  have hpull : ∀ b ∈ askTwice byteRange, ∀ t a, b.2 = .thread t a → ∀ up ∈ a.upstream,
      up = .secondByte byteRange := by
    simp [askTwice, Fleet.only, caching, ending, Act.upstream]
  obtain ⟨t, hact⟩ := Node.moving_thread hm
  rw [hpull b hb t m.act hact up hup]
  exact secondByte_serves hsat _ _

theorem closed_satisfiable : Satisfiable (lit "bytes=1-9") 2 1 1 :=
  @Satisfiable.closed _ _ 1 9 ⟨lit "1", lit "9", by decide, ⟨by decide, by decide, by decide⟩,
    by decide, by decide, by decide⟩ (by decide) (by decide)

theorem openEnded_satisfiable : Satisfiable (lit "bytes=1-") 2 1 1 :=
  @Satisfiable.openEnded _ _ 1 (lit "1") (by decide) ⟨by decide, by decide, by decide⟩ (by decide)

/-- A closed range that ends beyond the xorb: both give the positions that are there. -/
theorem hit_miss_ranges_clipped :
    ∃ s, exec Fleet.pair.step Fleet.pair.init (askTwice (lit "bytes=1-9")) = some s ∧
      ∃ hit ∈ (s false).threads, ∃ resp ∈ hit.stage.response,
        resp.headers.lookup (lit "X-Cache") = some (lit "HIT") ∧ resp.body = [8] ∧
        resp.Carries 1 1 := by
  obtain ⟨s, hs, hp⟩ := exec_of_any Fleet.pair.step Fleet.pair.init (askTwice (lit "bytes=1-9"))
    (fun s => ∃ th ∈ (s false).threads, th.req = ⟨.get, [120], lit "bytes=1-9", false⟩ ∧
      ∃ resp ∈ th.stage.response, resp.status = 206 ∧
        resp.headers.lookup (lit "X-Cache") = some (lit "HIT")) (by decide +kernel)
  obtain ⟨th, hth, hreq, resp, hresp, hstatus, hcache⟩ := of_decide_eq_true hp
  have hsat : Satisfiable th.req.byteRange (Xorbs.twoBytes.content th.req.hash).length 1 1 := by
    rw [hreq]
    exact closed_satisfiable
  obtain ⟨hbody, -, hmiss | ⟨-, hhit, -⟩⟩ := hit_miss_ranges (F := .pair) (X := .twoBytes)
    (fun i => by cases i <;> exact Function.injective_id)
    (by simp [askTwice, Fleet.only, caching, ending]) (askTwice_supplies closed_satisfiable)
    (by decide +kernel) hs false hth hresp hstatus hsat
  · rw [hcache] at hmiss
    exact absurd hmiss.1 (by decide)
  · refine ⟨s, hs, th, hth, resp, hresp, hcache, hbody, hhit ?_⟩
    rw [hreq]
    exact ⟨1, 9, ⟨lit "1", lit "9", by decide, ⟨by decide, by decide, by decide⟩,
      by decide, by decide, by decide⟩, by decide⟩

/-- An open-ended range: the MISS gives its positions, the HIT has no `Content-Range`. -/
theorem hit_without_content_range :
    Satisfiable (lit "bytes=1-") 2 1 1 ∧
      Along Fleet.pair.step Xorbs.twoBytes.Supplies Fleet.pair.init (askTwice (lit "bytes=1-")) ∧
      ∃ s, exec Fleet.pair.step Fleet.pair.init (askTwice (lit "bytes=1-")) = some s ∧
        ((s false).threads.map fun th => (th.stage.response.map fun resp =>
          (resp.headers.lookup (lit "X-Cache"), resp.headers.lookup (lit "Content-Range")))) =
          [some (some (lit "MISS"), some (lit "bytes 1-1/2")), some (some (lit "HIT"), none)] := by
  refine ⟨openEnded_satisfiable, askTwice_supplies openEnded_satisfiable, ?_⟩
  obtain ⟨s, hs, hp⟩ := exec_of_any Fleet.pair.step Fleet.pair.init (askTwice (lit "bytes=1-"))
    (fun s => ((s false).threads.map fun th => (th.stage.response.map fun resp =>
      (resp.headers.lookup (lit "X-Cache"), resp.headers.lookup (lit "Content-Range")))) =
      [some (some (lit "MISS"), some (lit "bytes 1-1/2")), some (some (lit "HIT"), none)])
    (by decide +kernel)
  exact ⟨s, hs, of_decide_eq_true hp⟩

end XetDcCache
