/-
The replies to a ranged GET that are accepted from the CDN (xorb.go).

An origin may answer a range with its slice, or ignore the `Range` header and answer with the
whole xorb.  `fetchAuthorized` takes both.

* `plainFetch_good_iff` — which pulls accept nothing but the slice;
* `only_slices_iff` — which runs of a fleet accept, store and serve nothing else;
* `whole_xorb_cached` — a run that does not.
-/
import XetDcCache.HitMiss

namespace XetDcCache

open Transition

/-! ### The replies of an origin -/

theorem slice_eq_self {x : Bytes} {p q : ℕ} (hle : p ≤ q) (hlt : q < x.length)
    (hlen : x.length ≤ q - p + 1) : slice x p q = x := by
  obtain rfl : p = 0 := by omega
  rw [slice, List.drop_zero]
  exact List.take_of_length_le hlen

namespace Xorbs

variable {X : Xorbs} {hash byteRange : Bytes} {up : Upstream}

/-- What an origin may reply where the range is satisfiable: a 206 with the slice, a 200 with the
whole xorb, or a status that is not taken.  The body may break off. -/
def Permits (X : Xorbs) (hash byteRange : Bytes) (r : Reply) : Prop :=
  ∀ ⦃p q : ℕ⦄, Satisfiable byteRange (X.content hash).length p q →
    (r.status = 206 ∧ ∀ body, r.body = .full body → body = slice (X.content hash) p q) ∨
      (r.status = 200 ∧ ∀ body, r.body = .full body → body = X.content hash) ∨
      ¬ Upstream.authorizes r.status

/-- Every reply of the CDN is one an origin may give. -/
def Answers (X : Xorbs) (hash byteRange : Bytes) (up : Upstream) : Prop :=
  ∀ ⦃i url r⦄, up.doer i url byteRange = .reply r → X.Permits hash byteRange r

/-- The first candidate to authorize ignores the `Range` header, though that asks for less than
the xorb. -/
def Ignored (X : Xorbs) (hash byteRange : Bytes) (up : Upstream) : Prop :=
  ∃ cands pre url r p q, up.cands = some cands ∧ up.First byteRange 0 cands pre url r ∧
    r.status = 200 ∧ (∃ body, r.body = .full body) ∧
    Satisfiable byteRange (X.content hash).length p q ∧ q - p + 1 < (X.content hash).length

/-- An origin whose header is ignored hands over the whole xorb. -/
theorem Ignored.plainFetch (hup : X.Answers hash byteRange up)
    (h : X.Ignored hash byteRange up) :
    ∃ res, up.plainFetch byteRange = .ok res ∧ ¬ X.Good hash byteRange res.body := by
  obtain ⟨cands, pre, url, r, p, q, hcands, hfirst, hstatus, ⟨body, hbody⟩, hsat, hpart⟩ := h
  have hfetch : up.fetchAuthorized byteRange = .ok r :=
    Upstream.fetchAuthorized_eq_ok_iff.mpr ⟨cands, pre, url, hcands, hfirst⟩
  refine ⟨⟨body, r.contentRange⟩, Upstream.plainFetch_eq_ok_iff.mpr ⟨r, hfetch, hbody, rfl⟩, ?_⟩
  intro hgood
  obtain ⟨hle, hlt⟩ := hsat.bounds
  have hslice : body = slice (X.content hash) p q := hgood hsat
  rcases hup hfirst.reply hsat with ⟨h206, -⟩ | ⟨-, hwhole⟩ | hno
  · omega
  · -- the slice is shorter
    have hlen := slice_length hle hlt
    rw [← hslice, hwhole body hbody] at hlen
    omega
  · exact hno hfirst.authorized

/-- A pull from an origin accepts nothing but the slice exactly if the header is not ignored. -/
theorem plainFetch_good_iff (hup : X.Answers hash byteRange up) :
    (∀ res, up.plainFetch byteRange = .ok res → X.Good hash byteRange res.body) ↔
      ¬ X.Ignored hash byteRange up := by
  constructor
  · intro hgood hig
    obtain ⟨res, hres, hbad⟩ := hig.plainFetch hup
    exact hbad (hgood res hres)
  · intro hno res hres p q hsat
    obtain ⟨r, hfetch, hbody, -⟩ := Upstream.plainFetch_eq_ok_iff.mp hres
    obtain ⟨cands, pre, url, hcands, hfirst⟩ := Upstream.fetchAuthorized_eq_ok_iff.mp hfetch
    rcases hup hfirst.reply hsat with ⟨-, hslice⟩ | ⟨h200, hwhole⟩ | hrefused
    · exact hslice _ hbody
    · have hall : ¬ q - p + 1 < (X.content hash).length := fun hpart =>
        hno ⟨cands, pre, url, r, p, q, hcands, hfirst, h200, ⟨_, hbody⟩, hsat, hpart⟩
      obtain ⟨hle, hlt⟩ := hsat.bounds
      rw [hwhole _ hbody, slice_eq_self hle hlt (not_lt.mp hall)]
    · exact absurd hfirst.authorized hrefused

end Xorbs

/-! ### What a thread has accepted -/

/-- The bodies a thread has for its range, accepted from outside or read from disk, and that of
the 206 it has answered. -/
def Stage.accepted : Stage → List Bytes
  | .hit file | .serve file => [file]
  | .fetch f => f.results.map XorbResult.body
  | .write _ res | .record _ res | .evict _ res | .remove _ res _ | .book _ res => [res.body]
  | .ret _ (.ok res) | .finish (.ok res) | .reply (.ok res) => [res.body]
  | .done resp => if resp.status = 206 then [resp.body] else []
  | _ => []

theorem Stage.Holds.accepted {st : Stage} {good : Bytes → Prop} (h : st.Holds good) :
    ∀ body ∈ st.accepted, good body := by
  intro body hbody
  cases st with
  | fetch f =>
    obtain ⟨res, hres, rfl⟩ := List.mem_map.mp hbody
    exact h res hres
  | hit file | serve file =>
    rw [List.mem_singleton.mp hbody]
    exact h
  | write src res | record src res | evict src res | remove src res victim | book src res =>
    rw [List.mem_singleton.mp hbody]
    exact h
  | ret slot out | finish out | reply out =>
    cases out with
    | error e => cases hbody
    | ok res =>
      rw [List.mem_singleton.mp hbody]
      exact h
  | done resp =>
    rw [Stage.accepted] at hbody
    split at hbody
    · next hstatus =>
      rw [List.mem_singleton.mp hbody]
      rcases h with ⟨-, hgood⟩ | ⟨hother, -⟩ | hother
      · exact hgood
      · omega
      · omega
    · cases hbody
  | _ => cases hbody

section Accepts

variable {cfg : Config} {t : Tid} {cancelled : Bool} {byteRange : Bytes} {up : Upstream}
  {res : XorbResult}

theorem Act.race_upstream {b : CdnAct} (h : (Act.fetch (.race (.cdn b))).upstream = some up) :
    b = .pull up := by
  cases b with
  | tryAcquire => cases h
  | pull up' =>
    cases h
    rfl

theorem CdnSide.step_accepts {slots : Option ℕ} {sem sem' : Sem} {c c' : CdnSide}
    (h : c.step slots cancelled byteRange sem (.pull up) = some (sem', c'))
    (hok : up.plainFetch byteRange = .ok res) : res ∈ c'.results := by
  cases c with
  | fetching =>
    rw [CdnSide.step] at h
    split at h
    · cases h
      rw [CdnSide.results, Upstream.cdnGet_fst, hok]
      exact List.mem_singleton_self res
    · cases h
  | starting => cases h
  | sent o n => cases h

theorem Race.step_accepts {hub hub' : Hub} {r : Race} {b : RaceAct} {next : RaceNext}
    (h : r.step cfg cancelled byteRange hub b = some (hub', next))
    (hup : (Act.fetch (.race b)).upstream = some up) (hok : up.plainFetch byteRange = .ok res) :
    res ∈ next.results := by
  revert h
  fun_cases Race.step cfg cancelled byteRange hub r b
  case case7 p c b sem c' hc =>
    intro h
    cases h
    obtain rfl := Act.race_upstream hup
    exact List.mem_append_right _ (CdnSide.step_accepts hc hok)
  case case9 c b sem c' hc =>
    intro h
    cases h
    obtain rfl := Act.race_upstream hup
    exact CdnSide.step_accepts hc hok
  all_goals
    intro h
    cases h
  all_goals cases hup

/-- The body of a pull that succeeds is accepted. -/
theorem Fetch.step_accepts {hub hub' : Hub} {f : Fetch} {b : FetchAct} {next : FetchNext}
    (h : f.step cfg t cancelled byteRange hub b = some (hub', next))
    (hup : (Act.fetch b).upstream = some up) (hok : up.plainFetch byteRange = .ok res) :
    res ∈ next.results := by
  revert h
  fun_cases Fetch.step cfg t cancelled byteRange hub f b
  -- a hedge's pull waits in the channel of its race
  case case5 leg base r a hub' r' hr =>
    intro h
    cases h
    exact Race.step_accepts hr hup hok
  case case6 leg base r a hub' out orphan hr =>
    intro h
    cases h
    exact Race.step_accepts hr hup hok
  all_goals
    intro h
    cases h
  all_goals simp_all [Act.upstream, FetchNext.results]

theorem Stage.Moves.accepts {req : Request} {connected : Bool} {sh sh' : Shared} {st st' : Stage}
    {a : Act} (h : st.Moves cfg t req connected sh a sh' st') (hup : a.upstream = some up)
    (hok : up.plainFetch req.byteRange = .ok res) : res.body ∈ st'.accepted := by
  cases h with
  | fetchGo hf => exact List.mem_map_of_mem (Fetch.step_accepts hf hup hok)
  | fetchFilled hf =>
    rw [List.mem_singleton.mp (Fetch.step_accepts hf hup hok)]
    exact List.mem_singleton_self _
  | fetchFailed hf => cases Fetch.step_accepts hf hup hok
  | _ => cases hup

end Accepts

/-! ### The fleet -/

variable {ι : Type*} {F : Fleet ι} {X : Xorbs}

/-- A step pulls only from origins. -/
def Xorbs.Answering (X : Xorbs) (s : ι → Node) (b : ι × NodeAct) : Prop :=
  ∀ m ∈ (s b.1).moving b.2, ∀ up ∈ m.act.upstream, X.Answers m.th.req.hash m.th.req.byteRange up

/-- No pull of a step takes the whole xorb for a part of it. -/
def Xorbs.Ranged (X : Xorbs) (s : ι → Node) (b : ι × NodeAct) : Prop :=
  ∀ m ∈ (s b.1).moving b.2, ∀ up ∈ m.act.upstream,
    ¬ X.Ignored m.th.req.hash m.th.req.byteRange up

namespace Fleet

/-- What is stored for a satisfiable range, and what a thread has accepted for it or served, is
the slice. -/
structure OnlySlices (F : Fleet ι) (X : Xorbs) (s : ι → Node) : Prop where
  stored : ∀ i {hash byteRange file : Bytes} {p q : ℕ}, (58 : UInt8) ∉ hash →
    Satisfiable byteRange (X.content hash).length p q →
    (s i).shared.disk.lookup (cacheName (F.cfg i).sum256 hash byteRange) = some file →
    file = slice (X.content hash) p q
  accepted : ∀ i, ∀ th ∈ (s i).threads, ∀ body ∈ th.stage.accepted, ∀ {p q : ℕ},
    Satisfiable th.req.byteRange (X.content th.req.hash).length p q →
    body = slice (X.content th.req.hash) p q

/-- Every node is coherent with the xorbs. -/
def Sliced (F : Fleet ι) (X : Xorbs) (s : ι → Node) : Prop :=
  ∀ i, (s i).Base (F.cfg i) ∧ (s i).Coherent (F.cfg i) X.Good

theorem sliced_init (F : Fleet ι) (X : Xorbs) : F.Sliced X F.init := fun i =>
  ⟨base_init (F.cfg i), XetDcCache.coherent_init (F.cfg i) X.Good⟩

theorem Sliced.onlySlices {s : ι → Node} (hs : F.Sliced X s) : F.OnlySlices X s where
  stored i _ _ _ _ _ hcolon hsat hfile := (hs i).2.shared hcolon hfile hsat
  accepted i th hth body hbody _ _ hsat := by
    obtain ⟨t, ht⟩ := List.mem_iff_getElem?.mp hth
    exact ((hs i).2.thread ht).holds.accepted body hbody hsat

theorem Sliced.answers {s : ι → Node} {base : Url} {req : Request} {ex : Exchange}
    {res : XorbResult} (hs : F.Sliced X s) (h : F.Answers s base (req.toPeer .get) ex)
    (hres : peerGet req.byteRange ex = some res) : X.Good req.hash req.byteRange res.body := by
  obtain ⟨i, t, th, resp, ht, hreq, hst, hex⟩ := h.of_peerGet hres
  have hgood := ((hs i).2.thread ht).holds
  rw [hst, hreq] at hgood
  exact fun _ _ hsat => (Xorbs.good_of_peerGet hgood hex hres hsat).1

theorem Sliced.step [DecidableEq ι] (hsha : ∀ i, Function.Injective (F.cfg i).sum256)
    {s s' : ι → Node} {b : ι × NodeAct} (hs : F.Sliced X s) (hanswer : X.Answering s b)
    (hranged : X.Ranged s b) (hrelay : F.Relays s b)
    (hhash : ∀ req, b.2 = .arrive req → (58 : UInt8) ∉ req.hash)
    (hstep : F.step s b = some s') : F.Sliced X s' := by
  refine F.step_each (P := fun i n => n.Base (F.cfg i) ∧ n.Coherent (F.cfg i) X.Good) hs hstep
    fun n' hn' => ?_
  have hmove := F.brings_of (P := fun hash r res => X.Good hash r res.body)
    (fun m hm up hup res hok =>
      (Xorbs.plainFetch_good_iff (hanswer m hm up hup)).mpr (hranged m hm up hup) res hok)
    (fun h hget => hs.answers h hget) hrelay hn'
  have hbrings : (s b.1).Brings X.Good b.2 := by
    obtain ⟨i, b⟩ := b
    cases b with
    | arrive req => exact hhash req rfl
    | _ => exact hmove
  exact ⟨(hs b.1).1.step hn', (hs b.1).2.step (hsha b.1) (hs b.1).1 hbrings hn'⟩

/-- A step that takes the whole xorb leaves a thread that has accepted it. -/
theorem OnlySlices.ranged [DecidableEq ι] {s s' : ι → Node} {b : ι × NodeAct}
    (hanswer : X.Answering s b) (hstep : F.step s b = some s') (h : F.OnlySlices X s') :
    X.Ranged s b := by
  intro m hm up hup hig
  obtain ⟨res, hres, hbad⟩ := hig.plainFetch (hanswer m hm up hup)
  obtain ⟨i, b⟩ := b
  obtain ⟨n', hn', rfl⟩ := Option.map_eq_some_iff.mp hstep
  obtain ⟨t, rfl⟩ := Node.moving_thread hm
  cases Node.step_moves hn' with
  | @thread _ th _ sh stage ht hmoves =>
    simp only [Node.moving, ht, Option.map_some, Option.mem_some_iff] at hm
    rw [← hm] at hres hbad
    have hbody := hmoves.accepts hup hres
    refine hbad fun p q hsat => h.accepted i { th with stage := stage } ?_ res.body hbody hsat
    rw [Function.update_self]
    exact List.mem_set (List.getElem?_eq_some_iff.mp ht).1 _
  | background ha hsem hl => rcases ha with ⟨i, b, ha⟩ | ⟨i, ha⟩ <;> cases ha

end Fleet

/-- **Only the requested slice is accepted from the CDN**, stored and served, in every state of a
run on origins, exactly if no pull of the run takes the whole xorb for a part of it. -/
theorem only_slices_iff [DecidableEq ι] (hsha : ∀ i, Function.Injective (F.cfg i).sum256)
    {as : List (ι × NodeAct)} {s : ι → Node}
    (hhash : ∀ b ∈ as, ∀ req, b.2 = .arrive req → (58 : UInt8) ∉ req.hash)
    (hanswer : Along F.step X.Answering F.init as) (hrelay : Along F.step F.Relays F.init as)
    (h : exec F.step F.init as = some s) :
    (∀ pre, pre <+: as → ∀ t, exec F.step F.init pre = some t → F.OnlySlices X t) ↔
      Along F.step X.Ranged F.init as := by
  constructor
  · exact along_of_always (fun hanswer hstep h => h.ranged hanswer hstep) hanswer h
  · intro hranged pre hpre t ht
    have hok := (hanswer.of_prefix hpre).and ((hranged.of_prefix hpre).and
      ((hrelay.of_prefix hpre).and (Along.of_forall fun b hb _ => hhash b (hpre.subset hb))))
    have hs : F.Sliced X t := exec_invariant (F.Sliced X)
      (fun hs hok hstep => hs.step hsha hok.1 hok.2.1 hok.2.2.1 hok.2.2.2 hstep)
      (F.sliced_init X) hok ht
    exact hs.onlySlices

/-! ### A header honoured and one ignored -/

theorem Xorbs.Serves.answers {hash byteRange : Bytes} {up : Upstream}
    (h : X.Serves hash byteRange up) : X.Answers hash byteRange up := by
  intro i url r hdo p q hsat
  by_cases hauth : Upstream.authorizes r.status
  · obtain ⟨h206, -, hslice⟩ := h hdo hauth hsat
    exact Or.inl ⟨h206, hslice⟩
  · exact Or.inr (Or.inr hauth)

theorem Xorbs.Serves.not_ignored {hash byteRange : Bytes} {up : Upstream}
    (h : X.Serves hash byteRange up) : ¬ X.Ignored hash byteRange up := by
  rintro ⟨cands, pre, url, r, p, q, -, hfirst, h200, -, hsat, -⟩
  have := (h hfirst.reply hfirst.authorized hsat).1
  omega

theorem only_slices_clipped :
    ∃ s, exec Fleet.pair.step Fleet.pair.init (askTwice (lit "bytes=1-9")) = some s ∧
      Fleet.pair.OnlySlices .twoBytes s := by
  obtain ⟨s, hs, -⟩ := exec_of_any Fleet.pair.step Fleet.pair.init (askTwice (lit "bytes=1-9"))
    (fun _ => true) (by decide +kernel)
  have hsupply := askTwice_supplies closed_satisfiable
  refine ⟨s, hs, (only_slices_iff (X := .twoBytes) ?_ ?_ ?_ ?_ hs).mpr ?_ _ List.prefix_rfl s hs⟩
  · intro i
    cases i <;> exact Function.injective_id
  · simp [askTwice, Fleet.only, caching, ending]
  · exact hsupply.mono fun _ _ h m hm up hup => (h m hm up hup).answers
  · decide +kernel
  · exact hsupply.mono fun _ _ h m hm up hup => (h m hm up hup).not_ignored

/-- An origin that ignores the `Range` header. -/
def Upstream.wholeXorb : Upstream :=
  ⟨some [lit "u"], none, fun _ _ _ => .reply ⟨200, [], .full [7, 8]⟩⟩

/-- One node is asked twice for the first byte. -/
def ignoredRun : List (Bool × NodeAct) :=
  Fleet.only false (missing 0 [120] ++ [.thread 0 (.fetch (.begin 0)), .thread 0 (.fetch .acquire),
    .thread 0 (.fetch (.pull .wholeXorb))] ++ caching 0 ++ ending 0 ++
    [.arrive (.ranged [120]), .thread 1 (.check true), .thread 1 .touch, .thread 1 .serve])

theorem wholeXorb_answers (hash byteRange : Bytes) :
    Xorbs.twoBytes.Answers hash byteRange .wholeXorb := by
  intro i url r hdo p q _
  cases hdo
  refine Or.inr (Or.inl ⟨rfl, ?_⟩)
  rintro body ⟨⟩
  rfl

/-- The whole xorb is cached as its first byte, and served again as a hit. -/
theorem whole_xorb_cached :
    Satisfiable (lit "bytes=0-0") 2 0 0 ∧ slice [7, 8] 0 0 = [7] ∧
      Along Fleet.pair.step Xorbs.twoBytes.Answering Fleet.pair.init ignoredRun ∧
      Along Fleet.pair.step Fleet.pair.Relays Fleet.pair.init ignoredRun ∧
      ∃ s, exec Fleet.pair.step Fleet.pair.init ignoredRun = some s ∧
        (s false).shared.disk.lookup ((Request.ranged [120]).name .lone) = some [7, 8] ∧
        ((s false).threads.map fun th => th.stage.response.map fun resp =>
          (resp.status, resp.headers.lookup (lit "X-Cache"), resp.body)) =
          [some (206, some (lit "MISS"), [7, 8]), some (206, some (lit "HIT"), [7, 8])] ∧
        ¬ Fleet.pair.OnlySlices .twoBytes s := by
  have hsat : Satisfiable (lit "bytes=0-0") 2 0 0 :=
    @Satisfiable.closed _ _ 0 0 ⟨lit "0", lit "0", by decide, ⟨by decide, by decide, by decide⟩,
      by decide, by decide, by decide⟩ (by decide) (by decide)
  refine ⟨hsat, rfl, ?_, by decide +kernel, ?_⟩
  · refine Along.of_forall fun b hb s m hm up hup => ?_
    have hpull : ∀ b ∈ ignoredRun, ∀ t a, b.2 = .thread t a → ∀ up ∈ a.upstream,
        up = .wholeXorb := by
      simp [ignoredRun, Fleet.only, missing, caching, ending, Act.upstream]
    obtain ⟨t, hact⟩ := Node.moving_thread hm
    rw [hpull b hb t m.act hact up hup]
    exact wholeXorb_answers _ _
  · obtain ⟨s, hs, hp⟩ := exec_of_any Fleet.pair.step Fleet.pair.init ignoredRun
      (fun s => (s false).shared.disk.lookup ((Request.ranged [120]).name .lone) = some [7, 8] ∧
        ((s false).threads.map fun th => th.stage.response.map fun resp =>
          (resp.status, resp.headers.lookup (lit "X-Cache"), resp.body)) =
          [some (206, some (lit "MISS"), [7, 8]), some (206, some (lit "HIT"), [7, 8])])
      (by decide +kernel)
    obtain ⟨hfile, hresp⟩ := of_decide_eq_true hp
    refine ⟨s, hs, hfile, hresp, fun h => ?_⟩
    have hslice := h.stored false (by decide) hsat hfile
    exact absurd hslice (by decide)

end XetDcCache
