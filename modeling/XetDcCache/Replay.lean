/-
The candidates of a xorb and their replay, one call after another (xorb.go).

`rememberSigned` puts a url in front of the candidates of its xorb; `fetchAuthorized` replays the
range against them in turn.  `ReplayState.step` runs the calls on the map of the signed urls,
with the times they read from the clock.

* `replay_spec` — where nothing expires or is dropped, the candidates are the urls remembered
  last, and the first that authorizes answers;
* `replayed_url_renewed` — in every run, what a replayed url owes its place to;
* `replayed_url_expired` — it can have been remembered longer ago than the ttl.
-/
import XetDcCache.SignedMap

namespace XetDcCache

open Transition Recency

/-! ### The calls -/

/-- Reads the clock twice: in `Get`, and in `Set`. -/
def rememberSigned (signedCandidates : ℕ) (m : TTLMap Candidates) (now now' : ℕ)
    (hash : Bytes) (url : Url) : TTLMap Candidates :=
  let (prev, m) := m.get now hash
  m.set now' hash ((prev.getD .none).remember signedCandidates url)

/-- What `fetchAuthorized` meets: the urls `http.NewRequestWithContext` takes, how many candidates
come before its context is cancelled, and the exchange of a request. -/
structure Requests where
  parses : Url → Bool
  cutoff : Option ℕ
  doer : ℕ → Url → Bytes → Exchange

namespace Requests

/-- A url that does not parse fails like a request that cannot be sent. -/
def upstream (q : Requests) (cands : Option (List Url)) : Upstream where
  cands := cands
  cutoff := q.cutoff
  doer i url byteRange := if q.parses url then q.doer i url byteRange else .failed

/-- The loop of `fetchAuthorized`, with the requests it sends: their urls and `Range` headers. -/
def replayCandidates (q : Requests) (byteRange : Bytes) :
    ℕ → List Url → ℕ → Except HttpError Reply × List (Url × Bytes)
  | _, [], last => (.error (Upstream.unauthorized byteRange last), [])
  | i, signed :: rest, last =>
    if (q.upstream none).ctxErr i then (.error (Upstream.unauthorized byteRange last), [])
    else if q.parses signed then
      match q.doer i signed byteRange with
      | .failed =>
        let (resp, sent) := q.replayCandidates byteRange (i + 1) rest last
        (resp, (signed, byteRange) :: sent)
      | .reply r =>
        if Upstream.authorizes r.status then (.ok r, [(signed, byteRange)])
        else
          let (resp, sent) := q.replayCandidates byteRange (i + 1) rest r.status
          (resp, (signed, byteRange) :: sent)
    else q.replayCandidates byteRange (i + 1) rest last

/-- `fetchAuthorized` on what `signed.Get` has returned. -/
def replay (q : Requests) (byteRange : Bytes) (cands : Option (List Url)) :
    Except HttpError Reply × List (Url × Bytes) :=
  match cands with
  | none | some [] => (.error ⟨409, lit "unknown xorb; request reconstruction first"⟩, [])
  | some cands => q.replayCandidates byteRange 0 cands 0

/-- Candidate `i` is a url and answers 200 or 206. -/
def Answers (q : Requests) (byteRange : Bytes) (i : ℕ) (url : Url) (r : Reply) : Prop :=
  q.parses url ∧ q.doer i url byteRange = .reply r ∧ Upstream.authorizes r.status

/-- `url` is the first of the candidates that answers, after those of `pre`. -/
structure FirstAnswer (q : Requests) (byteRange : Bytes) (cands pre : List Url) (url : Url)
    (r : Reply) : Prop where
  listed : ∃ rest, cands = pre ++ url :: rest
  answers : q.Answers byteRange pre.length url r
  before : ∀ i u r', pre[i]? = some u → ¬ q.Answers byteRange i u r'

end Requests

/-- `fetchAuthorized` on the map of the server. -/
def fetchAuthorized (q : Requests) (m : TTLMap Candidates) (now : ℕ) (hash byteRange : Bytes) :
    (Except HttpError Reply × List (Url × Bytes)) × TTLMap Candidates :=
  let (cands, m) := m.get now hash
  (q.replay byteRange (cands.map Candidates.urls), m)

/-! ### One replay -/

section Replay

variable {q : Requests} {byteRange : Bytes} {cands pre rest : List Url} {u url : Url} {r : Reply}

theorem Requests.replayCandidates_fst : ∀ {cands : List Url} {i last : ℕ} {c : Option (List Url)},
    (q.replayCandidates byteRange i cands last).1 =
      (q.upstream c).tryCandidates byteRange i cands last := by
  intro cands
  induction cands with
  | nil => exact rfl
  | cons u rest ih =>
    intro i last c
    have hctx : (q.upstream c).ctxErr i = (q.upstream none).ctxErr i := rfl
    rw [replayCandidates, Upstream.tryCandidates, hctx]
    by_cases hc : (q.upstream none).ctxErr i
    · rw [if_pos hc, if_pos hc]
    · rw [if_neg hc, if_neg hc]
      by_cases hp : q.parses u
      · have hd : (q.upstream c).doer i u byteRange = q.doer i u byteRange := if_pos hp
        rw [if_pos hp, hd]
        cases q.doer i u byteRange with
        | failed => exact ih
        | reply r =>
          simp only
          by_cases ha : Upstream.authorizes r.status
          · rw [if_pos ha, if_pos ha]
          · rw [if_neg ha, if_neg ha]
            exact ih
      · have hd : (q.upstream c).doer i u byteRange = .failed := if_neg hp
        rw [if_neg hp, hd]
        exact ih

/-- The answer is that of the loop without the requests. -/
theorem Requests.replay_fst (c : Option (List Url)) :
    (q.replay byteRange c).1 = (q.upstream c).fetchAuthorized byteRange := by
  cases c with
  | none => rfl
  | some cands =>
    cases cands with
    | nil => rfl
    | cons u rest => exact replayCandidates_fst

/-- A request goes to a candidate, with the range that was asked for. -/
theorem Requests.replayCandidates_sent : ∀ {cands : List Url} {i last : ℕ} {e : Url × Bytes},
    e ∈ (q.replayCandidates byteRange i cands last).2 → e.1 ∈ cands ∧ e.2 = byteRange := by
  intro cands
  induction cands with
  | nil => exact nofun
  | cons u rest ih =>
    intro i last e he
    have hskip : ∀ {last'},
        e ∈ (u, byteRange) :: (q.replayCandidates byteRange (i + 1) rest last').2 →
        e.1 ∈ u :: rest ∧ e.2 = byteRange := by
      intro last' he
      rcases List.mem_cons.mp he with rfl | he
      · exact ⟨List.mem_cons_self, rfl⟩
      · exact (ih he).imp_left (List.mem_cons_of_mem _)
    rw [replayCandidates] at he
    split at he
    · cases he
    · split at he
      · split at he
        · exact hskip he
        · split at he
          · rw [List.mem_singleton.mp he]
            exact ⟨List.mem_cons_self, rfl⟩
          · exact hskip he
      · exact (ih he).imp_left (List.mem_cons_of_mem _)

theorem Requests.replay_sent {c : Option (List Url)} {e : Url × Bytes}
    (he : e ∈ (q.replay byteRange c).2) : e.1 ∈ c.getD [] ∧ e.2 = byteRange := by
  cases c with
  | none => cases he
  | some cands =>
    cases cands with
    | nil => cases he
    | cons u rest => exact replayCandidates_sent he

/-- Candidates that do not answer are passed over, with one request to each that is a url. -/
theorem Requests.replayCandidates_append (hlive : q.cutoff = none) (rest : List Url) :
    ∀ {pre : List Url} {i : ℕ} (last : ℕ),
    (∀ j u r', pre[j]? = some u → ¬ q.Answers byteRange (i + j) u r') →
    ∃ last', q.replayCandidates byteRange i (pre ++ rest) last =
      ((q.replayCandidates byteRange (i + pre.length) rest last').1,
        (pre.filter q.parses).map (·, byteRange) ++
          (q.replayCandidates byteRange (i + pre.length) rest last').2) := by
  intro pre
  induction pre with
  | nil => exact fun {i} last _ => ⟨last, rfl⟩
  | cons u pre ih =>
    intro i last hno
    have hctx : (q.upstream none).ctxErr i = false := by
      rw [Upstream.ctxErr]
      simp only [upstream, hlive]
    have hrest : ∀ j v r', pre[j]? = some v → ¬ q.Answers byteRange (i + 1 + j) v r' := by
      intro j v r' hv
      have hj : i + 1 + j = i + (j + 1) := by omega
      rw [hj]
      exact hno (j + 1) v r' hv
    have hlen : i + (u :: pre).length = i + 1 + pre.length := by
      rw [List.length_cons]
      omega
    rw [List.cons_append, replayCandidates, hctx, if_neg Bool.false_ne_true, hlen]
    by_cases hp : q.parses u
    · rw [if_pos hp, List.filter_cons_of_pos hp, List.map_cons]
      cases hd : q.doer i u byteRange with
      | failed =>
        obtain ⟨last', heq⟩ := ih last hrest
        exact ⟨last', by simp only [heq, List.cons_append]⟩
      | reply r =>
        have ha : ¬ Upstream.authorizes r.status := fun ha => hno 0 u r rfl ⟨hp, hd, ha⟩
        obtain ⟨last', heq⟩ := ih r.status hrest
        exact ⟨last', by simp only [if_neg ha, heq, List.cons_append]⟩
    · rw [if_neg hp, List.filter_cons_of_neg hp]
      exact ih last hrest

/-- If a candidate answers, one is the first to. -/
theorem Requests.exists_firstAnswer {i : ℕ} (hu : cands[i]? = some u)
    (ha : q.Answers byteRange i u r) : ∃ pre url r', q.FirstAnswer byteRange cands pre url r' := by
  classical
  have hex : ∃ j, ∃ v r', cands[j]? = some v ∧ q.Answers byteRange j v r' := ⟨i, u, r, hu, ha⟩
  obtain ⟨v, r', hv, hans⟩ := Nat.find_spec hex
  obtain ⟨hlt, rfl⟩ := List.getElem?_eq_some_iff.mp hv
  refine ⟨cands.take (Nat.find hex), cands[Nat.find hex], r',
    ⟨cands.drop (Nat.find hex + 1), ?_⟩, ?_, ?_⟩
  · rw [List.getElem_cons_drop, List.take_append_drop]
  · rw [List.length_take, min_eq_left hlt.le]
    exact hans
  · intro j w r'' hw hj
    rw [List.getElem?_take] at hw
    split at hw
    · next hlt' => exact Nat.find_min hex hlt' ⟨w, r'', hw, hj⟩
    · cases hw

theorem Requests.replay_of_firstAnswer (hlive : q.cutoff = none)
    (h : q.FirstAnswer byteRange cands pre url r) :
    q.replay byteRange (some cands) =
      (.ok r, ((pre ++ [url]).filter q.parses).map (·, byteRange)) := by
  obtain ⟨⟨rest, rfl⟩, ⟨hp, hd, ha⟩, hbefore⟩ := h
  have hloop : q.replay byteRange (some (pre ++ url :: rest)) =
      q.replayCandidates byteRange 0 (pre ++ url :: rest) 0 := by
    cases pre <;> rfl
  have hctx : (q.upstream none).ctxErr pre.length = false := by
    rw [Upstream.ctxErr]
    simp only [upstream, hlive]
  obtain ⟨last, heq⟩ := replayCandidates_append hlive (url :: rest) 0
    (fun j u r' hu => by rw [Nat.zero_add]; exact hbefore j u r' hu)
  rw [hloop, heq, Nat.zero_add, replayCandidates, hctx, if_neg Bool.false_ne_true, if_pos hp]
  simp only [hd, if_pos ha, List.filter_append, List.map_append, List.filter_cons_of_pos hp]
  rfl

theorem Requests.replay_of_none (hlive : q.cutoff = none) (hne : cands ≠ [])
    (h : ∀ i u r', cands[i]? = some u → ¬ q.Answers byteRange i u r') :
    ∃ last, q.replay byteRange (some cands) =
      (.error (Upstream.unauthorized byteRange last),
        (cands.filter q.parses).map (·, byteRange)) := by
  have hloop : q.replay byteRange (some cands) =
      q.replayCandidates byteRange 0 (cands ++ []) 0 := by
    rw [List.append_nil]
    cases cands with
    | nil => exact absurd rfl hne
    | cons u rest => rfl
  obtain ⟨last, heq⟩ := replayCandidates_append hlive [] 0
    (fun j u r' hu => by rw [Nat.zero_add]; exact h j u r' hu)
  refine ⟨last, ?_⟩
  rw [hloop, heq, replayCandidates, List.append_nil]

/-- The three ways a replay ends. -/
theorem Requests.replay_cases (hlive : q.cutoff = none) (byteRange : Bytes) (cands : List Url) :
    (cands = [] ∧ ∃ e, q.replay byteRange (some cands) = (.error e, []) ∧ e.code = 409) ∨
      (cands ≠ [] ∧ (∀ i u r', cands[i]? = some u → ¬ q.Answers byteRange i u r') ∧
        ∃ e, q.replay byteRange (some cands) =
          (.error e, (cands.filter q.parses).map (·, byteRange)) ∧ e.code = 502) ∨
      ∃ pre url r, q.FirstAnswer byteRange cands pre url r := by
  by_cases hne : cands = []
  · subst hne
    exact Or.inl ⟨rfl, _, rfl, rfl⟩
  · by_cases hno : ∀ i u r', cands[i]? = some u → ¬ q.Answers byteRange i u r'
    · obtain ⟨last, heq⟩ := replay_of_none hlive hne hno
      exact Or.inr (Or.inl ⟨hne, hno, _, heq, rfl⟩)
    · push Not at hno
      obtain ⟨i, u, r', hu, ha⟩ := hno
      exact Or.inr (Or.inr (exists_firstAnswer hu ha))

theorem Requests.FirstAnswer.getElem? (h : q.FirstAnswer byteRange cands pre url r) :
    cands[pre.length]? = some url := by
  obtain ⟨rest, rfl⟩ := h.listed
  simp

/-- Which of the three ways it is. -/
theorem Requests.replay_code (hlive : q.cutoff = none) (cands : List Url) :
    ((∃ e, (q.replay byteRange (some cands)).1 = .error e ∧ e.code = 409) ↔ cands = []) ∧
      ((∃ e, (q.replay byteRange (some cands)).1 = .error e ∧ e.code = 502) ↔ cands ≠ [] ∧
        ∀ i url r, cands[i]? = some url → ¬ q.Answers byteRange i url r) := by
  obtain ⟨hnil, e, heq, hcode⟩ | ⟨hne, hno, e, heq, hcode⟩ | ⟨pre, url, r, hfirst⟩ :=
    replay_cases hlive byteRange cands
  · rw [heq]
    refine ⟨iff_of_true ⟨e, rfl, hcode⟩ hnil, iff_of_false ?_ fun h => h.1 hnil⟩
    rintro ⟨e', he, hcode'⟩
    cases he
    omega
  · rw [heq]
    refine ⟨iff_of_false ?_ hne, iff_of_true ⟨e, rfl, hcode⟩ ⟨hne, hno⟩⟩
    rintro ⟨e', he, hcode'⟩
    cases he
    omega
  · have hget := hfirst.getElem?
    rw [replay_of_firstAnswer hlive hfirst]
    refine ⟨iff_of_false ?_ ?_, iff_of_false ?_ fun h => ?_⟩
    · rintro ⟨e, he, -⟩
      cases he
    · rintro rfl
      cases hget
    · rintro ⟨e, he, -⟩
      cases he
    · exact h.2 _ _ _ hget hfirst.answers

theorem Requests.replay_eq_ok_iff (hlive : q.cutoff = none) (cands : List Url) (r : Reply) :
    (q.replay byteRange (some cands)).1 = .ok r ↔
      ∃ pre url, q.FirstAnswer byteRange cands pre url r := by
  constructor
  · intro hok
    obtain ⟨-, e, heq, -⟩ | ⟨-, -, e, heq, -⟩ | ⟨pre, url, r', hfirst⟩ :=
      replay_cases hlive byteRange cands
    · rw [heq] at hok
      cases hok
    · rw [heq] at hok
      cases hok
    · rw [replay_of_firstAnswer hlive hfirst] at hok
      cases hok
      exact ⟨pre, url, hfirst⟩
  · rintro ⟨pre, url, hfirst⟩
    rw [replay_of_firstAnswer hlive hfirst]

end Replay

/-! ### Runs -/

/-- A `rememberSigned` call and the times it reads. -/
structure RememberCall where
  hash : Bytes
  url : Url
  get : ℕ
  set : ℕ
deriving DecidableEq

/-- `calls` is the history of the `rememberSigned` calls. -/
structure ReplayState where
  signed : TTLMap Candidates
  calls : List RememberCall

inductive ReplayAct
  | remember (c : RememberCall)
  | fetch (hash : Bytes) (now : ℕ)

/-- The calls that remember a url of `hash`. -/
def callsOf (hash : Bytes) (calls : List RememberCall) : List RememberCall :=
  calls.filter (·.hash = hash)

namespace ReplayState

def start (ttl : ℕ) (max : ℤ) : ReplayState := ⟨.new ttl max, []⟩

def step (signedCandidates : ℕ) (s : ReplayState) : ReplayAct → Option ReplayState
  | .remember c =>
    some ⟨rememberSigned signedCandidates s.signed c.get c.set c.hash c.url, s.calls ++ [c]⟩
  | .fetch hash now => some { s with signed := (s.signed.get now hash).2 }

/-- The candidates of a xorb, expired or not. -/
def cands (s : ReplayState) (hash : Bytes) : List Url :=
  ((s.signed.value? hash).getD .none).urls

/-- Nothing a call reads has expired, and nothing is dropped by the cap on the map. -/
def Steady (s : ReplayState) : ReplayAct → Prop
  | .remember c => s.signed.Live c.get c.hash ∧ s.signed.Room c.hash
  | .fetch hash now => s.signed.Live now hash

instance (s : ReplayState) : ∀ a, Decidable (s.Steady a)
  | .remember c => inferInstanceAs (Decidable (s.signed.Live c.get c.hash ∧ s.signed.Room c.hash))
  | .fetch hash now => inferInstanceAs (Decidable (s.signed.Live now hash))

/-- The candidates are the urls remembered last, most recent first. -/
def MostRecent (n : ℕ) (s : ReplayState) : Prop :=
  ∀ hash, s.cands hash = ((callsOf hash s.calls).map RememberCall.url).dedup.reverse.take n

theorem cands_of_live {s : ReplayState} {now : ℕ} {hash : Bytes} (h : s.signed.Live now hash) :
    ((s.signed.get now hash).1.map Candidates.urls).getD [] = s.cands hash := by
  rw [TTLMap.get_of_live h, cands]
  cases s.signed.value? hash <;> rfl

theorem fetchAuthorized_of_live {s : ReplayState} {now : ℕ} {hash : Bytes}
    (h : s.signed.Live now hash) (q : Requests) (byteRange : Bytes) :
    (fetchAuthorized q s.signed now hash byteRange).1 =
      q.replay byteRange (some (s.cands hash)) := by
  rw [← cands_of_live h]
  show q.replay byteRange ((s.signed.get now hash).1.map Candidates.urls) = _
  cases (s.signed.get now hash).1 <;> rfl

theorem MostRecent.step {n : ℕ} {s s' : ReplayState} {a : ReplayAct} (hI : s.MostRecent n)
    (hsteady : s.Steady a) (h : s.step n a = some s') : s'.MostRecent n := by
  cases a with
  | fetch hash now =>
    obtain rfl := Option.some_inj.mp h
    intro k
    show cands ⟨(s.signed.get now hash).2, s.calls⟩ k = _
    rw [TTLMap.get_of_live hsteady]
    exact hI k
  | remember c =>
    obtain rfl := Option.some_inj.mp h
    obtain ⟨hlive, hroom⟩ := hsteady
    intro k
    show ((TTLMap.value? (rememberSigned n s.signed c.get c.set c.hash c.url) k).getD
      .none).urls = _
    rw [rememberSigned, TTLMap.get_of_live hlive, TTLMap.value?_set hroom]
    by_cases hk : k = c.hash
    · subst hk
      have hcalls : callsOf c.hash (s.calls ++ [c]) = callsOf c.hash s.calls ++ [c] := by
        rw [callsOf, List.filter_append, List.filter_cons_of_pos (by simp)]
        rfl
      have hlist := hI c.hash
      rw [if_pos rfl, hcalls, List.map_append, List.map_singleton, dedup_concat,
        List.reverse_append, Option.getD_some, Candidates.remember]
      show (c.url :: (s.cands c.hash).filter (· ≠ c.url)).take n = _
      rw [hlist]
      cases n with
      | zero => rfl
      | succ n =>
        -- taking the url out of the list before or after it was cut comes to the same
        rw [List.reverse_singleton, List.singleton_append, List.take_succ_cons, List.take_succ_cons,
          take_filter_take _ _ (List.nodup_reverse.mpr (List.nodup_dedup _)), List.filter_reverse]
    · have hcalls : callsOf k (s.calls ++ [c]) = callsOf k s.calls := by
        rw [callsOf, List.filter_append, List.filter_cons_of_neg (by simpa using Ne.symm hk),
          List.filter_nil, List.append_nil]
        rfl
      rw [if_neg hk, hcalls]
      exact hI k

end ReplayState

/-- **Candidate list and replay order.**  In a run of calls in which nothing expires or is
dropped, the candidates of a xorb are the `n` distinct urls remembered last, most recent first.
A fetch with a live context returns the reply of the first that answers 200 or 206, has sent one
request with the given range to it and to each before it that is a url, and none to a later one;
it answers 409 exactly if there is no candidate, and 502 exactly if there are and none answers. -/
theorem replay_spec {n ttl : ℕ} {max : ℤ} {as : List ReplayAct} {s : ReplayState}
    (hsteady : Along (ReplayState.step n) ReplayState.Steady (.start ttl max) as)
    (h : exec (ReplayState.step n) (.start ttl max) as = some s) (hash : Bytes) :
    s.cands hash = ((callsOf hash s.calls).map RememberCall.url).dedup.reverse.take n ∧
      (s.cands hash).Nodup ∧
      ∀ (q : Requests) (byteRange : Bytes) (now : ℕ), q.cutoff = none → s.signed.Live now hash →
        let out := (fetchAuthorized q s.signed now hash byteRange).1
        (∀ r, out.1 = .ok r ↔ ∃ pre url, q.FirstAnswer byteRange (s.cands hash) pre url r) ∧
        (∀ pre url r, q.FirstAnswer byteRange (s.cands hash) pre url r →
          out.2 = ((pre ++ [url]).filter q.parses).map (·, byteRange)) ∧
        ((∃ e, out.1 = .error e ∧ e.code = 409) ↔ s.cands hash = []) ∧
        ((∃ e, out.1 = .error e ∧ e.code = 502) ↔ s.cands hash ≠ [] ∧
          ∀ i url r, (s.cands hash)[i]? = some url → ¬ q.Answers byteRange i url r) := by
  have hrecent : s.MostRecent n := by
    refine exec_invariant (ReplayState.MostRecent n) (fun hI hok hstep => hI.step hok hstep) ?_
      hsteady h
    intro k
    exact List.take_nil.symm
  refine ⟨hrecent hash, ((s.signed.value? hash).getD .none).nodup, ?_⟩
  intro q byteRange now hctx hlive
  rw [ReplayState.fetchAuthorized_of_live hlive]
  refine ⟨Requests.replay_eq_ok_iff hctx _, fun pre url r hfirst => ?_, Requests.replay_code hctx _⟩
  rw [Requests.replay_of_firstAnswer hctx hfirst]

/-- The transport of the examples: `:` is no url, and the CDN refuses `a`. -/
def exampleRequests : Requests where
  parses url := url ≠ lit ":"
  cutoff := none
  doer _ url _ := .reply ⟨if url = lit "a" then 403 else 206, [], .full [7]⟩

/-- Three urls of one xorb with room for two, one of them remembered again, and one of another. -/
theorem replay_spec_two :
    ∃ s, exec (ReplayState.step 2) (.start 3600 100)
        [.remember ⟨[120], lit "c", 0, 0⟩, .remember ⟨[120], lit "b", 1, 1⟩,
          .remember ⟨[121], lit "d", 2, 2⟩, .remember ⟨[120], lit "a", 3, 3⟩] = some s ∧
      s.cands [120] = [lit "a", lit "b"] ∧
      (fetchAuthorized exampleRequests s.signed 4 [120] (lit "bytes=0-0")).1.2 =
        [(lit "a", lit "bytes=0-0"), (lit "b", lit "bytes=0-0")] := by
  obtain ⟨s, hs, h⟩ := exec_of_any (ReplayState.step 2) (.start 3600 100)
    [.remember ⟨[120], lit "c", 0, 0⟩, .remember ⟨[120], lit "b", 1, 1⟩,
      .remember ⟨[121], lit "d", 2, 2⟩, .remember ⟨[120], lit "a", 3, 3⟩]
    (fun s => s.signed.Live 4 [120] ∧ ((callsOf [120] s.calls).map RememberCall.url) =
      [lit "c", lit "b", lit "a"]) (by decide +kernel)
  obtain ⟨hlive, hcalls⟩ := of_decide_eq_true h
  obtain ⟨hcands, -, hfetch⟩ := replay_spec (by decide +kernel) hs [120]
  rw [hcalls] at hcands
  have hcands : s.cands [120] = [lit "a", lit "b"] := hcands.trans (by decide)
  refine ⟨s, hs, hcands, ?_⟩
  obtain ⟨-, hsent, -, -⟩ := hfetch exampleRequests (lit "bytes=0-0") 4 rfl hlive
  refine (hsent [lit "a"] (lit "b") ⟨206, [], .full [7]⟩ ?_).trans (by decide)
  rw [hcands]
  refine ⟨⟨[], rfl⟩, ⟨by decide, rfl, by decide⟩, fun i u r' hu hans => ?_⟩
  cases i with
  | zero =>
    obtain ⟨-, hd, ha⟩ := hans
    cases hu
    cases hd
    exact absurd ha (by decide)
  | succ i => cases hu

/-- A candidate that is not a url is passed over without a request. -/
theorem malformed_url_not_requested :
    ∃ s, exec (ReplayState.step 8) (.start 3600 100)
        [.remember ⟨[120], lit "b", 0, 0⟩, .remember ⟨[120], lit ":", 1, 1⟩] = some s ∧
      s.cands [120] = [lit ":", lit "b"] ∧
      (fetchAuthorized exampleRequests s.signed 2 [120] (lit "bytes=0-0")).1 =
        (.ok ⟨206, [], .full [7]⟩, [(lit "b", lit "bytes=0-0")]) := by
  obtain ⟨s, hs, h⟩ := exec_of_any (ReplayState.step 8) (.start 3600 100)
    [.remember ⟨[120], lit "b", 0, 0⟩, .remember ⟨[120], lit ":", 1, 1⟩]
    (fun s => s.signed.Live 2 [120] ∧ s.cands [120] = [lit ":", lit "b"]) (by decide +kernel)
  obtain ⟨hlive, hcands⟩ := of_decide_eq_true h
  refine ⟨s, hs, hcands, ?_⟩
  have hfirst : exampleRequests.FirstAnswer (lit "bytes=0-0") (s.cands [120]) [lit ":"] (lit "b")
      ⟨206, [], .full [7]⟩ := by
    rw [hcands]
    refine ⟨⟨[], rfl⟩, ⟨by decide, rfl, by decide⟩, fun i u r' hu hans => ?_⟩
    cases i with
    | zero =>
      cases hu
      exact absurd hans.1 (by decide)
    | succ i => cases hu
  rw [ReplayState.fetchAuthorized_of_live hlive, Requests.replay_of_firstAnswer rfl hfirst]
  exact congrArg (Prod.mk _) (by decide)

/-! ### Expiry -/

/-- The calls of a xorb since one that stored at `since`: each reads the candidates before `ttl`
has passed since the one before stored them, and `now` is before it has since the last. -/
def Renewed (ttl : ℕ) : ℕ → List RememberCall → ℕ → Prop
  | since, [], now => now < since + ttl
  | since, c :: calls, now => c.get < since + ttl ∧ Renewed ttl c.set calls now

theorem renewed_concat {ttl : ℕ} {c : RememberCall} {now : ℕ} : ∀ {calls : List RememberCall}
    {since : ℕ}, Renewed ttl since (calls ++ [c]) now ↔
      Renewed ttl since calls c.get ∧ now < c.set + ttl := by
  intro calls
  induction calls with
  | nil => exact Iff.rfl
  | cons d calls ih =>
    intro since
    rw [List.cons_append, Renewed, Renewed, ih, and_assoc]

/-- The last call to remember `url` is `c`, the calls of the xorb in `since` came after it. -/
structure LastCall (calls : List RememberCall) (hash : Bytes) (url : Url) (c : RememberCall)
    (since : List RememberCall) : Prop where
  split : ∃ pre, callsOf hash calls = pre ++ c :: since
  names : c.url = url
  last : ∀ d ∈ since, d.url ≠ url

/-- Every stored candidate has been renewed since it was remembered last. -/
def ReplayState.Renews (ttl : ℕ) (s : ReplayState) : Prop :=
  s.signed.ttl = ttl ∧ ∀ hash e, s.signed.items.get? hash = some e → ∀ url ∈ e.value.urls,
    ∃ c since, LastCall s.calls hash url c since ∧ ∀ now < e.expiry, Renewed ttl c.set since now

namespace ReplayState

variable {n ttl : ℕ} {s s' : ReplayState} {a : ReplayAct}

theorem Renews.step (hI : s.Renews ttl) (h : s.step n a = some s') : s'.Renews ttl := by
  obtain ⟨httl, hI⟩ := hI
  cases a with
  | fetch hash now =>
    obtain rfl := Option.some_inj.mp h
    exact ⟨(TTLMap.get_ttl _ _ _).trans httl, fun k e he => hI k e (TTLMap.get_snd he)⟩
  | remember c =>
    obtain rfl := Option.some_inj.mp h
    refine ⟨(TTLMap.get_ttl _ _ _).trans httl, fun k e he url hurl => ?_⟩
    obtain ⟨rfl, rfl⟩ | ⟨hk, hget⟩ := TTLMap.get?_set he
    · have hcalls : callsOf c.hash (s.calls ++ [c]) = callsOf c.hash s.calls ++ [c] := by
        rw [callsOf, List.filter_append, List.filter_cons_of_pos (by simp)]
        rfl
      -- reading the candidates leaves the ttl as it is
      have hexp : c.set + (s.signed.get c.get c.hash).2.ttl = c.set + ttl := by
        rw [TTLMap.get_ttl, httl]
      by_cases hu : url = c.url
      · -- the url of the call itself
        subst hu
        refine ⟨c, [], ⟨⟨_, hcalls⟩, rfl, nofun⟩, fun now hnow => ?_⟩
        exact lt_of_lt_of_eq hnow hexp
      · -- a url that the call has read
        have hread : url ∈ ((s.signed.get c.get c.hash).1.getD .none).urls :=
          (List.mem_cons.mp (Candidates.remember_subset _ _ _ hurl)).resolve_left hu
        cases hprev : (s.signed.get c.get c.hash).1 with
        | none =>
          rw [hprev] at hread
          cases hread
        | some prev =>
          rw [hprev] at hread
          obtain ⟨e, he', rfl, hlive⟩ := TTLMap.get_eq_some.mp hprev
          obtain ⟨d, since, ⟨⟨pre, hsplit⟩, hd, hlast⟩, hren⟩ := hI c.hash e he' url hread
          refine ⟨d, since ++ [c], ⟨⟨pre, ?_⟩, hd, ?_⟩, fun now hnow => ?_⟩
          · rw [hcalls, hsplit]
            simp
          · intro x hx
            rcases List.mem_append.mp hx with hx | hx
            · exact hlast x hx
            · rw [List.mem_singleton.mp hx]
              exact Ne.symm hu
          · exact renewed_concat.mpr ⟨hren c.get hlive, lt_of_lt_of_eq hnow hexp⟩
    · obtain ⟨d, since, ⟨⟨pre, hsplit⟩, hd, hlast⟩, hren⟩ := hI k e (TTLMap.get_snd hget) url hurl
      refine ⟨d, since, ⟨⟨pre, ?_⟩, hd, hlast⟩, hren⟩
      rw [← hsplit, callsOf, List.filter_append,
        List.filter_cons_of_neg (by simpa using Ne.symm hk), List.filter_nil, List.append_nil]
      rfl

end ReplayState

/-- **A replayed url has been renewed.**  In every run, a url that is replayed at a time was
remembered for the xorb, and from then to that time the xorb was never without a call for as long
as the ttl: it is the list of its urls that expires, not one of them. -/
theorem replayed_url_renewed {n ttl : ℕ} {max : ℤ} {as : List ReplayAct} {s : ReplayState}
    (h : exec (ReplayState.step n) (.start ttl max) as = some s) (q : Requests)
    (hash byteRange : Bytes) (now : ℕ) (e : Url × Bytes)
    (he : e ∈ (fetchAuthorized q s.signed now hash byteRange).1.2) :
    e.2 = byteRange ∧
      ∃ c since, LastCall s.calls hash e.1 c since ∧ Renewed ttl c.set since now := by
  have hI : s.Renews ttl := by
    refine exec_always (ReplayState.Renews ttl) (fun hI hstep => hI.step hstep) ?_ h
    exact ⟨rfl, fun hash e he => by cases he⟩
  obtain ⟨hin, hrange⟩ := Requests.replay_sent he
  refine ⟨hrange, ?_⟩
  have hmem : e.1 ∈ ((s.signed.get now hash).1.map Candidates.urls).getD [] := hin
  cases hget : (s.signed.get now hash).1 with
  | none =>
    rw [hget] at hmem
    cases hmem
  | some c =>
    rw [hget] at hmem
    obtain ⟨entry, hentry, rfl, hlive⟩ := TTLMap.get_eq_some.mp hget
    obtain ⟨d, since, hlast, hren⟩ := hI.2 hash entry hentry e.1 hmem
    exact ⟨d, since, hlast, hren now hlive⟩

/-- Two urls of a xorb, the second remembered before the ttl of the first has passed. -/
theorem replayed_url_renewed_once :
    ∃ s, exec (ReplayState.step 8) (.start 10 100)
        [.remember ⟨[120], lit "b", 0, 0⟩, .remember ⟨[120], lit "c", 9, 9⟩] = some s ∧
      ∃ c since, LastCall s.calls [120] (lit "b") c since ∧ Renewed 10 c.set since 9 := by
  obtain ⟨s, hs, h⟩ := exec_of_any (ReplayState.step 8) (.start 10 100)
    [.remember ⟨[120], lit "b", 0, 0⟩, .remember ⟨[120], lit "c", 9, 9⟩]
    (fun s => (lit "b", lit "bytes=0-0") ∈
      (fetchAuthorized ⟨fun _ => true, none, fun _ _ _ => .failed⟩ s.signed 9 [120]
        (lit "bytes=0-0")).1.2) (by decide +kernel)
  exact ⟨s, hs, (replayed_url_renewed hs _ _ _ _ _ (of_decide_eq_true h)).2⟩

/-- `b` is replayed at 11 though it was remembered once, at 0, for 10. -/
theorem replayed_url_expired :
    ∃ s, exec (ReplayState.step 8) (.start 10 100)
        [.remember ⟨[120], lit "b", 0, 0⟩, .remember ⟨[120], lit "c", 9, 9⟩] = some s ∧
      (lit "b", lit "bytes=0-0") ∈
        (fetchAuthorized ⟨fun _ => true, none, fun _ _ _ => .failed⟩ s.signed 11 [120]
          (lit "bytes=0-0")).1.2 ∧
      ¬ ∃ c ∈ s.calls, c.hash = [120] ∧ c.url = lit "b" ∧ 11 < c.set + 10 := by
  obtain ⟨s, hs, h⟩ := exec_of_any (ReplayState.step 8) (.start 10 100)
    [.remember ⟨[120], lit "b", 0, 0⟩, .remember ⟨[120], lit "c", 9, 9⟩]
    (fun s => (lit "b", lit "bytes=0-0") ∈
        (fetchAuthorized ⟨fun _ => true, none, fun _ _ _ => .failed⟩ s.signed 11 [120]
          (lit "bytes=0-0")).1.2 ∧
      ¬ ∃ c ∈ s.calls, c.hash = [120] ∧ c.url = lit "b" ∧ 11 < c.set + 10) (by decide +kernel)
  exact ⟨s, hs, of_decide_eq_true h⟩

end XetDcCache
