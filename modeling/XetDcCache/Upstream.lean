/-
What a fetch gets from outside (xorb.go, peer_fetch.go).

An `Exchange` is one `httpDoer.Do`: it fails, or it yields a reply whose body is
then read to its end or breaks.  `Upstream` is all a CDN pull meets: the signed
candidates of the xorb, the moment its context is cancelled if it is, and the
exchange for each attempt.  `fetchAuthorized`, `plainFetch`, `cdnGet` and `peerGet`
are translated as functions of these.
-/
import XetDcCache.Text

namespace XetDcCache

/-- A signed url, or the base url of a peer. -/
abbrev Url := Bytes

/-- `io.ReadAll`: the whole body, or what was read and the error's text. -/
inductive BodyRead
  | full (body : Bytes)
  | broken (body : Bytes) (err : Bytes)
deriving DecidableEq, Repr

structure Reply where
  status : ℕ
  contentRange : Bytes
  body : BodyRead
deriving DecidableEq, Repr

/-- A request that could not be built or sent, or its reply. -/
inductive Exchange
  | failed
  | reply (r : Reply)
deriving DecidableEq, Repr

structure HttpError where
  code : ℕ
  msg : Bytes
deriving DecidableEq, Repr

structure XorbResult where
  body : Bytes
  contentRange : Bytes
deriving DecidableEq, Repr

/-- What a CDN pull meets: the answer of `signed.Get(hash)`, how many candidates
are tried before the context is cancelled (`none`: it is not), and the exchange
of attempt `i` with a url and a `Range` header. -/
structure Upstream where
  cands : Option (List Url)
  cutoff : Option ℕ
  doer : ℕ → Url → Bytes → Exchange

namespace Upstream

/-- `ctx.Err() != nil` before attempt `i`. -/
def ctxErr (up : Upstream) (i : ℕ) : Bool :=
  match up.cutoff with
  | none => false
  | some k => k ≤ i

def unauthorized (byteRange : Bytes) (last : ℕ) : HttpError :=
  ⟨502, lit "no signed url authorizes " ++ byteRange ++ lit " (last " ++ lit (toString last) ++
    lit ")"⟩

/-- A status `fetchAuthorized` takes as authorized. -/
def authorizes (status : ℕ) : Bool := status = 200 || status = 206

/-- The loop of `fetchAuthorized` over the candidates, from attempt `i`. -/
def tryCandidates (up : Upstream) (byteRange : Bytes) :
    ℕ → List Url → ℕ → Except HttpError Reply
  | _, [], last => .error (unauthorized byteRange last)
  | i, signed :: rest, last =>
    if up.ctxErr i then .error (unauthorized byteRange last)
    else
      match up.doer i signed byteRange with
      | .failed => up.tryCandidates byteRange (i + 1) rest last
      | .reply r =>
        if authorizes r.status then .ok r
        else up.tryCandidates byteRange (i + 1) rest r.status

def fetchAuthorized (up : Upstream) (byteRange : Bytes) : Except HttpError Reply :=
  match up.cands with
  | none | some [] => .error ⟨409, lit "unknown xorb; request reconstruction first"⟩
  | some cands => up.tryCandidates byteRange 0 cands 0

/-- The plain CDN path of `getXorb`, once it holds a slot. -/
def plainFetch (up : Upstream) (byteRange : Bytes) : Except HttpError XorbResult :=
  match up.fetchAuthorized byteRange with
  | .error e => .error e
  | .ok resp =>
    match resp.body with
    | .full body => .ok ⟨body, resp.contentRange⟩
    | .broken _ err => .error ⟨502, lit "read upstream body: " ++ err⟩

/-- `cdnGet` once it holds a slot: the result if it is ok, and the body bytes
read. -/
def cdnGet (up : Upstream) (byteRange : Bytes) : Option XorbResult × ℕ :=
  match up.fetchAuthorized byteRange with
  | .error _ => (none, 0)
  | .ok resp =>
    match resp.body with
    | .full body => (some ⟨body, resp.contentRange⟩, body.length)
    | .broken body _ => (none, body.length)

/-- The reply `fetchAuthorized` returns is that of an attempt, with status 200 or
206. -/
theorem tryCandidates_ok {up : Upstream} {byteRange : Bytes} {r : Reply} :
    ∀ {cands : List Url} {i last : ℕ}, up.tryCandidates byteRange i cands last = .ok r →
      authorizes r.status ∧ ∃ j url, up.doer j url byteRange = .reply r := by
  intro cands
  induction cands with
  | nil =>
    intro i last h
    cases h
  | cons url rest ih =>
    intro i last h
    rw [tryCandidates] at h
    by_cases hctx : up.ctxErr i
    · rw [if_pos hctx] at h
      cases h
    · rw [if_neg hctx] at h
      cases hd : up.doer i url byteRange with
      | failed =>
        rw [hd] at h
        exact ih h
      | reply r' =>
        simp only [hd] at h
        by_cases ha : authorizes r'.status
        · rw [if_pos ha] at h
          cases h
          exact ⟨ha, i, url, hd⟩
        · rw [if_neg ha] at h
          exact ih h

theorem fetchAuthorized_ok {up : Upstream} {byteRange : Bytes} {r : Reply}
    (h : up.fetchAuthorized byteRange = .ok r) :
    authorizes r.status ∧ ∃ j url, up.doer j url byteRange = .reply r := by
  rw [fetchAuthorized] at h
  split at h
  · cases h
  · cases h
  · exact tryCandidates_ok h

/-- From attempt `i` on, `url` is the first candidate to authorize, those of `pre` having failed
or refused, and the context has not been cancelled. -/
structure First (up : Upstream) (byteRange : Bytes) (i : ℕ) (cands pre : List Url) (url : Url)
    (r : Reply) : Prop where
  listed : ∃ rest, cands = pre ++ url :: rest
  reply : up.doer (i + pre.length) url byteRange = .reply r
  authorized : authorizes r.status
  refused : ∀ j u r', pre[j]? = some u → up.doer (i + j) u byteRange = .reply r' →
    ¬ authorizes r'.status
  live : ∀ j ≤ pre.length, up.ctxErr (i + j) = false

section First

variable {up : Upstream} {byteRange : Bytes} {i : ℕ} {cands pre rest : List Url} {u url : Url}
  {r : Reply}

theorem First.head (hctx : up.ctxErr i = false) (hd : up.doer i url byteRange = .reply r)
    (ha : authorizes r.status) : up.First byteRange i (url :: rest) [] url r where
  listed := ⟨rest, rfl⟩
  reply := hd
  authorized := ha
  refused := nofun
  live j hj := by
    obtain rfl := Nat.le_zero.mp hj
    exact hctx

theorem First.cons (h : up.First byteRange (i + 1) rest pre url r) (hctx : up.ctxErr i = false)
    (hno : ∀ r', up.doer i u byteRange = .reply r' → ¬ authorizes r'.status) :
    up.First byteRange i (u :: rest) (u :: pre) url r where
  listed := by
    obtain ⟨rest', rfl⟩ := h.listed
    exact ⟨rest', rfl⟩
  reply := by
    rw [List.length_cons, Nat.add_comm pre.length, ← Nat.add_assoc]
    exact h.reply
  authorized := h.authorized
  refused j v r' hv hd := by
    cases j with
    | zero =>
      cases hv
      exact hno r' hd
    | succ j =>
      rw [Nat.add_comm j, ← Nat.add_assoc] at hd
      exact h.refused j v r' hv hd
  live j hj := by
    cases j with
    | zero => exact hctx
    | succ j =>
      rw [Nat.add_comm j, ← Nat.add_assoc]
      exact h.live j (Nat.le_of_succ_le_succ hj)

/-- It is the next candidate, or that one does not authorize and it comes later. -/
theorem First.cons_cases (h : up.First byteRange i (u :: rest) pre url r) :
    (up.doer i u byteRange = .reply r ∧ pre = [] ∧ url = u) ∨
      ∃ pre', pre = u :: pre' ∧ up.First byteRange (i + 1) rest pre' url r ∧
        ∀ r', up.doer i u byteRange = .reply r' → ¬ authorizes r'.status := by
  obtain ⟨rest', hrest⟩ := h.listed
  cases pre with
  | nil =>
    cases hrest
    exact Or.inl ⟨h.reply, rfl, rfl⟩
  | cons v pre' =>
    cases hrest
    refine Or.inr ⟨pre', rfl, ⟨⟨rest', rfl⟩, ?_, h.authorized, fun j w r' hw hd => ?_,
      fun j hj => ?_⟩, fun r' => h.refused 0 u r' rfl⟩
    · have hreply := h.reply
      rwa [List.length_cons, Nat.add_comm pre'.length, ← Nat.add_assoc] at hreply
    · rw [Nat.add_assoc, Nat.add_comm 1] at hd
      exact h.refused (j + 1) w r' hw hd
    · rw [Nat.add_assoc, Nat.add_comm 1]
      exact h.live (j + 1) (Nat.succ_le_succ hj)

theorem tryCandidates_eq_ok_iff {last : ℕ} : up.tryCandidates byteRange i cands last = .ok r ↔
    ∃ pre url, up.First byteRange i cands pre url r := by
  induction cands generalizing i last with
  | nil =>
    rw [tryCandidates]
    refine iff_of_false nofun ?_
    rintro ⟨pre, url, h⟩
    obtain ⟨rest, hrest⟩ := h.listed
    simp at hrest
  | cons u rest ih =>
    rw [tryCandidates]
    by_cases hctx : up.ctxErr i
    · rw [if_pos hctx]
      refine iff_of_false nofun ?_
      rintro ⟨pre, url, h⟩
      have := h.live 0 (Nat.zero_le _)
      rw [Nat.add_zero, hctx] at this
      cases this
    · rw [if_neg hctx]
      have hctx' : up.ctxErr i = false := eq_false_of_ne_true hctx
      -- an attempt that does not authorize leaves the question to the rest
      have hskip : ∀ last', (∀ r', up.doer i u byteRange = .reply r' → ¬ authorizes r'.status) →
          (up.tryCandidates byteRange (i + 1) rest last' = .ok r ↔
            ∃ pre url, up.First byteRange i (u :: rest) pre url r) := by
        intro last' hno
        rw [ih]
        constructor
        · rintro ⟨pre, url, h⟩
          exact ⟨u :: pre, url, h.cons hctx' hno⟩
        · rintro ⟨pre, url, h⟩
          obtain ⟨hd, -, -⟩ | ⟨pre', -, h', -⟩ := h.cons_cases
          · exact absurd h.authorized (hno r hd)
          · exact ⟨pre', url, h'⟩
      cases hd : up.doer i u byteRange with
      | failed => exact hskip last (by rw [hd]; exact nofun)
      | reply r' =>
        simp only
        by_cases ha : authorizes r'.status
        · rw [if_pos ha, Except.ok.injEq]
          constructor
          · rintro rfl
            exact ⟨[], u, .head hctx' hd ha⟩
          · rintro ⟨pre, url, h⟩
            obtain ⟨hd', -, -⟩ | ⟨pre', -, -, hno⟩ := h.cons_cases
            · exact Exchange.reply.inj (hd.symm.trans hd')
            · exact absurd ha (hno r' hd)
        · rw [if_neg ha]
          refine hskip r'.status fun r'' hd' => ?_
          rw [hd] at hd'
          cases hd'
          exact ha

/-- `fetchAuthorized` returns the reply of the first candidate that authorizes. -/
theorem fetchAuthorized_eq_ok_iff : up.fetchAuthorized byteRange = .ok r ↔
    ∃ cands pre url, up.cands = some cands ∧ up.First byteRange 0 cands pre url r := by
  rw [fetchAuthorized]
  split
  · next hc => exact iff_of_false nofun (by simp [hc])
  · next hc =>
    refine iff_of_false nofun ?_
    rintro ⟨cands, pre, url, hcands, h⟩
    obtain ⟨rest, hrest⟩ := h.listed
    rw [hc, Option.some_inj] at hcands
    simp [← hcands] at hrest
  · next cands _ hc =>
    rw [tryCandidates_eq_ok_iff, hc]
    constructor
    · rintro ⟨pre, url, h⟩
      exact ⟨cands, pre, url, rfl, h⟩
    · rintro ⟨cands', pre, url, hcands, h⟩
      cases hcands
      exact ⟨pre, url, h⟩

end First

/-- `getXorb` takes a CDN body only from a complete 200 or 206. -/
theorem plainFetch_ok {up : Upstream} {byteRange : Bytes} {res : XorbResult}
    (h : up.plainFetch byteRange = .ok res) :
    ∃ r : Reply, authorizes r.status ∧ r.body = .full res.body ∧
      ∃ j url, up.doer j url byteRange = .reply r := by
  rw [plainFetch] at h
  cases hf : up.fetchAuthorized byteRange with
  | error e =>
    rw [hf] at h
    cases h
  | ok r =>
    obtain ⟨ha, hd⟩ := fetchAuthorized_ok hf
    rw [hf] at h
    cases hb : r.body with
    | full body =>
      simp only [hb, Except.ok.injEq] at h
      exact ⟨r, ha, by rw [hb, ← h], hd⟩
    | broken body err =>
      simp only [hb] at h
      cases h

theorem plainFetch_eq_ok_iff {up : Upstream} {byteRange : Bytes} {res : XorbResult} :
    up.plainFetch byteRange = .ok res ↔
      ∃ r : Reply, up.fetchAuthorized byteRange = .ok r ∧ r.body = .full res.body ∧
        r.contentRange = res.contentRange := by
  obtain ⟨body, contentRange⟩ := res
  rw [plainFetch]
  cases up.fetchAuthorized byteRange with
  | error e => simp
  | ok r => cases hb : r.body <;> simp [hb]

/-- A hedge's pull succeeds exactly when the plain pull does, with the same
result. -/
theorem cdnGet_fst (up : Upstream) (byteRange : Bytes) :
    (up.cdnGet byteRange).1 = (up.plainFetch byteRange).toOption := by
  rw [cdnGet, plainFetch]
  cases up.fetchAuthorized byteRange with
  | error e => rfl
  | ok r => cases hb : r.body <;> simp [hb, Except.toOption]

end Upstream

/-! ### Peers -/

/-- `headProbe`: the peer has the range. -/
def headProbe : Exchange → Bool
  | .failed => false
  | .reply r => r.status = 200

/-- `peerGet`: a clean 200 or 206 whose body has the length of the range. -/
def peerGet (byteRange : Bytes) : Exchange → Option XorbResult
  | .failed => none
  | .reply r =>
    if r.status = 206 ∨ r.status = 200 then
      match r.body with
      | .full body =>
        if rangeAccepts byteRange body then some ⟨body, r.contentRange⟩ else none
      | .broken _ _ => none
    else none

theorem peerGet_some {byteRange : Bytes} {ex : Exchange} {res : XorbResult}
    (h : peerGet byteRange ex = some res) :
    ∃ r : Reply, ex = .reply r ∧ (r.status = 206 ∨ r.status = 200) ∧ r.body = .full res.body ∧
      rangeAccepts byteRange res.body := by
  cases ex with
  | failed => cases h
  | reply r =>
    rw [peerGet] at h
    by_cases hs : r.status = 206 ∨ r.status = 200
    · rw [if_pos hs] at h
      cases hb : r.body with
      | full body =>
        simp only [hb] at h
        by_cases ha : rangeAccepts byteRange body
        · rw [if_pos ha, Option.some_inj] at h
          subst h
          exact ⟨r, rfl, hs, hb, ha⟩
        · rw [if_neg ha] at h
          cases h
      | broken body err =>
        simp only [hb] at h
        cases h
    · rw [if_neg hs] at h
      cases h

end XetDcCache
