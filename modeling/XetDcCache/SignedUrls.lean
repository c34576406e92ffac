/-
The signed urls of overlapping reconstructions (signedmap.go, xorb.go, reconstruction.go).

`rememberSigned` reads the candidates of a xorb with `Get` and stores the longer list with
`Set`; each takes the lock of the map, the pair does not.  `SignedState.step` interleaves
the halves of the calls of any number of requests.

* `overlapping_calls_lose_url` — two calls that both read before either stores;
* `no_signed_url_lost_iff` — no url is lost exactly if no call stores over a candidate it
  neither read nor adds.
-/
import XetDcCache.Upstream
import XetDcCache.OrderedDict
import XetDcCache.Transition

namespace XetDcCache

open Transition

/-! ### The map -/

/-- The candidates of a xorb, most recent first. -/
structure Candidates where
  urls : List Url
  nodup : urls.Nodup

namespace Candidates

def none : Candidates := ⟨[], List.nodup_nil⟩

/-- What `rememberSigned` stores: `url` before what it read, capped. -/
def remember (c : Candidates) (signedCandidates : ℕ) (url : Url) : Candidates where
  urls := (url :: c.urls.filter (· ≠ url)).take signedCandidates
  nodup := by
    have hnd : (url :: c.urls.filter (· ≠ url)).Nodup :=
      List.nodup_cons.mpr ⟨by simp, c.nodup.filter _⟩
    exact hnd.sublist (List.take_sublist _ _)

theorem remember_subset (c : Candidates) (n : ℕ) (url : Url) :
    (c.remember n url).urls ⊆ url :: c.urls := by
  intro u hu
  have hmem := List.mem_of_mem_take hu
  rw [List.mem_cons, List.mem_filter] at hmem
  exact List.mem_cons.mpr (hmem.imp_right And.left)

/-- Where there is room for all, nothing that was read is dropped. -/
theorem mem_remember {c : Candidates} {n : ℕ} {url u : Url} {room : List Url}
    (hsub : url :: c.urls ⊆ room) (hroom : room.length ≤ n) :
    u ∈ (c.remember n url).urls ↔ u = url ∨ u ∈ c.urls := by
  have hnd : (url :: c.urls.filter (· ≠ url)).Nodup :=
    List.nodup_cons.mpr ⟨by simp, c.nodup.filter _⟩
  have hin : url :: c.urls.filter (· ≠ url) ⊆ room := by
    intro v hv
    rw [List.mem_cons, List.mem_filter] at hv
    exact hsub (List.mem_cons.mpr (hv.imp_right And.left))
  have hle : (url :: c.urls.filter (· ≠ url)).length ≤ n :=
    (List.subperm_of_subset hnd hin).length_le.trans hroom
  show u ∈ (url :: c.urls.filter (· ≠ url)).take n ↔ _
  rw [List.take_of_length_le hle, List.mem_cons, List.mem_filter]
  by_cases hu : u = url <;> simp [hu]

end Candidates

/-- A value with the time it expires at. -/
structure TTLEntry (β : Type*) where
  expiry : ℕ
  value : β

/-- `max` that is not positive is no cap. -/
structure TTLMap (β : Type*) where
  ttl : ℕ
  max : ℤ
  items : OrderedDict Bytes (TTLEntry β)

namespace TTLMap

variable {β : Type*}

def new (ttl : ℕ) (max : ℤ) : TTLMap β := ⟨ttl, max, .empty⟩

/-- The value of a key, expired or not. -/
def value? (m : TTLMap β) (key : Bytes) : Option β := (m.items.get? key).map TTLEntry.value

/-- The loop at the end of `Set`. -/
def dropOldest (max : ℤ) (d : OrderedDict Bytes (TTLEntry β)) : OrderedDict Bytes (TTLEntry β) :=
  go d.items d.nodup
where
  go : (l : List (Bytes × TTLEntry β)) → (l.map Prod.fst).Nodup → OrderedDict Bytes (TTLEntry β)
    | [], h => ⟨[], h⟩
    | e :: rest, h =>
      if 0 < max ∧ max < (e :: rest).length then go rest (List.nodup_cons.mp h).2
      else ⟨e :: rest, h⟩

def set (m : TTLMap β) (now : ℕ) (key : Bytes) (value : β) : TTLMap β :=
  { m with items := dropOldest m.max ((m.items.moveToEnd key).set key ⟨now + m.ttl, value⟩) }

def get (m : TTLMap β) (now : ℕ) (key : Bytes) : Option β × TTLMap β :=
  match m.items.get? key with
  | .none => (.none, m)
  | some e =>
    if now < e.expiry then (some e.value, m) else (.none, { m with items := m.items.pop key })

/-- `Get` finds no expired value. -/
def Live (m : TTLMap β) (now : ℕ) (key : Bytes) : Prop :=
  ∀ e ∈ m.items.get? key, now < e.expiry

/-- `Set` drops nothing: the other keys leave room for this one. -/
def Room (m : TTLMap β) (key : Bytes) : Prop :=
  m.max ≤ 0 ∨ ((m.items.items.filter (·.1 ≠ key)).length : ℤ) < m.max

instance (m : TTLMap β) (now : ℕ) (key : Bytes) : Decidable (m.Live now key) :=
  inferInstanceAs (Decidable (∀ e ∈ m.items.get? key, now < e.expiry))

instance (m : TTLMap β) (key : Bytes) : Decidable (m.Room key) :=
  inferInstanceAs (Decidable (m.max ≤ 0 ∨ _ < m.max))

theorem get_of_live {m : TTLMap β} {now : ℕ} {key : Bytes} (h : m.Live now key) :
    m.get now key = (m.value? key, m) := by
  rw [get, value?]
  cases hg : m.items.get? key with
  | none => rfl
  | some e => simp only [if_pos (h e hg), Option.map_some]

/-- The loop at the end of `Set` does not run where nothing is over the cap. -/
theorem dropOldest_of_le {max : ℤ} {d : OrderedDict Bytes (TTLEntry β)}
    (h : max ≤ 0 ∨ (d.items.length : ℤ) ≤ max) : dropOldest max d = d := by
  obtain ⟨items, hnd⟩ := d
  show dropOldest.go max items hnd = _
  cases items with
  | nil => rfl
  | cons e rest =>
    rw [dropOldest.go, if_neg]
    rintro ⟨hpos, hlt⟩
    rcases h with h | h
    · omega
    · exact absurd hlt (by simpa using h)

theorem value?_set {m : TTLMap β} {now : ℕ} {key : Bytes} (h : m.Room key) (value : β)
    (key' : Bytes) :
    (m.set now key value).value? key' = if key' = key then some value else m.value? key' := by
  have hle : m.max ≤ 0 ∨
      (((m.items.moveToEnd key).set key ⟨now + m.ttl, value⟩).items.length : ℤ) ≤ m.max := by
    rw [OrderedDict.moveToEnd_set_items', List.length_append, List.length_singleton]
    rcases h with h | h
    · exact Or.inl h
    · right
      omega
  rw [value?, set, dropOldest_of_le hle, OrderedDict.get?_moveToEnd_set, value?]
  by_cases hk : key' = key <;> simp [hk]

end TTLMap

/-! ### Overlapping calls -/

/-- A reconstruction request: the pairs of its manifest it has still to remember, in the order
`rewriteManifest` meets them, and what the call for the first of them has read. -/
structure Rewrite where
  todo : List (Bytes × Url)
  read : Option Candidates

/-- `returned` is the history of the calls that have returned. -/
structure SignedState where
  signed : TTLMap Candidates
  rewrites : List Rewrite
  returned : List (Bytes × Url)

/-- `lookup` is the `Get` of a fetch. -/
inductive SignedAct
  | rewrite (entries : List (Bytes × Url))
  | get (r : ℕ) (now : ℕ)
  | set (r : ℕ) (now : ℕ)
  | lookup (hash : Bytes) (now : ℕ)

/-- A call about to store: its xorb, its url and what it has read. -/
structure Storing where
  hash : Bytes
  url : Url
  read : Candidates

namespace SignedState

def start (signed : TTLMap Candidates) : SignedState := ⟨signed, [], []⟩

def step (signedCandidates : ℕ) (s : SignedState) : SignedAct → Option SignedState
  | .rewrite entries => some { s with rewrites := s.rewrites ++ [⟨entries, none⟩] }
  | .get r now =>
    match s.rewrites[r]? with
    | some ⟨(hash, url) :: todo, none⟩ =>
      let prev := s.signed.get now hash
      some { s with
        signed := prev.2
        rewrites := s.rewrites.set r ⟨(hash, url) :: todo, some (prev.1.getD .none)⟩ }
    | _ => none
  | .set r now =>
    match s.rewrites[r]? with
    | some ⟨(hash, url) :: todo, some prev⟩ =>
      some ⟨s.signed.set now hash (prev.remember signedCandidates url),
        s.rewrites.set r ⟨todo, none⟩, s.returned ++ [(hash, url)]⟩
    | _ => none
  | .lookup hash now => some { s with signed := (s.signed.get now hash).2 }

/-- The candidates of a xorb. -/
def cands (s : SignedState) (hash : Bytes) : List Url :=
  ((s.signed.value? hash).getD .none).urls

/-- The call that stores next. -/
def storing (s : SignedState) : SignedAct → Option Storing
  | .set r _ =>
    match s.rewrites[r]? with
    | some ⟨(hash, url) :: _, some prev⟩ => some ⟨hash, url, prev⟩
    | _ => none
  | _ => none

/-- No entry a call reads has expired, and none is dropped by the cap on their number. -/
def Steady (s : SignedState) : SignedAct → Prop
  | .rewrite _ => True
  | .get r now =>
    match s.rewrites[r]? with
    | some ⟨(hash, _) :: _, none⟩ => s.signed.Live now hash
    | _ => True
  | .set r now => ∀ c ∈ s.storing (.set r now), s.signed.Room c.hash
  | .lookup hash now => s.signed.Live now hash

/-- A call stores over no candidate of `hash` that it neither read nor adds. -/
def Covers (hash : Bytes) (s : SignedState) (a : SignedAct) : Prop :=
  ∀ c ∈ s.storing a, c.hash = hash → s.cands hash ⊆ c.url :: c.read.urls

instance (s : SignedState) : ∀ a, Decidable (s.Steady a)
  | .rewrite _ => .isTrue trivial
  | .get r now =>
    match h : s.rewrites[r]? with
    | some ⟨(hash, _) :: _, .none⟩ => decidable_of_iff (s.signed.Live now hash) (by simp [Steady, h])
    | some ⟨_ :: _, some _⟩ | some ⟨[], _⟩ | .none => .isTrue (by simp [Steady, h])
  | .set r now => inferInstanceAs (Decidable (∀ c ∈ s.storing (.set r now), s.signed.Room c.hash))
  | .lookup hash now => inferInstanceAs (Decidable (s.signed.Live now hash))

instance (hash : Bytes) (s : SignedState) (a : SignedAct) : Decidable (Covers hash s a) :=
  inferInstanceAs (Decidable (∀ c ∈ s.storing a, _ → s.cands hash ⊆ _))

/-- Every request is through with its manifest. -/
def Idle (s : SignedState) : Prop := ∀ w ∈ s.rewrites, w.todo = []

instance (s : SignedState) : Decidable s.Idle :=
  inferInstanceAs (Decidable (∀ w ∈ s.rewrites, w.todo = []))

/-- What was stored at `s₀` and the urls of the calls that have returned are candidates. -/
def Keeps (hash : Bytes) (s s₀ : SignedState) : Prop :=
  ∀ u, u ∈ s₀.cands hash ∨ (hash, u) ∈ s.returned → u ∈ s.cands hash

end SignedState

/-- The urls the requests of a run remember for `hash`. -/
def remembered (hash : Bytes) (as : List SignedAct) : List Url :=
  as.flatMap fun
    | .rewrite entries => entries.filterMap fun e => if e.1 = hash then some e.2 else none
    | _ => []

/-! ### What a step can do -/

/-- The steps of a run in which no entry expires and none is dropped. -/
inductive SignedState.Moves (n : ℕ) (s : SignedState) : SignedAct → SignedState → Prop
  | rewrite (entries : List (Bytes × Url)) :
    Moves n s (.rewrite entries) { s with rewrites := s.rewrites ++ [⟨entries, none⟩] }
  | get {r now : ℕ} {hash : Bytes} {url : Url} {todo : List (Bytes × Url)} {prev : Candidates}
    (hr : s.rewrites[r]? = some ⟨(hash, url) :: todo, none⟩) (hprev : prev.urls = s.cands hash) :
    Moves n s (.get r now)
      { s with rewrites := s.rewrites.set r ⟨(hash, url) :: todo, some prev⟩ }
  | set {r now : ℕ} {hash : Bytes} {url : Url} {todo : List (Bytes × Url)} {prev : Candidates}
    (hr : s.rewrites[r]? = some ⟨(hash, url) :: todo, some prev⟩) (hroom : s.signed.Room hash) :
    Moves n s (.set r now) ⟨s.signed.set now hash (prev.remember n url),
      s.rewrites.set r ⟨todo, none⟩, s.returned ++ [(hash, url)]⟩
  | lookup (hash : Bytes) (now : ℕ) : Moves n s (.lookup hash now) s

section Steps

variable {n : ℕ} {s s' s₀ : SignedState} {a : SignedAct} {hash : Bytes}

theorem SignedState.step_moves (hsteady : s.Steady a) (h : s.step n a = some s') :
    s.Moves n a s' := by
  revert h
  fun_cases SignedState.step n s a
  all_goals
    intro h
    cases h
  case case1 entries => exact .rewrite entries
  case case2 r now hash url todo hr prev =>
    rw [Steady, hr] at hsteady
    have hget : prev = (s.signed.value? hash, s.signed) := TTLMap.get_of_live hsteady
    rw [hget]
    exact .get hr rfl
  case case4 r now hash url todo prev hr =>
    refine .set hr (hsteady ⟨hash, url, prev⟩ ?_)
    rw [storing, hr, Option.mem_some_iff]
  case case6 hash now =>
    rw [TTLMap.get_of_live hsteady]
    exact .lookup hash now

/-- No call is lost: it has returned or is still to come. -/
theorem SignedState.Moves.owed (h : s.Moves n a s') {c : Bytes × Url}
    (hc : c ∈ s.returned ∨ ∃ w ∈ s.rewrites, c ∈ w.todo) :
    c ∈ s'.returned ∨ ∃ w ∈ s'.rewrites, c ∈ w.todo := by
  cases h with
  | rewrite entries =>
    exact hc.imp_right fun ⟨w, hw, hcw⟩ => ⟨w, List.mem_append_left _ hw, hcw⟩
  | @get r now hash url todo prev hr hprev =>
    refine hc.imp_right fun ⟨w, hw, hcw⟩ => ?_
    obtain ⟨i, hi⟩ := List.mem_iff_getElem?.mp hw
    by_cases hir : i = r
    · subst hir
      rw [hr, Option.some_inj] at hi
      subst hi
      have hlt := (List.getElem?_eq_some_iff.mp hr).1
      exact ⟨_, List.mem_set hlt _, hcw⟩
    · refine ⟨w, List.mem_iff_getElem?.mpr ⟨i, ?_⟩, hcw⟩
      rw [List.getElem?_set_ne (Ne.symm hir), hi]
  | @set r now hash url todo prev hr hroom =>
    rcases hc with hc | ⟨w, hw, hcw⟩
    · exact Or.inl (List.mem_append_left _ hc)
    obtain ⟨i, hi⟩ := List.mem_iff_getElem?.mp hw
    by_cases hir : i = r
    · -- the call that stores returns, the later ones of its request stay
      subst hir
      rw [hr, Option.some_inj] at hi
      subst hi
      have hlt := (List.getElem?_eq_some_iff.mp hr).1
      rcases List.mem_cons.mp hcw with rfl | hcw
      · exact Or.inl (List.mem_append_right _ List.mem_cons_self)
      · exact Or.inr ⟨_, List.mem_set hlt _, hcw⟩
    · refine Or.inr ⟨w, List.mem_iff_getElem?.mpr ⟨i, ?_⟩, hcw⟩
      rw [List.getElem?_set_ne (Ne.symm hir), hi]
  | lookup hash now => exact hc

/-! ### The invariant -/

/-- A url stored at `s₀` or by a call that has returned. -/
def SignedState.Known (hash : Bytes) (s₀ s : SignedState) (u : Url) : Prop :=
  u ∈ s₀.cands hash ∨ (hash, u) ∈ s.returned

/-- What is stored and what calls have read is known, and what calls remember is among
`asked`. -/
structure SignedState.Inv (hash : Bytes) (s₀ : SignedState) (asked : List Url) (s : SignedState) :
    Prop where
  cands : ∀ {u}, u ∈ s.cands hash → Known hash s₀ s u
  read : ∀ {w}, w ∈ s.rewrites → ∀ {url todo prev}, w = ⟨(hash, url) :: todo, some prev⟩ →
    ∀ {u}, u ∈ prev.urls → Known hash s₀ s u
  todo : ∀ {w}, w ∈ s.rewrites → ∀ {u}, (hash, u) ∈ w.todo → u ∈ asked
  returned : ∀ {u}, (hash, u) ∈ s.returned → u ∈ asked

variable {asked : List Url}

/-- The candidates after a call has stored. -/
theorem SignedState.cands_set {now : ℕ} {hash' : Bytes} (c : Candidates)
    (hroom : s.signed.Room hash') {rs : List Rewrite} {cs : List (Bytes × Url)} :
    cands ⟨s.signed.set now hash' c, rs, cs⟩ hash =
      if hash = hash' then c.urls else s.cands hash := by
  rw [cands, TTLMap.value?_set hroom]
  by_cases hh : hash = hash'
  · simp only [if_pos hh, Option.getD_some]
  · simp only [if_neg hh]
    rfl

/-- Nothing known is lost by a step exactly if the step covers what is stored. -/
theorem SignedState.Inv.step (hI : Inv hash s₀ asked s) (hK : s.Keeps hash s₀)
    (hcap : (s₀.cands hash).length + asked.length ≤ n) (hsteady : s.Steady a)
    (hasked : ∀ entries, a = .rewrite entries → ∀ u, (hash, u) ∈ entries → u ∈ asked)
    (h : s.step n a = some s') :
    Inv hash s₀ asked s' ∧ (s'.Keeps hash s₀ ↔ s.Covers hash a) := by
  cases SignedState.step_moves hsteady h with
  | rewrite entries =>
    refine ⟨⟨hI.cands, ?_, ?_, hI.returned⟩, iff_of_true hK nofun⟩
    · intro w hw url todo prev heq u hu
      rcases List.mem_append.mp hw with hw | hw
      · exact hI.read hw heq hu
      · rw [List.mem_singleton.mp hw] at heq
        cases heq
    · intro w hw u hu
      rcases List.mem_append.mp hw with hw | hw
      · exact hI.todo hw hu
      · rw [List.mem_singleton.mp hw] at hu
        exact hasked entries rfl u hu
  | @get r now hash' url todo prev hr hprev =>
    refine ⟨⟨hI.cands, ?_, ?_, hI.returned⟩, iff_of_true hK ?_⟩
    · intro w hw url' todo' prev' heq u hu
      rcases List.mem_or_eq_of_mem_set hw with hw | rfl
      · exact hI.read hw heq hu
      · cases heq
        rw [hprev] at hu
        exact hI.cands hu
    · intro w hw u hu
      rcases List.mem_or_eq_of_mem_set hw with hw | rfl
      · exact hI.todo hw hu
      · exact hI.todo (List.mem_of_getElem? hr) hu
    · rintro c ⟨⟩
  | @set r now hash' url todo prev hr hroom =>
    have hmem := List.mem_of_getElem? hr
    have hgrow : ∀ {u}, Known hash s₀ s u →
        u ∈ s₀.cands hash ∨ (hash, u) ∈ s.returned ++ [(hash', url)] :=
      fun hu => hu.imp_right (List.mem_append_left _)
    have hstore : s.storing (.set r now) = some ⟨hash', url, prev⟩ := by
      rw [storing, hr]
    have hread : ∀ {w}, w ∈ s.rewrites.set r ⟨todo, none⟩ → ∀ {url' todo' prev'},
        w = ⟨(hash, url') :: todo', some prev'⟩ → ∀ {u}, u ∈ prev'.urls →
        u ∈ s₀.cands hash ∨ (hash, u) ∈ s.returned ++ [(hash', url)] := by
      intro w hw url' todo' prev' heq u hu
      rcases List.mem_or_eq_of_mem_set hw with hw | rfl
      · exact hgrow (hI.read hw heq hu)
      · cases heq
    have htodo : ∀ {w}, w ∈ s.rewrites.set r ⟨todo, none⟩ → ∀ {u}, (hash, u) ∈ w.todo →
        u ∈ asked := by
      intro w hw u hu
      rcases List.mem_or_eq_of_mem_set hw with hw | rfl
      · exact hI.todo hw hu
      · exact hI.todo hmem (List.mem_cons_of_mem _ hu)
    by_cases hh : hash = hash'
    · subst hh
      -- below the cap the call stores its url and all it read
      have hurl : url ∈ asked := hI.todo hmem List.mem_cons_self
      have hsub : url :: prev.urls ⊆ s₀.cands hash ++ asked := by
        refine List.cons_subset.mpr ⟨List.mem_append_right _ hurl, fun u hu => ?_⟩
        exact List.mem_append.mpr ((hI.read hmem rfl hu).imp_right hI.returned)
      have hstored : ∀ {u}, u ∈ (prev.remember n url).urls ↔ u = url ∨ u ∈ prev.urls :=
        Candidates.mem_remember hsub (by rw [List.length_append]; exact hcap)
      refine ⟨⟨?_, hread, htodo, ?_⟩, ?_⟩
      · intro u hu
        rw [cands_set _ hroom, if_pos rfl, hstored] at hu
        rcases hu with rfl | hu
        · exact Or.inr (List.mem_append_right _ List.mem_cons_self)
        · exact hgrow (hI.read hmem rfl hu)
      · intro u hu
        rcases List.mem_append.mp hu with hu | hu
        · exact hI.returned hu
        · cases List.mem_singleton.mp hu
          exact hurl
      · constructor
        · intro hkeep c hc _ u hu
          rw [hstore, Option.mem_some_iff] at hc
          subst hc
          have hu' := hkeep u (hgrow (hI.cands hu))
          rw [cands_set _ hroom, if_pos rfl, hstored] at hu'
          exact List.mem_cons.mpr hu'
        · intro hcov u hu
          rw [cands_set _ hroom, if_pos rfl, hstored]
          have hold : Known hash s₀ s u → u = url ∨ u ∈ prev.urls := fun hu =>
            List.mem_cons.mp (hcov _ hstore rfl (hK u hu))
          rcases hu with hu | hu
          · exact hold (Or.inl hu)
          · rcases List.mem_append.mp hu with hu | hu
            · exact hold (Or.inr hu)
            · cases List.mem_singleton.mp hu
              exact Or.inl rfl
    · have hne : ∀ {u}, (hash, u) ∈ s.returned ++ [(hash', url)] → (hash, u) ∈ s.returned := by
        intro u hu
        rcases List.mem_append.mp hu with hu | hu
        · exact hu
        · cases List.mem_singleton.mp hu
          exact absurd rfl hh
      refine ⟨⟨?_, hread, htodo, fun hu => hI.returned (hne hu)⟩, iff_of_true ?_ ?_⟩
      · intro u hu
        rw [cands_set _ hroom, if_neg hh] at hu
        exact hgrow (hI.cands hu)
      · intro u hu
        rw [cands_set _ hroom, if_neg hh]
        exact hK u (hu.imp_right hne)
      · intro c hc hch
        rw [hstore, Option.mem_some_iff] at hc
        subst hc
        exact absurd hch.symm hh
  | lookup hash' now => exact ⟨hI, iff_of_true hK nofun⟩

end Steps

/-! ### The result -/

/-- Every call of a run has returned or is still to come. -/
theorem SignedState.exec_owed {n : ℕ} {hash : Bytes} {u : Url} : ∀ {as : List SignedAct}
    {s s' : SignedState}, Along (step n) Steady s as → exec (step n) s as = some s' →
    (u ∈ remembered hash as ∨ (hash, u) ∈ s.returned ∨ ∃ w ∈ s.rewrites, (hash, u) ∈ w.todo) →
    (hash, u) ∈ s'.returned ∨ ∃ w ∈ s'.rewrites, (hash, u) ∈ w.todo := by
  intro as
  induction as with
  | nil =>
    intro s s' _ h hu
    rw [exec_nil, Option.some_inj] at h
    subst h
    exact hu.resolve_left (by simp [remembered])
  | cons a as ih =>
    intro s s' hsteady h hu
    obtain ⟨t, ht, hrest⟩ := exec_cons.mp h
    have hm := step_moves hsteady.1 ht
    refine ih (hsteady.2 t ht) hrest ?_
    rcases hu with hu | hu
    · rw [remembered, List.flatMap_cons, List.mem_append] at hu
      refine hu.elim (fun hu => Or.inr (Or.inr ?_)) Or.inl
      cases hm with
      | rewrite entries =>
        obtain ⟨⟨k, v⟩, hmem, hif⟩ := List.mem_filterMap.mp hu
        refine ⟨⟨entries, none⟩, List.mem_append_right _ List.mem_cons_self, ?_⟩
        split at hif
        · next hk =>
          cases hif
          exact hk ▸ hmem
        · cases hif
      | _ => cases hu
    · exact Or.inr (hm.owed hu)

/-- **No signed url is lost** in a run of overlapping reconstructions, in which no entry expires
or is dropped and the candidates have room for all, exactly if every call covers what is stored
when it stores; then what was stored and every url remembered by the run are candidates once all
its calls have returned. -/
theorem no_signed_url_lost_iff {n : ℕ} {signed : TTLMap Candidates} {hash : Bytes}
    {as : List SignedAct} {s : SignedState}
    (hsteady : Along (SignedState.step n) SignedState.Steady (.start signed) as)
    (hcap : ((SignedState.start signed).cands hash).length + (remembered hash as).dedup.length ≤ n)
    (h : exec (SignedState.step n) (.start signed) as = some s) :
    ((∀ pre, pre <+: as → ∀ t, exec (SignedState.step n) (.start signed) pre = some t →
        t.Keeps hash (.start signed)) ↔
      Along (SignedState.step n) (SignedState.Covers hash) (.start signed) as) ∧
    (Along (SignedState.step n) (SignedState.Covers hash) (.start signed) as → s.Idle →
      ∀ u, u ∈ (SignedState.start signed).cands hash ∨ u ∈ remembered hash as →
        u ∈ s.cands hash) := by
  have hasked : ∀ a ∈ as, ∀ entries, a = .rewrite entries → ∀ u, (hash, u) ∈ entries →
      u ∈ (remembered hash as).dedup := by
    rintro a ha entries rfl u hu
    refine List.mem_dedup.mpr (List.mem_flatMap.mpr ⟨_, ha, ?_⟩)
    exact List.mem_filterMap.mpr ⟨(hash, u), hu, if_pos rfl⟩
  have hinit : SignedState.Inv hash (.start signed) (remembered hash as).dedup (.start signed) :=
    ⟨Or.inl, nofun, nofun, nofun⟩
  have hkeep : (SignedState.start signed).Keeps hash (.start signed) := fun u hu =>
    hu.resolve_right nofun
  have hiff := always_iff_along (P := fun t => t.Keeps hash (.start signed))
    (fun hI hK hbg hstep => hI.step hK hcap hbg.1 hbg.2 hstep) hinit hkeep
    (hsteady.and (Along.of_forall fun a ha _ => hasked a ha)) h
  refine ⟨hiff, fun hcov hidle u hu => ?_⟩
  refine hiff.mpr hcov as List.prefix_rfl s h u (hu.imp_right fun hu => ?_)
  refine (SignedState.exec_owed hsteady h (Or.inl hu)).resolve_right ?_
  rintro ⟨w, hw, hmem⟩
  rw [hidle w hw] at hmem
  cases hmem

/-! ### Two requests -/

/-- Two manifests with a url each for one xorb, and then the halves of the two calls. -/
def twoRewrites (halves : List SignedAct) : List SignedAct :=
  [.rewrite [([120], lit "a")], .rewrite [([120], lit "b")]] ++ halves

/-- The second call reads after the first has stored. -/
theorem no_signed_url_lost_in_turn :
    ∃ s, exec (SignedState.step 8) (.start (.new 3600 100))
        (twoRewrites [.get 0 0, .set 0 0, .get 1 0, .set 1 0]) = some s ∧
      s.Idle ∧ lit "a" ∈ s.cands [120] ∧ lit "b" ∈ s.cands [120] := by
  obtain ⟨s, hs, h⟩ := exec_of_any (SignedState.step 8) (.start (.new 3600 100))
    (twoRewrites [.get 0 0, .set 0 0, .get 1 0, .set 1 0]) (fun s => s.Idle) (by decide +kernel)
  have hidle : s.Idle := by simpa using h
  have hkept := (@no_signed_url_lost_iff 8 _ [120] _ _ (by decide +kernel) (by decide +kernel)
    hs).2 (by decide +kernel) hidle
  exact ⟨s, hs, hidle, hkept _ (Or.inr (by decide +kernel)), hkept _ (Or.inr (by decide +kernel))⟩

/-- Both calls read before either stores: the second store drops the url of the first. -/
theorem overlapping_calls_lose_url :
    ∃ as s, exec (SignedState.step 8) (.start (.new 3600 100)) as = some s ∧
      Along (SignedState.step 8) SignedState.Steady (.start (.new 3600 100)) as ∧
      (remembered [120] as).dedup.length ≤ 8 ∧ s.Idle ∧
      lit "a" ∈ remembered [120] as ∧ lit "a" ∉ s.cands [120] := by
  obtain ⟨s, hs, h⟩ := exec_of_any (SignedState.step 8) (.start (.new 3600 100))
    (twoRewrites [.get 0 0, .get 1 0, .set 0 0, .set 1 0])
    (fun s => s.Idle ∧ lit "a" ∉ s.cands [120]) (by decide +kernel)
  obtain ⟨hidle, hlost⟩ : s.Idle ∧ lit "a" ∉ s.cands [120] := by simpa using h
  exact ⟨_, s, hs, by decide +kernel, by decide +kernel, hidle, by decide +kernel, hlost⟩

end XetDcCache
