/-
The sticky pointer under concurrent races (peer_fetch.go, peers.go).

Only the end of a race writes the pointer (`Node.step_sticky`): a win of its peer pins that peer,
a win of the CDN and a failure of the race for the sticky peer clear the pointer, whoever it
points to by then.

* `only_own_dropped_iff` — which runs drop no peer but the one that was raced;
* `lone_peer_stays` — those of a node with one sibling do.
-/
import XetDcCache.Threads

namespace XetDcCache

open Transition

/-! ### The end of a race -/

/-- The end of a race in a flight, at a clock. -/
structure RaceEnd where
  leg : Leg
  base : Url
  out : RaceResult
  now : ℕ
deriving DecidableEq, Repr

namespace RaceEnd

/-- The peer won. -/
def won (e : RaceEnd) : Bool :=
  match e.out with
  | some (_, .srcPeer) => true
  | _ => false

/-- The pointer is cleared: the CDN won, or the race for the sticky peer failed. -/
def clears (e : RaceEnd) : Bool :=
  match e.leg, e.out with
  | _, some (_, .srcCDN) => true
  | .sticky, none => true
  | _, _ => false

/-- What the end of a race makes of the pointer. -/
def next (cfg : Config) (s : Sticky) (e : RaceEnd) : Sticky :=
  if e.won then .set e.base e.now cfg.stickyTTL else if e.clears then s.clear else s

end RaceEnd

def Fetch.raceEnd : Fetch → FetchAct → Option RaceEnd
  | .settle leg base out, .settle now => some ⟨leg, base, out, now⟩
  | _, _ => none

/-- The race that ends with an action. -/
def Node.raceEnd (n : Node) (b : NodeAct) : Option RaceEnd :=
  match n.moving b with
  | some ⟨_, ⟨_, .fetch f, _⟩, .fetch a⟩ => f.raceEnd a
  | _ => none

/-- The pointer of a node. -/
abbrev Node.sticky (n : Node) : Sticky := n.shared.hub.sticky

section Steps

variable {cfg : Config}

theorem Race.step_sticky {cancelled : Bool} {byteRange : Bytes} {hub hub' : Hub} {r : Race}
    {a : RaceAct} {next : RaceNext}
    (h : r.step cfg cancelled byteRange hub a = some (hub', next)) : hub'.sticky = hub.sticky := by
  revert h
  fun_cases Race.step cfg cancelled byteRange hub r a
  all_goals
    intro h
    cases h
  all_goals rfl

/-- A fetch writes the pointer as its race ends, and only then. -/
theorem Fetch.step_sticky {t : Tid} {cancelled : Bool} {byteRange : Bytes} {hub hub' : Hub}
    {f : Fetch} {a : FetchAct} {next : FetchNext}
    (h : f.step cfg t cancelled byteRange hub a = some (hub', next)) :
    hub'.sticky = (f.raceEnd a).elim hub.sticky (RaceEnd.next cfg hub.sticky) := by
  revert h
  fun_cases Fetch.step cfg t cancelled byteRange hub f a
  case case5 leg base r a hub' r' hr =>
    intro h
    cases h
    exact Race.step_sticky hr
  case case6 leg base r a hub' out orphan hr =>
    intro h
    cases h
    have hsame := Race.step_sticky hr
    exact hsame
  case case7 leg base res src now =>
    intro h
    cases h
    cases leg <;> cases src <;> rfl
  all_goals
    intro h
    cases h
  all_goals rfl

/-- A process that goes on writes the pointer as a race ends, and only then. -/
theorem Node.step_sticky {n n' : Node} {b : NodeAct} (h : n.step cfg b = some n') :
    (∃ boot, b = .restart boot) ∨
      n'.sticky = (n.raceEnd b).elim n.sticky (RaceEnd.next cfg n.sticky) := by
  revert h
  fun_cases Node.step cfg n b
  all_goals
    intro h
    cases h
  case case6 t a th ht sh stage hstep =>
    refine Or.inr ?_
    have hmoving : n.moving (.thread t a) = some ⟨t, th, a⟩ := by rw [Node.moving, ht]; rfl
    rw [Node.raceEnd, hmoving]
    obtain ⟨req, st, connected⟩ := th
    cases Stage.step_moves hstep
    case fetchGo hf => exact Fetch.step_sticky hf
    case fetchFilled hf => exact Fetch.step_sticky hf
    case fetchFailed hf => exact Fetch.step_sticky hf
    all_goals rfl
  case case12 boot => exact Or.inl ⟨boot, rfl⟩
  all_goals exact Or.inr rfl

/-! ### What may take the pointer away -/

/-- A step that takes a live pointer from a peer is a restart, or the end of a race that its own
peer won, that was against that peer, or that found the pointer expired. -/
def Node.OnlyOwn (n : Node) (b : NodeAct) (n' : Node) : Prop :=
  ∀ now, ∀ url ∈ n.sticky.get now, n'.sticky.get now = some url ∨ (∃ boot, b = .restart boot) ∨
    ∃ e ∈ n.raceEnd b, e.won ∨ e.base = url ∨ n.sticky.get e.now = none

/-- A race that clears the pointer finds it at its own peer, or expired. -/
def Node.ClearsOwn (n : Node) (b : NodeAct) : Prop :=
  ∀ e ∈ n.raceEnd b, e.clears → ∀ url ∈ n.sticky.get e.now, url = e.base

instance (n : Node) (b : NodeAct) : Decidable (n.ClearsOwn b) :=
  inferInstanceAs (Decidable (∀ e ∈ n.raceEnd b, _ → ∀ url ∈ n.sticky.get e.now, url = e.base))

theorem Sticky.get_clear (s : Sticky) (now : ℕ) : s.clear.get now = none := if_pos (Or.inl rfl)

theorem RaceEnd.not_won {e : RaceEnd} (h : e.clears) : e.won = false := by
  obtain ⟨leg, base, out, now⟩ := e
  cases leg <;> rcases out with _ | ⟨res, _ | _⟩ <;> first | rfl | cases h

theorem Sticky.of_get {s : Sticky} {now : ℕ} {url : Url} (h : s.get now = some url) :
    s.url = url := by
  rw [Sticky.get] at h
  split at h
  · cases h
  · exact Option.some_inj.mp h

theorem Node.raceEnd_eq_some {n : Node} {b : NodeAct} {e : RaceEnd} :
    n.raceEnd b = some e ↔ ∃ t req connected, b = .thread t (.fetch (.settle e.now)) ∧
      n.threads[t]? = some ⟨req, .fetch (.settle e.leg e.base e.out), connected⟩ := by
  constructor
  · intro h
    rw [Node.raceEnd] at h
    split at h
    · next t req f connected a hmoving =>
      cases b with
      | thread u act =>
        obtain ⟨th, hth, hm⟩ := Option.map_eq_some_iff.mp hmoving
        cases hm
        revert h
        fun_cases Fetch.raceEnd f a
        · intro h
          cases h
          exact ⟨_, _, _, rfl, hth⟩
        · nofun
      | _ => cases hmoving
    · cases h
  · rintro ⟨t, req, connected, rfl, hth⟩
    rw [Node.raceEnd, Node.moving, hth]
    rfl

/-- The end of a race always goes through. -/
theorem Node.raceEnd_step {n : Node} {b : NodeAct} {e : RaceEnd} (h : n.raceEnd b = some e) :
    ∃ n', n.step cfg b = some n' := by
  obtain ⟨t, req, connected, rfl, hth⟩ := Node.raceEnd_eq_some.mp h
  obtain ⟨leg, base, out, now⟩ := e
  rw [Node.step, hth]
  rcases out with _ | ⟨res, src⟩ <;> cases leg <;> exact ⟨_, rfl⟩

/-- One step. -/
theorem Node.only_own_iff {n : Node} {b : NodeAct} :
    (∀ n', n.step cfg b = some n' → n.OnlyOwn b n') ↔ n.ClearsOwn b := by
  constructor
  · intro h e he hclears url hurl
    obtain ⟨n', hstep⟩ : ∃ n', n.step cfg b = some n' := Node.raceEnd_step he
    rcases h n' hstep e.now url hurl with hkept | ⟨boot, rfl⟩ | ⟨e', he', hown⟩
    · rcases Node.step_sticky hstep with ⟨boot, rfl⟩ | hsticky
      · cases he
      · rw [hsticky, he, Option.elim_some, RaceEnd.next, RaceEnd.not_won hclears, if_pos hclears,
          if_neg Bool.false_ne_true, Sticky.get_clear] at hkept
        cases hkept
    · cases he
    · obtain rfl : e = e' := Option.some_inj.mp (he.symm.trans he')
      rcases hown with hwon | hbase | hexpired
      · rw [RaceEnd.not_won hclears] at hwon
        cases hwon
      · exact hbase.symm
      · rw [hexpired] at hurl
        cases hurl
  · intro h n' hstep now url hurl
    rcases Node.step_sticky hstep with hboot | hsticky
    · exact Or.inr (Or.inl hboot)
    · cases he : n.raceEnd b with
      | none =>
        rw [he, Option.elim_none] at hsticky
        exact Or.inl (hsticky ▸ hurl)
      | some e =>
        by_cases hwon : e.won
        · exact Or.inr (Or.inr ⟨e, rfl, Or.inl hwon⟩)
        · by_cases hclears : e.clears
          · refine Or.inr (Or.inr ⟨e, rfl, Or.inr ?_⟩)
            cases hlive : n.sticky.get e.now with
            | none => exact Or.inr rfl
            | some url' =>
              -- a live pointer has one target
              have hbase := h e he hclears url' hlive
              exact Or.inl (by rw [← hbase, ← Sticky.of_get hlive, Sticky.of_get hurl])
          · rw [he, Option.elim_some, RaceEnd.next, if_neg hwon, if_neg hclears] at hsticky
            exact Or.inl (hsticky ▸ hurl)

/-- **A race that fails drops its own peer only**: along a run of any number of concurrent
fetches no step takes a live pointer from a peer but by expiry, a race against that peer, or the
win of another peer.  This is so exactly if every race that clears the pointer finds it at its own
peer, or expired. -/
theorem only_own_dropped_iff (n : Node) (acts : List NodeAct) :
    Along (Node.step cfg) (fun n b => ∀ n', n.step cfg b = some n' → n.OnlyOwn b n') n acts ↔
      Along (Node.step cfg) Node.ClearsOwn n acts :=
  ⟨Along.mono fun _ _ => Node.only_own_iff.mp, Along.mono fun _ _ => Node.only_own_iff.mpr⟩

/-! ### A node with one sibling -/

/-- The peers a fetch races or may race. -/
def Fetch.urls : Fetch → List Url
  | .racing _ base _ => [base]
  | .settle _ base _ => [base]
  | .probing pending found => pending ++ found
  | _ => []

/-- The pointer and the races are about the peers of the configuration. -/
structure Node.Siblings (cfg : Config) (n : Node) : Prop where
  sticky : ∀ now, ∀ url ∈ n.sticky.get now, url ∈ cfg.peers
  urls : ∀ {t : Tid} {th : Thread} {f : Fetch}, n.threads[t]? = some th → th.stage = .fetch f →
    f.urls ⊆ cfg.peers

theorem Fetch.step_urls {t : Tid} {cancelled : Bool} {byteRange : Bytes} {hub hub' : Hub}
    {f f' : Fetch} {a : FetchAct}
    (hsticky : ∀ now, ∀ url ∈ hub.sticky.get now, url ∈ cfg.peers) (hf : f.urls ⊆ cfg.peers)
    (h : f.step cfg t cancelled byteRange hub a = some (hub', .go f')) : f'.urls ⊆ cfg.peers := by
  revert h
  fun_cases Fetch.step cfg t cancelled byteRange hub f a
  all_goals
    intro h
    cases h
  case case2 now hne url hget => exact List.cons_subset.mpr ⟨hsticky now url hget, by simp⟩
  case case3 now hne hget => simp [Fetch.urls]
  case case10 pending found base ex hmem =>
    intro url hurl
    refine hf (List.mem_append.mpr ?_)
    rcases List.mem_append.mp hurl with hp | hfound
    · exact Or.inl (List.mem_of_mem_erase hp)
    · split at hfound
      · rcases List.mem_append.mp hfound with hold | hbase
        · exact Or.inr hold
        · exact Or.inl (List.mem_singleton.mp hbase ▸ hmem)
      · exact Or.inr hfound
  case case12 pending base rest =>
    exact List.cons_subset.mpr ⟨hf (by simp [Fetch.urls]), by simp⟩
  all_goals first | exact hf | simp [Fetch.urls]

theorem RaceEnd.next_get {s : Sticky} {e : RaceEnd} {now : ℕ} {url : Url}
    (h : (e.next cfg s).get now = some url) : url = e.base ∨ s.get now = some url := by
  rw [RaceEnd.next] at h
  split at h
  · exact Or.inl (Sticky.of_get h).symm
  · split at h
    · rw [Sticky.get_clear] at h
      cases h
    · exact Or.inr h

theorem Node.Siblings.step {n n' : Node} {b : NodeAct} (h : n.Siblings cfg)
    (hstep : n.step cfg b = some n') : n'.Siblings cfg := by
  refine ⟨fun now url hurl => ?_, fun {t th f} hth hf => ?_⟩
  · rcases Node.step_sticky hstep with ⟨boot, rfl⟩ | hsticky
    · cases hstep
      cases hurl
    · cases he : n.raceEnd b with
      | none =>
        rw [he, Option.elim_none] at hsticky
        exact h.sticky now url (hsticky ▸ hurl)
      | some e =>
        rw [he, Option.elim_some] at hsticky
        rw [hsticky] at hurl
        -- what a race pins is the peer it raced, one of the thread's own
        obtain ⟨t, req, connected, -, hth⟩ := Node.raceEnd_eq_some.mp he
        rcases RaceEnd.next_get hurl with rfl | hold
        · exact h.urls hth rfl List.mem_cons_self
        · exact h.sticky now url hold
  · cases Node.step_moves hstep with
    | arrive req =>
      rcases get_append hth with hold | ⟨-, rfl⟩
      · exact h.urls hold hf
      · cases hf
    | disconnect ht =>
      rcases get_set hth with ⟨-, rfl⟩ | ⟨-, hold⟩
      · exact h.urls ht hf
      · exact h.urls hold hf
    | @thread t moving a sh stage ht hm =>
      rcases get_set hth with ⟨-, rfl⟩ | ⟨-, hold⟩
      · obtain ⟨req, st, connected⟩ := moving
        cases hm with
        | lead hflight =>
          cases hf
          exact List.nil_subset _
        | fetchGo hgo =>
          cases hf
          exact Fetch.step_urls h.sticky (h.urls ht rfl) hgo
        | _ => cases hf
      · exact h.urls hold hf
    | background _ _ _ => exact h.urls hth hf
    | restart boot =>
      obtain ⟨th', -, rfl⟩ := get_kill hth
      revert hf
      cases th'.stage <;> nofun

theorem siblings_init (cfg : Config) : (Node.init cfg).Siblings cfg :=
  ⟨fun _ _ => nofun, fun h => by simp [Node.init] at h⟩

/-- With one sibling a race finds the pointer at its own peer. -/
theorem lone_peer_stays {url : Url} (hpeers : cfg.peers = [url]) (acts : List NodeAct) :
    Along (Node.step cfg) Node.ClearsOwn (.init cfg) acts := by
  refine along_of_invariant (fun h hstep => Node.Siblings.step h hstep) ?_ (siblings_init cfg)
  intro n b h e he _ live hlive
  obtain ⟨t, req, connected, -, hth⟩ := Node.raceEnd_eq_some.mp he
  have hbase : e.base ∈ cfg.peers := h.urls hth rfl List.mem_cons_self
  have hurl := h.sticky e.now live hlive
  rw [hpeers, List.mem_singleton] at hbase hurl
  rw [hbase, hurl]

end Steps

/-! ### Two siblings -/

def Config.twoSiblings : Config := { Config.lone with peers := [lit "a", lit "b"], stickyTTL := 9 }

/-- Steps of a fetch. -/
def fetchSteps (t : Tid) (as : List FetchAct) : List NodeAct := as.map fun a => .thread t (.fetch a)

def Exchange.has : Exchange := .reply ⟨200, [], .full []⟩

/-- `a` wins for one request, and is pinned; two others race it.  One fails, finds `b`, and `b`
wins. -/
def pinnedRun : List NodeAct :=
  missing 0 [120] ++ fetchSteps 0 [.begin 0, .head (lit "a") .has, .found,
    .race (.peer (.reply ⟨206, [], .full [7]⟩)), .race .recvPeer, .settle 1] ++
  missing 1 [121] ++ fetchSteps 1 [.begin 2] ++
  missing 2 [122] ++ fetchSteps 2 [.begin 2, .race (.peer .failed), .race .recvPeer, .settle 3,
    .head (lit "b") .has, .found, .race (.peer (.reply ⟨206, [], .full [7]⟩)), .race .recvPeer,
    .settle 4] ++
  fetchSteps 1 [.race (.peer .failed), .race .recvPeer]

/-- Then the race of the other fails, against `a`, and `b` is dropped. -/
theorem failed_race_drops_other : ∃ n n',
    exec (Node.step .twoSiblings) (.init .twoSiblings) pinnedRun = some n ∧
      n.step .twoSiblings (.thread 1 (.fetch (.settle 5))) = some n' ∧
      n.raceEnd (.thread 1 (.fetch (.settle 5))) = some ⟨.sticky, lit "a", none, 5⟩ ∧
      n.sticky.get 5 = some (lit "b") ∧ n'.sticky.get 5 = none := by
  obtain ⟨n', hn', hdropped⟩ := exec_of_any (Node.step .twoSiblings) (.init .twoSiblings)
    (pinnedRun ++ [.thread 1 (.fetch (.settle 5))]) (fun n => n.sticky.get 5 = none)
    (by decide +kernel)
  obtain ⟨n, hn, hlast⟩ := exec_append.mp hn'
  obtain ⟨t, ht, hnil⟩ := exec_cons.mp hlast
  obtain rfl : t = n' := Option.some_inj.mp hnil
  obtain ⟨m, hm, hpinned⟩ := exec_of_any (Node.step .twoSiblings) (.init .twoSiblings) pinnedRun
    (fun n => n.raceEnd (.thread 1 (.fetch (.settle 5))) = some ⟨.sticky, lit "a", none, 5⟩ ∧
      n.sticky.get 5 = some (lit "b")) (by decide +kernel)
  obtain rfl : n = m := Option.some_inj.mp (hn.symm.trans hm)
  have hends := of_decide_eq_true hpinned
  exact ⟨n, t, hn, ht, hends.1, hends.2, of_decide_eq_true hdropped⟩

end XetDcCache
