/-
Peering as an accelerator (xorb.go, peer_fetch.go, peer_hedge.go).

A request is followed through an infinite run of its node.  `Node.left` is what is between it
and its response: where it is in `getXorb`, and behind whom it queues there.  Its own steps
decrease `Node.left` (`Stage.Moves.left`) and those of others do not increase it
(`Stage.behind_le`).

* `lock_free` — the LRU lock is free time and again;
* `Attended.leads_to` — a request that is attended to does not stay where it is;
* `peering_accelerates` — so races, `fetchFromPeer` and `getXorb` return, and a request that the
  plain path would serve is answered 206.
-/
import Mathlib.Data.Prod.Lex
import XetDcCache.Disconnects
import XetDcCache.Fairness

namespace XetDcCache

open Transition

variable {cfg : Config} {t u : Tid} {req : Request} {connected : Bool} {sh sh' : Shared}
  {st st' : Stage} {a : Act}

/-! ### The queue of the semaphore -/

/-- The releases a goroutine that waits has to wait for, and its turn. -/
def Sem.position (s : Sem) (t : Tid) : ℕ := if t ∈ s.granted then 0 else s.waitq.idxOf t + 1

theorem idxOf_erase_le {l : List Tid} (hne : t ≠ u) : (l.erase u).idxOf t ≤ l.idxOf t := by
  induction l with
  | nil => exact le_rfl
  | cons v rest ih =>
    by_cases hv : v = u
    · subst hv
      rw [List.erase_cons_head, List.idxOf_cons_ne rest hne.symm]
      exact Nat.le_succ _
    · rw [List.erase_cons_tail (by simpa using hv)]
      by_cases ht : v = t
      · subst ht
        rw [List.idxOf_cons_self]
        exact Nat.zero_le _
      · rw [List.idxOf_cons_ne _ ht, List.idxOf_cons_ne _ ht]
        exact Nat.succ_le_succ ih

/-- A release lets whoever waits move up. -/
theorem Sem.position_release {cap : ℕ} {s : Sem} (hq : t ∈ s.waitq) (hg : t ∉ s.granted) :
    (s.release (some cap)).position t < s.position t := by
  rw [Sem.release]
  cases hw : s.waitq with
  | nil =>
    rw [hw] at hq
    cases hq
  | cons v rest =>
    simp only [Sem.position, hw, if_neg hg]
    by_cases hv : v = t
    · rw [if_pos (by simp [hv])]
      exact Nat.succ_pos _
    · have hgranted : t ∉ s.granted ++ [v] := by simp [hg, Ne.symm hv]
      rw [if_neg hgranted, List.idxOf_cons_ne rest hv]
      exact Nat.lt_succ_self _

/-- A slot that is handed over is not taken back. -/
theorem Sem.Op.granted {slots : Option ℕ} {s s' : Sem} (h : Sem.Op slots u s s') (hne : t ≠ u)
    (hg : t ∈ s.granted) : t ∈ s'.granted := by
  cases h with
  | sent h => rwa [(Sem.trySend_queues h).2]
  | took => exact (List.mem_erase_of_ne hne).mpr hg
  | released =>
    cases slots with
    | none => exact hg
    | some cap =>
      rw [Sem.release]
      split
      · exact hg
      · exact List.mem_append_left _ hg
  | _ => exact hg

/-- Others do not push a goroutine back. -/
theorem Sem.Op.position_le {slots : Option ℕ} {s s' : Sem} (h : Sem.Op slots u s s')
    (hne : t ≠ u) (hq : t ∈ s.waitq ∨ t ∈ s.granted) : s'.position t ≤ s.position t := by
  by_cases hg : t ∈ s.granted
  · rw [Sem.position, if_pos (h.granted hne hg)]
    exact Nat.zero_le _
  · have hwait : t ∈ s.waitq := hq.resolve_right hg
    cases h with
    | idle => exact le_rfl
    | sent h =>
      obtain ⟨hw, hgr⟩ := Sem.trySend_queues h
      rw [Sem.position, Sem.position, hw, hgr]
    | queued =>
      have hlast : (s.waitq ++ [u]).idxOf t = s.waitq.idxOf t := by
        rw [List.idxOf_append, if_pos hwait]
      show (if t ∈ s.granted then 0 else (s.waitq ++ [u]).idxOf t + 1) ≤ s.position t
      rw [hlast, Sem.position]
    | left =>
      show (if t ∈ s.granted then 0 else (s.waitq.erase u).idxOf t + 1) ≤ s.position t
      rw [Sem.position, if_neg hg, if_neg hg]
      exact Nat.succ_le_succ (idxOf_erase_le hne)
    | took =>
      simp only [Sem.position, Sem.take, List.mem_erase_of_ne hne, le_rfl]
    | released =>
      cases slots with
      | none => exact le_rfl
      | some cap => exact (Sem.position_release hwait hg).le

/-! ### What is left of a request -/

/-- The stages a request has to go through, counted from the end. -/
def Stage.rank (cfg : Config) : Stage → ℕ
  | .check => 30 + cfg.peers.length
  | .join => 29 + cfg.peers.length
  | .fetch f => 9 + f.rank cfg
  | .write _ _ => 8
  | .record _ _ => 7
  | .evict _ _ | .remove _ _ _ => 6
  | .book _ _ => 5
  | .ret _ _ => 4
  | .finish _ | .wait _ => 3
  | .reply _ | .hit _ => 2
  | .serve _ | .headHit => 1
  | .done _ | .killed => 0

/-- In a stage: the queue before it, and the entries it may evict. -/
def Stage.behind (t : Tid) (sh : Shared) : Stage → ℕ
  | .fetch .blocked => sh.hub.sem.position t
  | .evict _ _ => 2 * sh.lru.entries.length
  | .remove _ _ _ => 2 * sh.lru.entries.length + 1
  | _ => 0

/-- What is left of a request, the stage first. -/
def Stage.left (cfg : Config) (t : Tid) (sh : Shared) (st : Stage) : ℕ ×ₗ ℕ :=
  toLex (st.rank cfg, st.behind t sh)

theorem Stage.left_lt_of_rank (h : st'.rank cfg < st.rank cfg) :
    st'.left cfg t sh' < st.left cfg t sh :=
  Prod.Lex.toLex_lt_toLex.mpr (Or.inl h)

theorem Stage.left_lt_of_behind (hr : st'.rank cfg = st.rank cfg)
    (h : st'.behind t sh' < st.behind t sh) : st'.left cfg t sh' < st.left cfg t sh :=
  Prod.Lex.toLex_lt_toLex.mpr (Or.inr ⟨hr, h⟩)

/-- A request comes closer to its end with every step of its own. -/
theorem Stage.Moves.left (h : st.Moves cfg t req connected sh a sh' st') :
    st'.left cfg t sh' < st.left cfg t sh := by
  cases h
  case fetchGo hf =>
    refine left_lt_of_rank ?_
    have := Fetch.step_rank hf
    simp only [Stage.rank]
    omega
  case evictPop hp _ =>
    refine left_lt_of_behind rfl ?_
    obtain ⟨size, hentries⟩ := LruCache.popFront_some hp
    have hlen := congrArg List.length hentries
    rw [List.length_cons] at hlen
    simp only [Stage.behind]
    omega
  case remove => exact left_lt_of_behind rfl (Nat.lt_succ_self _)
  all_goals
    refine left_lt_of_rank ?_
    simp only [Stage.rank, Fetch.rank]
    omega

/-- What the steps of others leave to the thread `t`. -/
structure Shared.Kept (cfg : Config) (t : Tid) (sh sh' : Shared) : Prop where
  sem : ∃ u, t ≠ u ∧ Sem.Op cfg.slots u sh.hub.sem sh'.hub.sem
  lru : sh.lruLock = some t → sh'.lru = sh.lru

theorem Shared.Kept.refl (cfg : Config) (t : Tid) (sh : Shared) : Shared.Kept cfg t sh sh :=
  ⟨⟨t + 1, (Nat.succ_ne_self t).symm, .idle _⟩, fun _ => rfl⟩

/-- They do not push it back. -/
theorem Stage.behind_le {th : Thread} (hL : BaseThread cfg sh t th)
    (hk : Shared.Kept cfg t sh sh') : th.stage.behind t sh' ≤ th.stage.behind t sh := by
  obtain ⟨⟨u, hne, hop⟩, hlru⟩ := hk
  have hlocks := hL.locks
  have hqueued := hL.queued
  cases hst : th.stage with
  | fetch f =>
    cases f with
    | blocked => exact hop.position_le hne (hqueued hst)
    | _ => exact le_rfl
  | evict src res =>
    rw [hst] at hlocks
    simp only [Stage.behind, hlru (hlocks.mpr rfl), le_rfl]
  | remove src res victim =>
    rw [hst] at hlocks
    simp only [Stage.behind, hlru (hlocks.mpr rfl), le_rfl]
  | _ => exact le_rfl

/-- Nobody touches the LRU but the holder of its lock. -/
theorem Stage.Moves.kept {th : Thread} (hL : BaseThread cfg sh u th) (hne : t ≠ u)
    (h : th.stage.Moves cfg u req connected sh a sh' st') : Shared.Kept cfg t sh sh' := by
  refine ⟨⟨u, hne, h.sem⟩, fun hlock => ?_⟩
  have hmine : th.stage.locks = false := by
    by_contra hlocks
    rw [Bool.not_eq_false] at hlocks
    rw [hL.locks.mpr hlocks] at hlock
    exact hne (Option.some_inj.mp hlock).symm
  generalize th.stage = st at h hmine
  cases h
  case touchHead hl => simp [hl] at hlock
  case touchHit hl => simp [hl] at hlock
  case record hl => simp [hl] at hlock
  case evictPop => cases hmine
  all_goals rfl

/-! ### A thread along a run -/

/-- The steps of the thread `t`. -/
def NodeAct.MovesOf (t : Tid) (b : NodeAct) : Prop := ∃ a, b = .thread t a

/-- A step as the thread `t` sees it: its own, one of others, or the end of the process. -/
inductive Node.Sees (cfg : Config) (t : Tid) (n : Node) (th : Thread) (b : NodeAct) (n' : Node) :
    Thread → Prop
  | own {a : Act} {st : Stage} (hb : b = .thread t a)
    (h : th.stage.Moves cfg t th.req th.connected n.shared a n'.shared st) :
    Sees cfg t n th b n' { th with stage := st }
  | other {th' : Thread} (hb : ¬ b.MovesOf t) (h : Shared.Kept cfg t n.shared n'.shared)
    (hreq : th'.req = th.req) (hst : th'.stage = th.stage) : Sees cfg t n th b n' th'
  | restart (hlock : n'.shared.lruLock = none) :
    Sees cfg t n th b n' { th with stage := th.stage.kill }

theorem Node.step_sees {n n' : Node} {b : NodeAct} {th : Thread} (hbase : n.Base cfg)
    (ht : n.threads[t]? = some th) (h : n.step cfg b = some n') :
    ∃ th', n'.threads[t]? = some th' ∧ Node.Sees cfg t n th b n' th' := by
  obtain ⟨hlt, -⟩ := List.getElem?_eq_some_iff.mp ht
  cases Node.step_moves h with
  | arrive req =>
    exact ⟨th, by rwa [List.getElem?_append_left hlt], .other nofun (.refl _ _ _) rfl rfl⟩
  | @disconnect u other hu =>
    by_cases heq : u = t
    · subst heq
      rw [ht, Option.some_inj] at hu
      subst hu
      exact ⟨_, List.getElem?_set_self hlt, .other nofun (.refl _ _ _) rfl rfl⟩
    · exact ⟨th, by rwa [List.getElem?_set_ne heq], .other nofun (.refl _ _ _) rfl rfl⟩
  | @thread u other a sh st hu hm =>
    by_cases heq : u = t
    · subst heq
      rw [ht, Option.some_inj] at hu
      subst hu
      exact ⟨_, List.getElem?_set_self hlt, .own rfl hm⟩
    · refine ⟨th, by rwa [List.getElem?_set_ne heq], .other ?_ ?_ rfl rfl⟩
      · rintro ⟨b, hb⟩
        cases hb
        exact heq rfl
      · exact hm.kept (hbase.thread hu) (Ne.symm heq)
  | background ha hsem =>
    refine ⟨th, ht, .other ?_ ⟨⟨t + 1, (Nat.succ_ne_self t).symm, hsem _⟩, fun _ => rfl⟩ rfl rfl⟩
    rintro ⟨b, hb⟩
    rcases ha with ⟨i, c, rfl⟩ | ⟨i, rfl⟩ <;> cases hb
  | restart b => exact ⟨_, by rw [List.getElem?_map, ht]; rfl, .restart rfl⟩

/-- What is left of the thread `t`. -/
def Node.left (cfg : Config) (t : Tid) (n : Node) : ℕ ×ₗ ℕ :=
  (n.threads[t]?.map fun th => th.stage.left cfg t n.shared).getD (toLex (0, 0))

theorem Node.left_eq {n : Node} {th : Thread} (ht : n.threads[t]? = some th) :
    n.left cfg t = th.stage.left cfg t n.shared := by
  rw [Node.left, ht, Option.map_some, Option.getD_some]

variable {π : Transition.Path (Node.step cfg)} {k : ℕ}

/-- A moment as the thread `t` sees it, with what it does to what is left. -/
theorem path_sees (hbase : ∀ k, (π.state k).Base cfg) {th : Thread}
    (ht : (π.state k).threads[t]? = some th) :
    ∃ th', (π.state (k + 1)).threads[t]? = some th' ∧
      ((∃ a, π.act k = some (.thread t a) ∧ th' = { th with stage := th'.stage } ∧
          th.stage.Moves cfg t th.req th.connected (π.state k).shared a
            (π.state (k + 1)).shared th'.stage ∧
          (π.state (k + 1)).left cfg t < (π.state k).left cfg t) ∨
        (¬ π.Takes (NodeAct.MovesOf t) k ∧ th'.req = th.req ∧ th'.stage = th.stage ∧
          (π.state (k + 1)).left cfg t ≤ (π.state k).left cfg t) ∨
        (th'.stage = th.stage.kill ∧ (π.state (k + 1)).shared.lruLock = none)) := by
  cases hact : π.act k with
  | none =>
    refine ⟨th, by rwa [π.idle hact], Or.inr (Or.inl ⟨?_, rfl, rfl, by rw [π.idle hact]⟩)⟩
    rintro ⟨b, -, hb⟩
    rw [hact] at hb
    cases hb
  | some b =>
    obtain ⟨th', ht', hsees⟩ := Node.step_sees (hbase k) ht (π.next hact)
    refine ⟨th', ht', ?_⟩
    rw [Node.left_eq ht, Node.left_eq ht']
    cases hsees with
    | own hb hm => exact Or.inl ⟨_, by rw [hb], rfl, hm, hm.left⟩
    | other hb hk hreq hst =>
      refine Or.inr (Or.inl ⟨?_, hreq, hst, ?_⟩)
      · rintro ⟨c, hc, hb'⟩
        rw [hact, Option.some_inj] at hb'
        exact hb (hb' ▸ hc)
      · rw [hst, Stage.left, Stage.left, Prod.Lex.toLex_le_toLex]
        exact Or.inr ⟨rfl, Stage.behind_le ((hbase k).thread ht) hk⟩
    | restart hlock => exact Or.inr (Or.inr ⟨rfl, hlock⟩)

/-! ### The LRU lock -/

theorem Stage.Moves.locks (h : st.Moves cfg t req connected sh a sh' st') (hl : st.locks) :
    st'.locks ∨ sh'.lruLock = none := by
  cases h <;> first | exact Or.inl rfl | exact Or.inr rfl | cases hl

/-- The holder of the LRU lock evicts finitely many entries, and unlocks. -/
theorem lock_free (hbase : ∀ k, (π.state k).Base cfg) (hfair : ∀ u, π.Fair (NodeAct.MovesOf u))
    (k : ℕ) : ∃ j ≥ k, (π.state j).shared.lruLock = none := by
  cases hlock : (π.state k).shared.lruLock with
  | none => exact ⟨k, le_rfl, hlock⟩
  | some u =>
    have hlt := (hbase k).shared.lock hlock
    have hu := List.getElem?_eq_getElem hlt
    refine Transition.Path.leads_to
      (P := fun j => ∃ th, (π.state j).threads[u]? = some th ∧ th.stage.locks)
      (fun j => (π.state j).left cfg u) (hfair u) ?_ ?_ k
      ⟨_, hu, ((hbase k).thread hu).locks.mp hlock⟩
    · rintro j ⟨th, ht, hlocks⟩
      obtain ⟨th', ht', ⟨a, -, -, hm, hlt⟩ | ⟨hno, -, hst, hle⟩ | ⟨-, hfree⟩⟩ := path_sees hbase ht
      · exact (hm.locks hlocks).symm.imp_right fun hl => ⟨⟨th', ht', hl⟩, hlt.le, fun _ => hlt⟩
      · exact Or.inr ⟨⟨th', ht', hst ▸ hlocks⟩, hle, fun htakes => absurd htakes hno⟩
      · exact Or.inl hfree
    · rintro j ⟨th, ht, hlocks⟩
      have hready : ∃ a sh st, th.stage.step cfg u th.req th.connected (π.state j).shared a =
          some (sh, st) := by
        cases hst : th.stage <;> rw [hst] at hlocks <;> cases hlocks
        all_goals exact Stage.progress rfl nofun nofun nofun
      obtain ⟨a, sh, st, hstep⟩ := hready
      exact ⟨j, le_rfl, Or.inr (Or.inr ⟨.thread u a, ⟨a, rfl⟩, by simp [Node.step, ht, hstep]⟩)⟩

/-! ### A request that is attended to -/

theorem Fetch.step_capped {cancelled : Bool} {byteRange : Bytes} {hub hub' : Hub} {f : Fetch}
    {b : FetchAct} (h : f.step cfg t cancelled byteRange hub b = some (hub', .go .blocked)) :
    cfg.slots ≠ none := by
  revert h
  fun_cases Fetch.step cfg t cancelled byteRange hub f b
  all_goals
    intro h
    cases h
  next hsend =>
    intro hnone
    rw [hnone] at hsend
    cases hsend

/-- A request blocks only on a semaphore. -/
theorem capped_stable (cfg : Config) :
    Node.Stable cfg (fun _ _ => True) (fun _ _ => True)
      (fun _ _ th => th.stage = .fetch .blocked → cfg.slots ≠ none) where
  arrive _ _ := ⟨trivial, nofun⟩
  disconnect hn _ ht hb := by
    have hL := hn.thread ht
    exact hL hb
  move := by
    intro n t th a sh stage hn _ ht h
    refine ⟨trivial, fun hb => ?_⟩
    obtain ⟨req, st, connected⟩ := th
    cases h <;> cases hb
    next hf => exact Fetch.step_capped hf
  frame hn _ _ _ _ hu := hn.thread hu
  background hn _ _ _ := ⟨trivial, fun ht => hn.thread ht⟩
  restart := by
    intro n b hn _
    refine ⟨trivial, fun {t th} ht hb => ?_⟩
    cases hst : th.stage <;> simp [hst, Stage.kill] at hb

/-- The request waits for the flight of another. -/
def Stage.follows : Stage → Bool
  | .wait _ => true
  | _ => false

/-- The client stays connected to a process that stays up; the request waits for no flight but its
own; the scheduler and the locks starve no thread, and every exchange returns; and while the
request is in the queue of the semaphore, the holders of slots release them. -/
structure Attended (π : Transition.Path (Node.step cfg)) (t : Tid) : Prop where
  connected : ∀ k, ∀ th ∈ (π.state k).threads[t]?, th.connected ∧ th.stage ≠ .killed
  alone : ∀ k, ∀ th ∈ (π.state k).threads[t]?, th.stage.follows = false
  fair : ∀ u, π.Fair (NodeAct.MovesOf u)
  released : ∀ k, t ∈ (π.state k).shared.hub.sem.waitq → ∃ j ≥ k,
    (π.state (j + 1)).shared.hub.sem = (π.state j).shared.hub.sem.release cfg.slots

namespace Attended

theorem not_wait (h : Attended π t) {th : Thread} (ht : (π.state k).threads[t]? = some th)
    {l : Tid} : th.stage ≠ .wait l := by
  intro hl
  have hno := h.alone k th ht
  rw [hl] at hno
  cases hno

/-- It has a step unless it waits for the LRU lock or for a slot. -/
theorem ready (h : Attended π t) {th : Thread} (ht : (π.state k).threads[t]? = some th)
    (hend : th.stage.ended = false)
    (hlock : th.stage.locking → (π.state k).shared.lruLock = none)
    (hslot : th.stage = .fetch .blocked → t ∈ (π.state k).shared.hub.sem.granted) :
    π.Ready (NodeAct.MovesOf t) k := by
  obtain ⟨a, sh, st, hstep⟩ : ∃ a sh st, th.stage.step cfg t th.req th.connected
      (π.state k).shared a = some (sh, st) :=
    Stage.progress hend hlock (fun l hl => absurd hl (h.not_wait ht)) hslot
  exact ⟨.thread t a, ⟨a, rfl⟩, by simp [Node.step, ht, hstep]⟩

/-- A release lets it move up the queue. -/
theorem moves_up (h : Attended π t) (hbase : ∀ k, (π.state k).Base cfg) {cap : ℕ}
    (hcap : cfg.slots = some cap) {th : Thread} (ht : (π.state k).threads[t]? = some th)
    (hblocked : th.stage = .fetch .blocked) (hq : t ∈ (π.state k).shared.hub.sem.waitq)
    (hg : t ∉ (π.state k).shared.hub.sem.granted)
    (hrel : (π.state (k + 1)).shared.hub.sem = (π.state k).shared.hub.sem.release cfg.slots) :
    (π.state (k + 1)).left cfg t < (π.state k).left cfg t := by
  obtain ⟨th', ht', ⟨a, -, -, -, hlt⟩ | ⟨-, -, hst, -⟩ | ⟨hst, -⟩⟩ := path_sees hbase ht
  · exact hlt
  · rw [Node.left_eq ht, Node.left_eq ht', hst]
    refine Stage.left_lt_of_behind rfl ?_
    rw [hblocked]
    show (π.state (k + 1)).shared.hub.sem.position t < (π.state k).shared.hub.sem.position t
    rw [hrel, hcap]
    exact Sem.position_release hq hg
  · rw [hblocked] at hst
    exact absurd hst (h.connected (k + 1) th' ht').2

section

-- `P` is what the request starts from and `Q` what it is to come to
variable {P Q : Thread → Prop} (hend : ∀ {th}, P th → th.stage.ended = false)
  (hmove : ∀ {k th a sh sh' st}, (π.state k).threads[t]? = some th →
    π.act k = some (.thread t a) → P th →
    th.stage.Moves cfg t th.req th.connected sh a sh' st →
    Q { th with stage := st } ∨ P { th with stage := st })
include hend hmove

/-- In one moment it comes to `Q`, or it comes closer, or it stays where it is. -/
theorem step (h : Attended π t) (hbase : ∀ k, (π.state k).Base cfg) {th : Thread}
    (ht : (π.state k).threads[t]? = some th) (hP : P th) :
    ∃ th', (π.state (k + 1)).threads[t]? = some th' ∧
      (Q th' ∨ P th' ∧ ((π.state (k + 1)).left cfg t < (π.state k).left cfg t ∨
        th' = th ∧ (π.state (k + 1)).left cfg t ≤ (π.state k).left cfg t ∧
          ¬ π.Takes (NodeAct.MovesOf t) k)) := by
  obtain ⟨th', ht', hsees⟩ := path_sees hbase ht
  refine ⟨th', ht', ?_⟩
  obtain ⟨hconn, -⟩ := h.connected k th ht
  obtain ⟨hconn', hup⟩ := h.connected (k + 1) th' ht'
  rcases hsees with ⟨a, hact, heq, hm, hlt⟩ | ⟨hno, hreq, hst, hle⟩ | ⟨hst, -⟩
  · rw [heq]
    exact (hmove ht hact hP hm).imp_right fun hP' => ⟨hP', Or.inl hlt⟩
  · have heq : th' = th := by
      obtain ⟨req, st, c⟩ := th
      obtain ⟨req', st', c'⟩ := th'
      simp_all
    exact Or.inr ⟨heq ▸ hP, Or.inr ⟨heq, hle, hno⟩⟩
  · have hlive := hend hP
    rw [hst] at hup
    cases hst' : th.stage <;> simp [hst', Stage.kill, Stage.ended] at hup hlive

/-- So it does until it comes to `Q`. -/
theorem stays (h : Attended π t) (hbase : ∀ k, (π.state k).Base cfg) {th : Thread}
    (ht : (π.state k).threads[t]? = some th) (hP : P th) {j : ℕ} (hj : k ≤ j) :
    (∃ i ≥ k, ∃ th', (π.state i).threads[t]? = some th' ∧ Q th') ∨
      ∃ th', (π.state j).threads[t]? = some th' ∧ P th' ∧
        ((π.state j).left cfg t < (π.state k).left cfg t ∨
          th' = th ∧ (π.state j).left cfg t ≤ (π.state k).left cfg t) := by
  induction j, hj using Nat.le_induction with
  | base => exact Or.inr ⟨th, ht, hP, Or.inr ⟨rfl, le_rfl⟩⟩
  | succ j hj ih =>
    rcases ih with hQ | ⟨th₁, ht₁, hP₁, hleft⟩
    · exact Or.inl hQ
    · obtain ⟨th₂, ht₂, hQ | ⟨hP₂, hlt | ⟨rfl, hle, -⟩⟩⟩ := h.step hend hmove hbase ht₁ hP₁
      · exact Or.inl ⟨j + 1, Nat.le_succ_of_le hj, th₂, ht₂, hQ⟩
      · refine Or.inr ⟨th₂, ht₂, hP₂, Or.inl ?_⟩
        exact hleft.elim (fun hlt' => hlt.trans hlt') fun heq => hlt.trans_le heq.2
      · refine Or.inr ⟨th₂, ht₂, hP₂, ?_⟩
        exact hleft.imp (fun hlt' => hle.trans_lt hlt') fun heq => ⟨heq.1, hle.trans heq.2⟩

/-- It does not wait for ever: some time it has a step, or comes closer. -/
theorem gets_ready (h : Attended π t) (hbase : ∀ k, (π.state k).Base cfg)
    (hcapped : ∀ k, ∀ th ∈ (π.state k).threads[t]?, th.stage = .fetch .blocked → cfg.slots ≠ none)
    {th : Thread} (ht : (π.state k).threads[t]? = some th) (hP : P th) :
    ∃ j ≥ k, (∃ th', (π.state j).threads[t]? = some th' ∧ Q th') ∨
      (π.state j).left cfg t < (π.state k).left cfg t ∨ π.Ready (NodeAct.MovesOf t) j := by
  by_cases hblocked : th.stage = .fetch .blocked
  · -- in the queue: the next release comes
    have hslots := hcapped k th ht hblocked
    obtain ⟨cap, hcap⟩ := Option.ne_none_iff_exists'.mp hslots
    rcases ((hbase k).thread ht).queued hblocked with hq | hg
    · obtain ⟨j, hj, hrel⟩ := h.released k hq
      rcases h.stays hend hmove hbase ht hP hj with ⟨i, hi, hQ⟩ | ⟨th', ht', hP', hlt | ⟨rfl, hle⟩⟩
      · exact ⟨i, hi, Or.inl hQ⟩
      · exact ⟨j, hj, Or.inr (Or.inl hlt)⟩
      · by_cases hg : t ∈ (π.state j).shared.hub.sem.granted
        · refine ⟨j, hj, Or.inr (Or.inr (h.ready ht' (hend hP') ?_ fun _ => hg))⟩
          rw [hblocked]
          exact nofun
        · have hq' := (((hbase j).thread ht').queued hblocked).resolve_right hg
          have hup := h.moves_up hbase hcap ht' hblocked hq' hg hrel
          exact ⟨j + 1, Nat.le_succ_of_le hj, Or.inr (Or.inl (hup.trans_le hle))⟩
    · refine ⟨k, le_rfl, Or.inr (Or.inr (h.ready ht (hend hP) ?_ fun _ => hg))⟩
      rw [hblocked]
      exact nofun
  · -- elsewhere: the LRU lock becomes free
    obtain ⟨j, hj, hfree⟩ := lock_free hbase h.fair k
    rcases h.stays hend hmove hbase ht hP hj with ⟨i, hi, hQ⟩ | ⟨th', ht', hP', hlt | ⟨rfl, -⟩⟩
    · exact ⟨i, hi, Or.inl hQ⟩
    · exact ⟨j, hj, Or.inr (Or.inl hlt)⟩
    · exact ⟨j, hj, Or.inr (Or.inr (h.ready ht' (hend hP') (fun _ => hfree)
        fun hb => absurd hb hblocked))⟩

/-- What its own steps lead to, it comes to. -/
theorem leads_to (h : Attended π t) (hbase : ∀ k, (π.state k).Base cfg)
    (hcapped : ∀ k, ∀ th ∈ (π.state k).threads[t]?, th.stage = .fetch .blocked → cfg.slots ≠ none) :
    LeadsTo (fun k => ∃ th, (π.state k).threads[t]? = some th ∧ P th)
      (fun k => ∃ th, (π.state k).threads[t]? = some th ∧ Q th) := by
  refine Transition.Path.leads_to (fun k => (π.state k).left cfg t) (h.fair t) ?_ ?_
  · rintro k ⟨th, ht, hP⟩
    obtain ⟨th', ht', hQ | ⟨hP', hlt | ⟨-, hle, hno⟩⟩⟩ := h.step hend hmove hbase ht hP
    · exact Or.inl ⟨th', ht', hQ⟩
    · exact Or.inr ⟨⟨th', ht', hP'⟩, hlt.le, fun _ => hlt⟩
    · exact Or.inr ⟨⟨th', ht', hP'⟩, hle, fun htakes => absurd htakes hno⟩
  · rintro k ⟨th, ht, hP⟩
    exact h.gets_ready hend hmove hbase hcapped ht hP

end

end Attended

/-! ### The ways back -/

/-- The request is in `fetchFromPeer`. -/
def Fetch.peering : Fetch → Bool
  | .acquire | .blocked | .pulling => false
  | _ => true

theorem Fetch.step_racing {cancelled : Bool} {byteRange : Bytes} {hub hub' : Hub} {leg : Leg}
    {base : Url} {r : Race} {b : FetchAct} {next : FetchNext}
    (h : (Fetch.racing leg base r).step cfg t cancelled byteRange hub b = some (hub', next)) :
    (∃ out, next = .go (.settle leg base out)) ∨ ∃ r', next = .go (.racing leg base r') := by
  cases b with
  | race b =>
    rw [Fetch.step] at h
    split at h
    · cases h
    · next r' _ =>
      cases h
      exact Or.inr ⟨r', rfl⟩
    · next out _ _ =>
      cases h
      exact Or.inl ⟨out, rfl⟩
  | _ => cases h

theorem Fetch.step_peering {cancelled : Bool} {byteRange : Bytes} {hub hub' : Hub} {f : Fetch}
    {b : FetchAct} {next : FetchNext} (hf : f.peering)
    (h : f.step cfg t cancelled byteRange hub b = some (hub', next)) :
    next = .go .acquire ∨ (∃ src res, next = .filled (.race src) res) ∨
      ∃ f', next = .go f' ∧ f'.peering := by
  revert h
  fun_cases Fetch.step cfg t cancelled byteRange hub f b
  all_goals
    intro h
    cases h
  all_goals
    first
    | exact Or.inl rfl
    | exact Or.inr (Or.inl ⟨_, _, rfl⟩)
    | exact Or.inr (Or.inr ⟨_, rfl, rfl⟩)
    | cases hf

/-- A race goes on, or it is over. -/
theorem Stage.Moves.of_race {leg : Leg} {base : Url} {r : Race}
    (h : (Stage.fetch (.racing leg base r)).Moves cfg t req connected sh a sh' st') :
    (∃ out, st' = .fetch (.settle leg base out)) ∨ ∃ r', st' = .fetch (.racing leg base r') := by
  cases h with
  | fetchGo hf =>
    rcases Fetch.step_racing hf with ⟨out, hout⟩ | ⟨r', hr'⟩
    · cases hout
      exact Or.inl ⟨out, rfl⟩
    · cases hr'
      exact Or.inr ⟨r', rfl⟩
  | fetchFilled hf => rcases Fetch.step_racing hf with ⟨_, ho⟩ | ⟨_, ho⟩ <;> cases ho
  | fetchFailed hf => rcases Fetch.step_racing hf with ⟨_, ho⟩ | ⟨_, ho⟩ <;> cases ho

/-- `fetchFromPeer` goes on, or it returns a body, or the plain path is next. -/
theorem Stage.Moves.of_peering {f : Fetch} (hf : f.peering)
    (h : (Stage.fetch f).Moves cfg t req connected sh a sh' st') :
    (st' = .fetch .acquire ∨ ∃ src res, st' = .write (.race src) res) ∨
      ∃ f', st' = .fetch f' ∧ f'.peering := by
  cases h with
  | fetchGo hstep =>
    rcases Fetch.step_peering hf hstep with ho | ⟨src, res, ho⟩ | ⟨f', ho, hf'⟩
    · cases ho
      exact Or.inl (Or.inl rfl)
    · cases ho
    · cases ho
      exact Or.inr ⟨_, rfl, hf'⟩
  | fetchFilled hstep =>
    rcases Fetch.step_peering hf hstep with ho | ⟨src, res, ho⟩ | ⟨f', ho, -⟩
    · cases ho
    · cases ho
      exact Or.inl (Or.inr ⟨src, _, rfl⟩)
    · cases ho
  | fetchFailed hstep =>
    rcases Fetch.step_peering hf hstep with ho | ⟨src, res, ho⟩ | ⟨f', ho, -⟩ <;> cases ho

/-- A request that does not fail goes on, or it is answered 206. -/
theorem Stage.fine_cases (hmove : st.Moves cfg t req connected sh a sh' st') (h : st'.fine) :
    (∃ resp, st' = .done resp ∧ resp.status = 206) ∨ st'.fine ∧ st'.ended = false := by
  cases hst : st' with
  | done resp =>
    rw [hst] at h
    exact Or.inl ⟨resp, rfl, h⟩
  | killed =>
    rw [hst] at hmove
    cases hmove
  | _ => exact Or.inr ⟨hst ▸ h, rfl⟩

/-- The thread `t` is in this stage. -/
def Node.At (n : Node) (t : Tid) (st : Stage) : Prop :=
  ∃ th, n.threads[t]? = some th ∧ th.stage = st

namespace Attended

/-- `raceOnePeer` returns. -/
theorem race_returns (h : Attended π t) (hbase : ∀ k, (π.state k).Base cfg)
    (hcapped : ∀ k, ∀ th ∈ (π.state k).threads[t]?, th.stage = .fetch .blocked → cfg.slots ≠ none)
    {leg : Leg} {base : Url} {r : Race} (hat : (π.state k).At t (.fetch (.racing leg base r))) :
    ∃ j ≥ k, ∃ out, (π.state j).At t (.fetch (.settle leg base out)) := by
  have hlead := h.leads_to (P := fun th => ∃ r, th.stage = .fetch (.racing leg base r))
    (Q := fun th => ∃ out, th.stage = .fetch (.settle leg base out))
    (by
      rintro th ⟨r, hr⟩
      rw [hr]
      rfl)
    (by
      rintro k th a sh sh' st - - ⟨r, hr⟩ hm
      rw [hr] at hm
      exact hm.of_race)
    hbase hcapped
  obtain ⟨th, hth, hst⟩ := hat
  obtain ⟨j, hj, th', hth', out, hout⟩ := hlead k ⟨th, hth, r, hst⟩
  exact ⟨j, hj, out, th', hth', hout⟩

/-- `fetchFromPeer` returns. -/
theorem fetchFromPeer_returns (h : Attended π t) (hbase : ∀ k, (π.state k).Base cfg)
    (hcapped : ∀ k, ∀ th ∈ (π.state k).threads[t]?, th.stage = .fetch .blocked → cfg.slots ≠ none)
    {f : Fetch} (hf : f.peering) (hat : (π.state k).At t (.fetch f)) :
    ∃ j ≥ k, (π.state j).At t (.fetch .acquire) ∨
      ∃ src res, (π.state j).At t (.write (.race src) res) := by
  have hlead := h.leads_to (P := fun th => ∃ f, th.stage = .fetch f ∧ f.peering)
    (Q := fun th => th.stage = .fetch .acquire ∨ ∃ src res, th.stage = .write (.race src) res)
    (by
      rintro th ⟨f, hf, -⟩
      rw [hf]
      rfl)
    (by
      rintro k th a sh sh' st - - ⟨f, hf, hpeer⟩ hm
      rw [hf] at hm
      exact hm.of_peering hpeer)
    hbase hcapped
  obtain ⟨th, hth, hst⟩ := hat
  obtain ⟨j, hj, th', hth', hst' | ⟨src, res, hst'⟩⟩ := hlead k ⟨th, hth, f, hst, hf⟩
  · exact ⟨j, hj, Or.inl ⟨th', hth', hst'⟩⟩
  · exact ⟨j, hj, Or.inr ⟨src, res, th', hth', hst'⟩⟩

/-- A request that arrives is answered 206, if its pull on the plain path and its write succeed. -/
theorem answered (h : Attended π t) (hbase : ∀ k, (π.state k).Base cfg)
    (hcapped : ∀ k, ∀ th ∈ (π.state k).threads[t]?, th.stage = .fetch .blocked → cfg.slots ≠ none)
    (hreq : req.fetches)
    (hserve : ∀ k a, π.act k = some (.thread t a) → a.Served req.byteRange)
    (hstart : (π.state k).threads[t]? = some ⟨req, .check, true⟩) :
    ∃ j ≥ k, ∃ resp, (π.state j).At t (.done resp) ∧ resp.status = 206 := by
  have hlead := h.leads_to
    (P := fun th => th.req = req ∧ th.stage.fine ∧ th.stage.ended = false)
    (Q := fun th => ∃ resp, th.stage = .done resp ∧ resp.status = 206)
    (fun hP => hP.2.2)
    (by
      rintro k th a sh sh' st hth hact ⟨rfl, hfine, -⟩ hm
      have hwait : ∀ {l out}, th.stage = .wait l → sh.results.lookup l = some out → out.isOk :=
        fun hl _ => absurd hl (h.not_wait hth)
      have hfine' := hm.fine hreq (h.connected k th hth).1 (hserve k a hact) hwait hfine
      exact (Stage.fine_cases hm hfine').imp_right fun hP => ⟨rfl, hP⟩)
    hbase hcapped
  obtain ⟨j, hj, th, hth, resp, hst, hstatus⟩ := hlead k ⟨_, hstart, rfl, rfl, rfl⟩
  exact ⟨j, hj, resp, ⟨th, hth, hst⟩, hstatus⟩

end Attended

/-- A node that has no request yet, with whatever the ones before left. -/
theorem base_idle (cfg : Config) (hub : Hub) (disk : AList fun _ : Bytes => Bytes)
    (lru : LruCache Bytes) :
    Node.Base cfg ⟨{ Shared.fresh cfg disk with hub := hub, lru := lru }, []⟩ where
  shared := ⟨by simp [Shared.fresh], by simp [Shared.fresh], by simp [Shared.fresh]⟩
  thread := by simp

/-- **Peering is a strict accelerator.**  Whatever the `PEERS` list, the sticky peer, the semaphore
and the peers themselves do, `raceOnePeer` and `fetchFromPeer` return to a request that is attended
to; and if the plain path would serve it and the cache can be written, it is answered 206. -/
theorem peering_accelerates (π : Transition.Path (Node.step cfg)) {hub : Hub}
    {disk : AList fun _ : Bytes => Bytes} {lru : LruCache Bytes}
    (hinit : π.state 0 = ⟨{ Shared.fresh cfg disk with hub := hub, lru := lru }, []⟩) {k : ℕ}
    {req : Request} (harr : π.act k = some (.arrive req)) (hreq : req.fetches) {t : Tid}
    (ht : t = (π.state k).threads.length) (h : Attended π t) :
    (∀ j leg base r, (π.state j).At t (.fetch (.racing leg base r)) →
      ∃ i ≥ j, ∃ out, (π.state i).At t (.fetch (.settle leg base out))) ∧
    (∀ j f, f.peering → (π.state j).At t (.fetch f) →
      ∃ i ≥ j, (π.state i).At t (.fetch .acquire) ∨
        ∃ src res, (π.state i).At t (.write (.race src) res)) ∧
    ((∀ j a, π.act j = some (.thread t a) → a.Served req.byteRange) →
      ∃ j > k, ∃ resp, (π.state j).At t (.done resp) ∧ resp.status = 206) := by
  have hbase : ∀ j, (π.state j).Base cfg :=
    π.always (fun hn => hn.step) (hinit ▸ base_idle cfg hub disk lru)
  have hcapped : ∀ j, ∀ th ∈ (π.state j).threads[t]?, th.stage = .fetch .blocked →
      cfg.slots ≠ none := by
    have hall := π.always (fun hn => Node.each_step (capped_stable cfg) hn trivial)
      (hinit ▸ ⟨trivial, by simp⟩)
    exact fun j th hth => (hall j).thread hth
  have hstart : (π.state (k + 1)).threads[t]? = some ⟨req, .check, true⟩ := by
    have hstep := π.next harr
    rw [Node.step, Option.some_inj] at hstep
    rw [← hstep, ht]
    exact List.getElem?_concat_length
  exact ⟨fun j leg base r hat => h.race_returns hbase hcapped hat,
    fun j f hf hat => h.fetchFromPeer_returns hbase hcapped hf hat,
    fun hserve => h.answered hbase hcapped hreq hserve hstart⟩

/-- Where no request is in progress, no thread has a step. -/
theorem Node.Quiet.idle {n : Node} (hq : n.Quiet) {b : NodeAct} (hb : b.MovesOf u) :
    n.step cfg b = none := by
  obtain ⟨a, rfl⟩ := hb
  by_contra hstep
  obtain ⟨n', hn'⟩ := Option.ne_none_iff_exists'.mp hstep
  cases Node.step_moves hn' with
  | thread ht hm =>
    have hended := hq _ (List.mem_of_getElem? ht)
    rw [hm.not_ended] at hended
    cases hended
  | background ha => rcases ha with ⟨i, c, ha⟩ | ⟨i, ha⟩ <;> cases ha

/-- A node with one slot, which an earlier hedge holds, and a sticky peer. -/
def Config.held : Config := ⟨[lit "a"], some 1, 60000, 0, 0, true, id⟩

def Node.held : Node :=
  ⟨{ Shared.fresh .held ∅ with
    hub := ⟨⟨1, [], []⟩, .set (lit "a") 0 60000, .zero, [(lit "bytes=0-0", .fetching)]⟩ }, []⟩

/-- The sticky peer fails, answers the probe and then stalls; the hedge finds no slot, and the
plain path waits until the earlier hedge is done. -/
def heldRun : List NodeAct :=
  missing 0 [120] ++
  ([.begin 0, .race (.peer .failed), .race .recvPeer, .settle 0,
    .head (lit "a") (.reply ⟨200, [], .full []⟩), .found, .race .timer, .race (.cdn .tryAcquire),
    .race .recvCdn, .race (.peer .failed), .race .recvPeer, .settle 0, .acquire] :
    List FetchAct).map (fun b => .thread 0 (.fetch b)) ++
  [.orphan 0 (.pull .cutShort), .thread 0 (.fetch .grant),
    .thread 0 (.fetch (.pull (.serving [7])))] ++ caching 0 ++ ending 0

/-- A step that is of a thread is served. -/
def NodeAct.served (byteRange : Bytes) : NodeAct → Bool
  | .thread _ a => a.Served byteRange
  | _ => true

/-- Every pull of the plain path and every write of it succeeds. -/
theorem heldRun_served {a : Act} (h : .thread 0 a ∈ heldRun) : a.Served (lit "bytes=0-0") := by
  have hall : heldRun.all (NodeAct.served (lit "bytes=0-0")) := by decide +kernel
  exact of_decide_eq_true (List.all_eq_true.mp hall _ h)

theorem peering_accelerates_held :
    ∃ n, ∃ hrun : exec (Node.step .held) .held heldRun = some n,
      (∀ j leg base r, ((Transition.Path.ofRun hrun).state j).At 0 (.fetch (.racing leg base r)) →
        ∃ i ≥ j, ∃ out,
          ((Transition.Path.ofRun hrun).state i).At 0 (.fetch (.settle leg base out))) ∧
      ∃ j > 0, ∃ resp,
        ((Transition.Path.ofRun hrun).state j).At 0 (.done resp) ∧ resp.status = 206 := by
  obtain ⟨n, hrun, hquiet⟩ := exec_of_any (Node.step .held) .held heldRun (fun n => n.Quiet)
    (by decide +kernel)
  have hattended : Attended (Transition.Path.ofRun hrun) 0 := by
    refine ⟨fun k => ?_, fun k => ?_, fun u => ?_, fun k hk => ?_⟩
    · exact Transition.Path.forall_ofRun hrun (P := fun n => ∀ th ∈ n.threads[0]?, th.connected ∧
        th.stage ≠ .killed) (Nat.zero_le _) (by decide +kernel) (Nat.zero_le k)
    · exact Transition.Path.forall_ofRun hrun
        (P := fun n => ∀ th ∈ n.threads[0]?, th.stage.follows = false) (Nat.zero_le _) (by decide +kernel) (Nat.zero_le k)
    · exact Transition.Path.fair_ofRun hrun fun b hb => (of_decide_eq_true hquiet).idle hb
    · -- it queues up once, and then the earlier hedge releases its slot
      have hle : k ≤ 16 := by
        by_contra hlate
        exact Transition.Path.forall_ofRun hrun (n := 17) (P := fun n => 0 ∉ n.shared.hub.sem.waitq)
          (by decide +kernel) (by decide +kernel) (not_le.mp hlate) hk
      have hreleased : (Transition.Path.after (Node.step .held) .held heldRun 17).shared.hub.sem =
          (Transition.Path.after (Node.step .held) .held heldRun 16).shared.hub.sem.release
            (some 1) := by
        decide +kernel
      exact ⟨16, hle, hreleased⟩
  have harr : (Transition.Path.ofRun hrun).act 0 = some (.arrive (.ranged [120])) := rfl
  obtain ⟨hrace, -, hanswer⟩ :=
    peering_accelerates (Transition.Path.ofRun hrun) rfl harr (by decide) rfl hattended
  refine ⟨n, hrun, hrace, hanswer fun j a ha => heldRun_served ?_⟩
  exact List.mem_of_getElem? ha

end XetDcCache
