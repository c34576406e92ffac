/-
The random-placement baseline (placement_locality_sim.py).

`random_placement_baseline` keeps for each pool and model a dictionary of the nodes that are
warm, and drops the stale ones on the way (`Remembers`).  In a sorted log what is dropped stays
stale, so every start counts the nodes that are warm at its instant:

* `ratioStep_spec` — one turn of the loop;
* `baseline_point_in_time` — the expectations are the counts they stand for.
-/
import XetDcCache.PlacementWindow
import Mathlib.Data.Rat.Cast.Order
import Mathlib.Data.Finset.Card
import Mathlib.Data.Finset.Filter
import Mathlib.Algebra.Order.Field.Basic

namespace XetDcCache

namespace Study

section Baseline

variable {τ : Type*}

/-- GPU type and datacenter. -/
abbrev Pool := String × String

def WorkerStart.pool (row : WorkerStart τ) : Pool := (row.gpuType, row.datacenter)

/-- The column `node` of the starts in a pool. -/
def nodeColumn (events : List (WorkerStart τ)) (scope : Scope) (pool : Pool) : List String :=
  (events.filter (·.pool = pool)).map (scopeKey · scope)

/-- `groupby("pool")["node"].nunique()`: a pool that is not in the log is no key. -/
def candidate (events : List (WorkerStart τ)) (scope : Scope) (pool : Pool) : Option ℕ :=
  if nodeColumn events scope pool = [] then none
  else some (nodeColumn events scope pool).dedup.length

/-- `(pool, repo, rev) -> {node: last_ts}`; a key that is not there yet gets an empty one. -/
abbrev Warm (τ : Type*) := Pool × String × String → OrderedDict String τ

variable [AddCommGroup τ] [LinearOrder τ]

/-- The nodes that are not stale. -/
def freshNodes (ttl : Option τ) (now : τ) (seen : OrderedDict String τ) : OrderedDict String τ :=
  match ttl with
  | none => seen
  | some t => seen.filter fun e => now - e.2 ≤ t

/-- The body of the loop, up to `len(seen) / candidate[pool]`; `none` for a key that is not there
and for a division by zero. -/
def ratioStep (events : List (WorkerStart τ)) (scope : Scope) (ttl : Option τ) (warm : Warm τ)
    (row : WorkerStart τ) : Option (ℚ × Warm τ) :=
  let key := (row.pool, row.model)
  let seen := freshNodes ttl row.ts (warm key)
  match candidate events scope row.pool with
  | none => none
  | some 0 => none
  | some n => some (seen.items.length / n,
      Function.update warm key (seen.set (scopeKey row scope) row.ts))

/-- The body of the loop of `random_placement_baseline`. -/
def baselineStep (events : List (WorkerStart τ)) (scope : Scope) (ttl : Option τ) (warm : Warm τ)
    (row : WorkerStart τ) : Option (ℚ × Warm τ) :=
  (ratioStep events scope ttl warm row).map fun r => (min 1 r.1, r.2)

/-- The list of which `random_placement_baseline` returns the mean. -/
def expectations (events : List (WorkerStart τ)) (scope : Scope) (ttl : Option τ) :
    Option (List ℚ) :=
  replay (baselineStep events scope ttl) (fun _ => .empty) events

/-! ### The definition -/

/-- The nodes of a pool. -/
def poolNodes (events : List (WorkerStart τ)) (scope : Scope) (pool : Pool) : Finset String :=
  (nodeColumn events scope pool).toFinset

/-- A start of a model on a node of a pool. -/
def onNode (scope : Scope) (pool : Pool) (model : String × String) (node : String)
    (e : WorkerStart τ) : Bool :=
  e.pool = pool ∧ scopeKey e scope = node ∧ e.model = model

/-- The nodes of a pool that are warm for a model. -/
def warmNodes (ttl : Option τ) (scope : Scope) (earlier : List (WorkerStart τ)) (pool : Pool)
    (model : String × String) (now : τ) : Finset String :=
  (poolNodes earlier scope pool).filter fun node =>
    Retained ttl earlier (onNode scope pool model node) now

/-! ### The dictionary of the warm nodes -/

variable {ttl : Option τ} {scope : Scope}

omit [AddCommGroup τ] [LinearOrder τ] in
theorem mem_nodeColumn {events : List (WorkerStart τ)} {pool : Pool} {node : String} :
    node ∈ nodeColumn events scope pool ↔ ∃ e ∈ events, e.pool = pool ∧ scopeKey e scope = node := by
  simp [nodeColumn, and_assoc]

theorem get?_freshNodes (now : τ) (seen : OrderedDict String τ) (node : String) :
    (freshNodes ttl now seen).get? node = (seen.get? node).filter (Recent ttl now ·) := by
  cases ttl with
  | none =>
    have hall : ∀ t : τ, Recent none now t := fun _ => nofun
    cases hget : seen.get? node <;> simp [freshNodes, hall, hget, Option.filter]
  | some t => simp [freshNodes, OrderedDict.get?_filter, Recent]

/-- What a dictionary tells of the starts before: the time of the latest one on a node, unless it
is stale by now. -/
structure Remembers (scope : Scope) (ttl : Option τ) (before : List (WorkerStart τ))
    (warm : Warm τ) : Prop where
  latest : ∀ pool model node t, (warm (pool, model)).get? node = some t →
    ∃ last ∈ (before.filter (onNode scope pool model node)).getLast?, last.ts = t
  kept : ∀ pool model node, ∀ last ∈ (before.filter (onNode scope pool model node)).getLast?,
    ∀ now, (∀ e ∈ before, e.ts ≤ now) → Recent ttl now last.ts →
      (warm (pool, model)).get? node = some last.ts

theorem remembers_new (scope : Scope) (ttl : Option τ) :
    Remembers scope ttl [] (fun _ => .empty) := ⟨nofun, nofun⟩

/-- The nodes that stay are those that are warm. -/
theorem Remembers.fresh {before : List (WorkerStart τ)} {warm : Warm τ}
    (h : Remembers scope ttl before warm) {now : τ} (hnow : ∀ e ∈ before, e.ts ≤ now)
    (pool : Pool) (model : String × String) :
    (freshNodes ttl now (warm (pool, model))).items.length =
      (warmNodes ttl scope before pool model now).card := by
  have hkeys : (freshNodes ttl now (warm (pool, model))).keys.toFinset =
      warmNodes ttl scope before pool model now := by
    ext node
    rw [List.mem_toFinset, OrderedDict.mem_keys, warmNodes, Finset.mem_filter, poolNodes,
      List.mem_toFinset, mem_nodeColumn]
    simp only [← OrderedDict.get?_eq_some, get?_freshNodes, Option.filter_eq_some_iff,
      decide_eq_true_eq]
    constructor
    · rintro ⟨t, hget, hrecent⟩
      obtain ⟨last, hlast, rfl⟩ := h.latest pool model node t hget
      obtain ⟨hmem, hon⟩ := List.mem_filter.mp (List.mem_of_getLast? hlast)
      simp only [onNode, decide_eq_true_eq] at hon
      exact ⟨⟨last, hmem, hon.1, hon.2.1⟩, last, hlast, hrecent⟩
    · rintro ⟨-, last, hlast, hrecent⟩
      exact ⟨last.ts, h.kept pool model node last hlast now hnow hrecent, hrecent⟩
  have hnodup : (freshNodes ttl now (warm (pool, model))).keys.Nodup := OrderedDict.nodup _
  rw [← hkeys, List.toFinset_card_of_nodup hnodup, OrderedDict.keys, List.length_map]

variable [IsOrderedAddMonoid τ]

/-- What is stale stays stale. -/
theorem Recent.earlier {now now' last : τ} (h : Recent ttl now' last) (hle : now ≤ now') :
    Recent ttl now last := fun t ht => (sub_le_sub_right hle last).trans (h t ht)

/-- One turn keeps the dictionaries: stale nodes go, and the node of the row becomes warm. -/
theorem Remembers.step {before : List (WorkerStart τ)} {row : WorkerStart τ} {warm : Warm τ}
    (h : Remembers scope ttl before warm) :
    Remembers scope ttl (before ++ [row]) (Function.update warm (row.pool, row.model)
      ((freshNodes ttl row.ts (warm (row.pool, row.model))).set (scopeKey row scope) row.ts)) := by
  set seen := freshNodes ttl row.ts (warm (row.pool, row.model)) with hseen
  -- the latest start on a node is `row`, or it is the latest one before
  have hself : ((before ++ [row]).filter (onNode scope row.pool row.model (scopeKey row scope))
      ).getLast? = some row := by
    simp [onNode]
  have hother : ∀ pool model node, ¬ onNode scope pool model node row →
      (before ++ [row]).filter (onNode scope pool model node) =
        before.filter (onNode scope pool model node) := by
    intro pool model node hrow
    simp [hrow]
  have hrow : ∀ pool model node, onNode scope pool model node row ↔
      row.pool = pool ∧ scopeKey row scope = node ∧ row.model = model := by
    simp [onNode]
  constructor
  · intro pool model node t hget
    by_cases hkey : (pool, model) = (row.pool, row.model)
    · obtain ⟨rfl, rfl⟩ := Prod.mk.inj hkey
      rw [Function.update_self, OrderedDict.get?_set] at hget
      by_cases hnode : node = scopeKey row scope
      · rw [if_pos hnode, Option.some_inj] at hget
        exact ⟨row, hnode ▸ hself, hget⟩
      · rw [if_neg hnode, hseen, get?_freshNodes, Option.filter_eq_some_iff] at hget
        rw [hother _ _ _ fun hon => hnode ((hrow _ _ _).mp hon).2.1.symm]
        exact h.latest _ _ _ t hget.1
    · rw [Function.update_of_ne hkey] at hget
      rw [hother _ _ _ fun hon => hkey (Prod.ext ((hrow _ _ _).mp hon).1.symm
        ((hrow _ _ _).mp hon).2.2.symm)]
      exact h.latest _ _ _ t hget
  · intro pool model node last hlast now hbefore hrecent
    have hle : ∀ e ∈ before, e.ts ≤ now := fun e he => hbefore e (List.mem_append_left _ he)
    by_cases hkey : (pool, model) = (row.pool, row.model)
    · obtain ⟨rfl, rfl⟩ := Prod.mk.inj hkey
      rw [Function.update_self, OrderedDict.get?_set]
      by_cases hnode : node = scopeKey row scope
      · rw [hnode, hself, Option.mem_some_iff] at hlast
        rw [if_pos hnode, hlast]
      · rw [hother _ _ _ fun hon => hnode ((hrow _ _ _).mp hon).2.1.symm] at hlast
        rw [if_neg hnode, hseen, get?_freshNodes, Option.filter_eq_some_iff]
        refine ⟨h.kept _ _ _ last hlast now hle hrecent, decide_eq_true ?_⟩
        exact hrecent.earlier (hbefore row (List.mem_append_right _ List.mem_cons_self))
    · rw [hother _ _ _ fun hon => hkey (Prod.ext ((hrow _ _ _).mp hon).1.symm
        ((hrow _ _ _).mp hon).2.2.symm)] at hlast
      rw [Function.update_of_ne hkey]
      exact h.kept _ _ _ last hlast now hle hrecent

/-! ### The baseline -/

omit [AddCommGroup τ] [LinearOrder τ] [IsOrderedAddMonoid τ] in
/-- The divisor is the number of nodes of the pool, which is not zero. -/
theorem candidate_spec {events : List (WorkerStart τ)} {row : WorkerStart τ} (h : row ∈ events) :
    candidate events scope row.pool = some (poolNodes events scope row.pool).card ∧
      (poolNodes events scope row.pool).card ≠ 0 := by
  have hmem : scopeKey row scope ∈ nodeColumn events scope row.pool :=
    mem_nodeColumn.mpr ⟨row, h, rfl, rfl⟩
  constructor
  · rw [candidate, if_neg (List.ne_nil_of_mem hmem)]
    rfl
  · exact Finset.card_ne_zero_of_mem (List.mem_toFinset.mpr hmem)

/-- The share of the nodes of its pool that are warm for a start. -/
def warmShare (events : List (WorkerStart τ)) (scope : Scope) (ttl : Option τ)
    (earlier : List (WorkerStart τ)) (row : WorkerStart τ) : ℚ :=
  (warmNodes ttl scope earlier row.pool row.model row.ts).card /
    (poolNodes events scope row.pool).card

omit [IsOrderedAddMonoid τ] in
/-- Warm nodes are nodes of the pool. -/
theorem warmShare_le_one {events earlier : List (WorkerStart τ)} (h : earlier ⊆ events)
    (row : WorkerStart τ) : 0 ≤ warmShare events scope ttl earlier row ∧
      warmShare events scope ttl earlier row ≤ 1 := by
  have hsub : warmNodes ttl scope earlier row.pool row.model row.ts ⊆
      poolNodes events scope row.pool := by
    intro node hnode
    obtain ⟨e, he, hpool, hkey⟩ :=
      mem_nodeColumn.mp (List.mem_toFinset.mp (Finset.mem_filter.mp hnode).1)
    exact List.mem_toFinset.mpr (mem_nodeColumn.mpr ⟨e, h he, hpool, hkey⟩)
  have hcard := Finset.card_le_card hsub
  exact ⟨by rw [warmShare]; positivity, div_le_one_of_le₀ (by exact_mod_cast hcard) (by positivity)⟩

theorem ratioStep_spec {events before : List (WorkerStart τ)} {row : WorkerStart τ} {warm : Warm τ}
    (hrow : row ∈ events) (hnow : ∀ e ∈ before, e.ts ≤ row.ts)
    (h : Remembers scope ttl before warm) :
    ∃ warm', ratioStep events scope ttl warm row =
        some (warmShare events scope ttl before row, warm') ∧
      Remembers scope ttl (before ++ [row]) warm' := by
  obtain ⟨hcand, hpos⟩ : candidate events scope row.pool = _ ∧ _ := candidate_spec hrow
  obtain ⟨n, hn⟩ := Nat.exists_eq_succ_of_ne_zero hpos
  refine ⟨_, ?_, h.step⟩
  rw [ratioStep, hcand, warmShare, ← h.fresh hnow, hn]
  rfl

omit [AddCommGroup τ] [LinearOrder τ] [IsOrderedAddMonoid τ] in
/-- A column that is changed value by value. -/
theorem replay_map {σ β γ : Type*} (step : σ → WorkerStart τ → Option (β × σ)) (f : β → γ) (s : σ)
    (rows : List (WorkerStart τ)) :
    replay (fun s row => (step s row).map fun r => (f r.1, r.2)) s rows =
      (replay step s rows).map (List.map f) := by
  induction rows generalizing s with
  | nil => rfl
  | cons row rows ih =>
    rw [replay, replay]
    cases step s row with
    | none => rfl
    | some r => simp [ih, Function.comp_def]

/-- **The baseline is its point-in-time definition**: each start of a sorted log expects the
share of the nodes of its pool that are warm for it.  The division is by no zero, the share is
between 0 and 1, and the `min` never changes it. -/
theorem baseline_point_in_time {events : List (WorkerStart τ)} (hsorted : Sorted events)
    (scope : Scope) (ttl : Option τ) :
    ∃ xs, expectations events scope ttl = some xs ∧
      replay (ratioStep events scope ttl) (fun _ => .empty) events = some xs ∧
      xs.length = events.length ∧ ∀ i row, events[i]? = some row → ∃ x : ℚ, xs[i]? = some x ∧
        (poolNodes events scope row.pool).card ≠ 0 ∧
        x = (warmNodes ttl scope (events.take i) row.pool row.model row.ts).card /
          (poolNodes events scope row.pool).card ∧ 0 ≤ x ∧ x ≤ 1 := by
  have hturn : ∀ before row warm, before ++ [row] <+: events → Remembers scope ttl before warm →
      ∃ x warm', ratioStep events scope ttl warm row = some (x, warm') ∧
        (before ⊆ events ∧ x = warmShare events scope ttl before row) ∧
        Remembers scope ttl (before ++ [row]) warm' := by
    rintro before row warm ⟨rest, hrest⟩ h
    have hrow : row ∈ events := by simp [← hrest]
    have hnow : ∀ e ∈ before, e.ts ≤ row.ts := by
      intro e he
      rw [← hrest, List.append_assoc] at hsorted
      exact (List.pairwise_append.mp hsorted).2.2 e he row List.mem_cons_self
    obtain ⟨warm', hstep, h'⟩ := ratioStep_spec hrow hnow h
    exact ⟨_, warm', hstep, ⟨fun e he => by simp [← hrest, he], rfl⟩, h'⟩
  obtain ⟨xs, hxs, hlen, hall⟩ := replay_column (Remembers scope ttl)
    (fun before row x => before ⊆ events ∧ x = warmShare events scope ttl before row)
    (remembers_new scope ttl) hturn
  have hle : ∀ x ∈ xs, min 1 x = x := by
    intro x hx
    obtain ⟨i, hi, rfl⟩ := List.mem_iff_getElem.mp hx
    obtain ⟨y, hy, hsub, rfl⟩ := hall i _ (List.getElem?_eq_getElem (hlen ▸ hi))
    rw [List.getElem?_eq_getElem hi, Option.some_inj] at hy
    rw [hy]
    exact min_eq_right (warmShare_le_one hsub _).2
  refine ⟨xs, ?_, hxs, hlen, fun i row hi => ?_⟩
  · refine (replay_map (ratioStep events scope ttl) (min 1) _ _).trans ?_
    rw [hxs, Option.map_some, List.map_congr_left hle, List.map_id']
  · obtain ⟨x, hx, hsub, rfl⟩ := hall i row hi
    exact ⟨_, hx, (candidate_spec (List.mem_of_getElem? hi)).2, rfl, warmShare_le_one hsub row⟩

end Baseline

theorem baseline_point_in_time_pair :
    ∃ xs, expectations [.onHost 0 "a" "h", .onHost 5 "a" "k"] .host (some (4 : ℤ)) = some xs ∧
      replay (ratioStep [.onHost 0 "a" "h", .onHost 5 "a" "k"] .host (some 4)) (fun _ => .empty)
        [.onHost 0 "a" "h", .onHost 5 "a" "k"] = some xs ∧
      xs.length = 2 := by
  have hsorted : Sorted [WorkerStart.onHost 0 "a" "h", .onHost 5 "a" "k"] := by
    simp [Sorted, WorkerStart.onHost]
  obtain ⟨xs, hxs, hratio, hlen, -⟩ := baseline_point_in_time hsorted .host (some 4)
  exact ⟨xs, hxs, hratio, hlen⟩

end Study

end XetDcCache
