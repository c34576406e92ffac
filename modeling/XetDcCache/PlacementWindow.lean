/-
What a start hits where there is room for everything (placement_locality_sim.py).

With room for all models the caches of `simulate` are a memory of the latest start of each
model on each node (`Tracks`): a start hits if the latest one is within the TTL.  The name of a
cache is `gpu_type` and the scope node joined by `::`, which need not tell two nodes apart.

* `replay_column` — an invariant between the rows read and the state, and what it says of a
  column;
* `retention_window_iff` — when the flags are those of the retention window.
-/
import XetDcCache.PlacementKnee
import Mathlib.Algebra.Order.Group.Defs

namespace XetDcCache

namespace Study

/-! ### Loops over the rows -/

section Columns

variable {τ σ β : Type*} {step : σ → WorkerStart τ → Option (β × σ)}
  (I : List (WorkerStart τ) → σ → Prop) (P : List (WorkerStart τ) → WorkerStart τ → β → Prop)

theorem replay_column_from {rows pre : List (WorkerStart τ)} {s : σ} (hI : I pre s)
    (hstep : ∀ before row s, before ++ [row] <+: pre ++ rows → I before s →
      ∃ x s', step s row = some (x, s') ∧ P before row x ∧ I (before ++ [row]) s') :
    ∃ xs, replay step s rows = some xs ∧ xs.length = rows.length ∧
      ∀ i row, rows[i]? = some row → ∃ x, xs[i]? = some x ∧ P (pre ++ rows.take i) row x := by
  induction rows generalizing pre s with
  | nil => exact ⟨[], rfl, rfl, nofun⟩
  | cons row rows ih =>
    have happend : pre ++ [row] ++ rows = pre ++ row :: rows := by simp
    obtain ⟨x, s', hx, hP, hI'⟩ :=
      hstep pre row s (happend ▸ List.prefix_append (pre ++ [row]) rows) hI
    obtain ⟨xs, hxs, hlen, hall⟩ := ih hI' (happend.symm ▸ hstep)
    refine ⟨x :: xs, by simp only [replay, hx, hxs, Option.map_some], by simp [hlen], ?_⟩
    intro i other hi
    cases i with
    | zero =>
      obtain rfl : row = other := by simpa using hi
      exact ⟨x, rfl, by simpa using hP⟩
    | succ i =>
      obtain ⟨y, hy, hPy⟩ := hall i other (by simpa using hi)
      exact ⟨y, by simpa using hy, by simpa using hPy⟩

/-- A step that keeps `I` between the rows read and the state gives each row what `P` says. -/
theorem replay_column {rows : List (WorkerStart τ)} {s : σ} (hI : I [] s)
    (hstep : ∀ before row s, before ++ [row] <+: rows → I before s →
      ∃ x s', step s row = some (x, s') ∧ P before row x ∧ I (before ++ [row]) s') :
    ∃ xs, replay step s rows = some xs ∧ xs.length = rows.length ∧
      ∀ i row, rows[i]? = some row → ∃ x, xs[i]? = some x ∧ P (rows.take i) row x := by
  simpa only [List.nil_append] using replay_column_from I P hI hstep

end Columns

/-! ### The retention window -/

section Window

variable {τ : Type*} [AddCommGroup τ] [LinearOrder τ] [IsOrderedAddMonoid τ]
  {ttl : Option τ} {earlier : List (WorkerStart τ)} {like : WorkerStart τ → Bool} {now : τ}

/-- A start at `last` is not forgotten at `now`. -/
def Recent (ttl : Option τ) (now last : τ) : Prop := ∀ t ∈ ttl, now - last ≤ t

/-- The latest of the earlier starts that are `like` is not forgotten. -/
def Retained (ttl : Option τ) (earlier : List (WorkerStart τ)) (like : WorkerStart τ → Bool)
    (now : τ) : Prop :=
  ∃ last ∈ (earlier.filter like).getLast?, Recent ttl now last.ts

/-- A log in the order of its times. -/
def Sorted (events : List (WorkerStart τ)) : Prop := events.Pairwise fun e e' => e.ts ≤ e'.ts

instance (ttl : Option τ) (now last : τ) : Decidable (Recent ttl now last) :=
  inferInstanceAs (Decidable (∀ t ∈ ttl, now - last ≤ t))

instance (ttl : Option τ) (earlier : List (WorkerStart τ)) (like : WorkerStart τ → Bool)
    (now : τ) : Decidable (Retained ttl earlier like now) :=
  inferInstanceAs (Decidable (∃ last ∈ (earlier.filter like).getLast?, _))

theorem Recent.mono {last last' : τ} (h : Recent ttl now last) (hle : last ≤ last') :
    Recent ttl now last' := fun t ht => (sub_le_sub_left hle now).trans (h t ht)

/-- In a sorted log the latest start is the last to be forgotten. -/
theorem retained_iff (hsorted : Sorted earlier) :
    Retained ttl earlier like now ↔ ∃ e ∈ earlier, like e ∧ Recent ttl now e.ts := by
  constructor
  · rintro ⟨last, hlast, hrecent⟩
    obtain ⟨hmem, hlike⟩ := List.mem_filter.mp (List.mem_of_getLast? hlast)
    exact ⟨last, hmem, hlike, hrecent⟩
  · rintro ⟨e, hmem, hlike, hrecent⟩
    have he : e ∈ earlier.filter like := List.mem_filter.mpr ⟨hmem, hlike⟩
    obtain ⟨last, hlast⟩ : ∃ last, (earlier.filter like).getLast? = some last :=
      ⟨_, List.getLast?_eq_some_getLast (List.ne_nil_of_mem he)⟩
    refine ⟨last, hlast, hrecent.mono ?_⟩
    -- `e` is the last one, or before it
    have hlate : (earlier.filter like).Pairwise fun e e' => e.ts ≤ e'.ts :=
      hsorted.sublist List.filter_sublist
    obtain ⟨front, hfront⟩ := List.getLast?_eq_some_iff.mp hlast
    rw [hfront] at he hlate
    rcases List.mem_append.mp he with he | he
    · exact (List.pairwise_append.mp hlate).2.2 e he last List.mem_cons_self
    · rw [List.mem_singleton.mp he]

/-! ### The caches -/

/-- The model a start loads. -/
def WorkerStart.model (row : WorkerStart τ) : String × String := (row.repoId, row.revision)

/-- The name of the cache of a start in `simulate`. -/
def cacheNode (scope : Scope) (row : WorkerStart τ) : String :=
  row.gpuType ++ "::" ++ scopeKey row scope

/-- A start of this model that used the cache of this name. -/
def usedCache (scope : Scope) (node : String) (model : String × String)
    (e : WorkerStart τ) : Bool :=
  cacheNode scope e = node ∧ e.model = model

/-- A start of the same model, with the same GPU type on the same node. -/
def sameNode (scope : Scope) (row e : WorkerStart τ) : Bool :=
  e.gpuType = row.gpuType ∧ scopeKey e scope = scopeKey row scope ∧ e.model = row.model

/-- The bytes of some starts. -/
def loadedBytes (events : List (WorkerStart τ)) : ℕ := (events.map WorkerStart.modelSizeBytes).sum

variable {κ : Type*} [DecidableEq κ]

omit [IsOrderedAddMonoid τ] in
/-- An access where there is room for one more entry. -/
theorem LruCache.access_roomy (c : LruCache κ τ) (key : κ) (size : ℕ)
    (hroom : c.usedBytes + size ≤ c.capacityBytes) (hsize : size ≤ c.capacityBytes) (now : τ) :
    ∃ hit c', c.access key size now = some (hit, c') ∧ c'.capacityBytes = c.capacityBytes ∧
      c'.ttlSeconds = c.ttlSeconds ∧ c'.usedBytes ≤ c.usedBytes + size ∧
      (hit = true ↔ ∃ v ∈ c.entries.get? key, c.expired now v.2 = false) ∧
      ∀ k, c'.entries.get? k = if k = key then some (size, now) else c.entries.get? k := by
  have hturn : ∀ {d : LruCache κ τ}, d.usedBytes + size ≤ d.capacityBytes → ∀ turns,
      d.makeRoom size turns = some d := by
    intro d hfits turns
    cases turns <;> rw [makeRoom, if_neg (not_lt.mpr hfits)]
  rw [access, get]
  cases hg : c.entries.get? key with
  | none =>
    have hk := OrderedDict.get?_eq_none.mp hg
    refine ⟨false, { c with
      entries := c.entries.set key (size, now)
      usedBytes := c.usedBytes + size }, ?_, rfl, rfl, le_rfl, by simp,
      fun k => OrderedDict.get?_set c.entries key k (size, now)⟩
    simp only [put, if_neg hk, if_neg (not_lt.mpr hsize), hturn hroom, Option.map_some]
  | some v =>
    obtain ⟨old, last⟩ := v
    have hmem := OrderedDict.get?_eq_some.mp hg
    by_cases hexp : c.expired now last
    · -- it goes, and is stored anew
      have hk : key ∉ (c.entries.pop key).keys := by
        rw [← OrderedDict.get?_eq_none, OrderedDict.get?_pop, if_pos rfl]
      have hroom' : c.usedBytes - old + size ≤ c.capacityBytes := by omega
      refine ⟨false, { c with
        entries := (c.entries.pop key).set key (size, now)
        usedBytes := c.usedBytes - old + size }, ?_, rfl, rfl,
        show c.usedBytes - old + size ≤ c.usedBytes + size by omega, by simp [hexp], fun k => ?_⟩
      · simp only [hexp, if_true, evict_spec hmem, Option.map_some, put, if_neg hk,
          if_neg (not_lt.mpr hsize),
          hturn (d := { c with
            entries := c.entries.pop key
            usedBytes := c.usedBytes - old }) hroom']
      · show ((c.entries.pop key).set key (size, now)).get? k = _
        rw [OrderedDict.get?_set, OrderedDict.get?_pop]
        by_cases hkey : k = key <;> simp [hkey]
    · rw [Bool.not_eq_true] at hexp
      have hk : key ∈ (c.entries.moveToEnd key).keys := by
        rw [OrderedDict.mem_keys]
        exact ⟨(old, last), OrderedDict.get?_eq_some.mp (by rw [OrderedDict.get?_moveToEnd, hg])⟩
      refine ⟨true, { c with
        entries := ((c.entries.moveToEnd key).moveToEnd key).set key (size, now) }, ?_, rfl, rfl,
        show c.usedBytes ≤ c.usedBytes + size by omega, by simp [hexp], fun k => ?_⟩
      · simp only [hexp, Bool.false_eq_true, if_false, put, if_pos hk, Option.map_some]
      · show (((c.entries.moveToEnd key).moveToEnd key).set key (size, now)).get? k = _
        rw [OrderedDict.get?_moveToEnd_set, OrderedDict.get?_moveToEnd]

/-- What the caches remember of the starts before. -/
structure Tracks (scope : Scope) (capacityBytes : ℕ) (ttl : Option τ)
    (before : List (WorkerStart τ)) (cs : Caches (String × String) τ) : Prop where
  capacity : ∀ node, (cs node).capacityBytes = capacityBytes
  ttl : ∀ node, (cs node).ttlSeconds = ttl
  used : ∀ node, (cs node).usedBytes ≤ loadedBytes before
  latest : ∀ node model, ((cs node).entries.get? model).map Prod.snd =
    (before.filter (usedCache scope node model)).getLast?.map WorkerStart.ts

variable {scope : Scope} {capacityBytes : ℕ}

omit [IsOrderedAddMonoid τ] in
/-- A start hits if the latest one that used its cache is not forgotten, and is the latest
itself. -/
theorem Tracks.step {before : List (WorkerStart τ)} {row : WorkerStart τ}
    {cs : Caches (String × String) τ} (h : Tracks scope capacityBytes ttl before cs)
    (hcap : loadedBytes (before ++ [row]) ≤ capacityBytes) :
    ∃ hit cs', simulateStep scope cs row = some (hit, cs') ∧
      (hit = true ↔ Retained ttl before (usedCache scope (cacheNode scope row) row.model) row.ts) ∧
      Tracks scope capacityBytes ttl (before ++ [row]) cs' := by
  have hloaded : loadedBytes (before ++ [row]) = loadedBytes before + row.modelSizeBytes := by
    simp [loadedBytes]
  have hused := h.used (cacheNode scope row)
  obtain ⟨hit, c', hc', hcap', httl', hused', hhit, hget⟩ :=
    (cs (cacheNode scope row)).access_roomy row.model row.modelSizeBytes
      (by rw [h.capacity]; omega) (by rw [h.capacity]; omega) row.ts
  refine ⟨hit, Function.update cs (cacheNode scope row) c', ?_, ?_, ?_⟩
  · show ((cs (cacheNode scope row)).access row.model row.modelSizeBytes row.ts).map _ = _
    rw [hc', Option.map_some]
    rfl
  · have hlatest := h.latest (cacheNode scope row) row.model
    rw [hhit, Retained]
    cases hv : (cs (cacheNode scope row)).entries.get? row.model with
    | none =>
      rw [hv] at hlatest
      rw [Option.map_eq_none_iff.mp hlatest.symm]
      simp
    | some v =>
      rw [hv, Option.map_some] at hlatest
      obtain ⟨last, hlast, hts⟩ := Option.map_eq_some_iff.mp hlatest.symm
      simp only [hlast, Option.mem_some_iff, exists_eq_left', hts, LruCache.expired, h.ttl]
      cases ttl <;> simp [Recent]
  · have hother : ∀ node, node ≠ cacheNode scope row →
        Function.update cs (cacheNode scope row) c' node = cs node :=
      fun node hne => Function.update_of_ne hne c' cs
    refine ⟨fun node => ?_, fun node => ?_, fun node => ?_, fun node model => ?_⟩
    -- the caches of the other nodes are as they were
    all_goals by_cases hnode : node = cacheNode scope row
    · rw [hnode, Function.update_self, hcap', h.capacity]
    · rw [hother node hnode, h.capacity]
    · rw [hnode, Function.update_self, httl', h.ttl]
    · rw [hother node hnode, h.ttl]
    · rw [hnode, Function.update_self, hloaded]
      push_cast
      omega
    · rw [hother node hnode, hloaded]
      have := h.used node
      push_cast
      omega
    · rw [hnode, Function.update_self, hget, List.filter_append]
      by_cases hmodel : model = row.model
      · simp [hmodel, usedCache]
      · simp [hmodel, usedCache, Ne.symm hmodel, h.latest]
    · rw [hother node hnode, h.latest, List.filter_append]
      simp [usedCache, Ne.symm hnode]

omit [AddCommGroup τ] [LinearOrder τ] [IsOrderedAddMonoid τ] in
theorem tracks_new (scope : Scope) (capacityBytes : ℕ) (ttl : Option τ) :
    Tracks scope capacityBytes ttl [] fun _ => .new capacityBytes ttl :=
  ⟨fun _ => rfl, fun _ => rfl, fun _ => Int.natCast_nonneg _, fun _ _ => rfl⟩

omit [IsOrderedAddMonoid τ] in
/-- What `simulate` says of each start: whether the latest one that used its cache is not
forgotten. -/
theorem simulate_column {events : List (WorkerStart τ)} (hcap : loadedBytes events ≤ capacityBytes)
    (scope : Scope) (ttl : Option τ) :
    ∃ flags, simulate events scope capacityBytes ttl = some flags ∧
      flags.length = events.length ∧ ∀ i row, events[i]? = some row → ∃ hit, flags[i]? = some hit ∧
        (hit = true ↔
          Retained ttl (events.take i) (usedCache scope (cacheNode scope row) row.model) row.ts) := by
  refine replay_column (Tracks scope capacityBytes ttl) (fun before row hit => hit = true ↔
    Retained ttl before (usedCache scope (cacheNode scope row) row.model) row.ts)
    (tracks_new scope capacityBytes ttl) ?_
  rintro before row cs ⟨rest, hrest⟩ htracks
  refine htracks.step ?_
  have hsum : loadedBytes (before ++ [row] ++ rest) =
      loadedBytes (before ++ [row]) + loadedBytes rest := by
    rw [loadedBytes, List.map_append, List.sum_append]
    rfl
  rw [hrest] at hsum
  omega

omit [AddCommGroup τ] [LinearOrder τ] [IsOrderedAddMonoid τ] in
/-- The same node has one name. -/
theorem sameNode.usedCache {row e : WorkerStart τ} (h : sameNode scope row e) :
    usedCache scope (cacheNode scope row) row.model e := by
  simp only [sameNode, decide_eq_true_eq] at h
  simp [Study.usedCache, cacheNode, h.1, h.2.1, h.2.2]

/-- **With room for everything the replay is the retention window**: a start hits if the latest
one of its model on its node, with its GPU type, is not forgotten.  This is so exactly if a start
that is not forgotten, and whose `gpu_type::node` only reads the same, comes with one on the
node itself. -/
theorem retention_window_iff {events : List (WorkerStart τ)} (hsorted : Sorted events)
    (hcap : loadedBytes events ≤ capacityBytes) (scope : Scope) (ttl : Option τ) :
    (∃ flags, simulate events scope capacityBytes ttl = some flags ∧
      flags.length = events.length ∧ ∀ i row, events[i]? = some row → ∃ hit, flags[i]? = some hit ∧
        (hit = true ↔ Retained ttl (events.take i) (sameNode scope row) row.ts)) ↔
    ∀ i row, events[i]? = some row → ∀ e ∈ events.take i, e.model = row.model →
      cacheNode scope e = cacheNode scope row → Recent ttl row.ts e.ts →
      ∃ e' ∈ events.take i, sameNode scope row e' ∧ Recent ttl row.ts e'.ts := by
  obtain ⟨flags, hflags, hlen, hall⟩ := simulate_column hcap scope ttl
  have htake : ∀ i, Sorted (events.take i) := fun i => hsorted.sublist (List.take_sublist i _)
  constructor
  · rintro ⟨flags', hflags', -, hall'⟩ i row hi e he hmodel hnode hrecent
    obtain rfl : flags = flags' := Option.some_inj.mp (hflags.symm.trans hflags')
    obtain ⟨hit, hhit, hused⟩ := hall i row hi
    obtain ⟨hit', hhit', hsame⟩ := hall' i row hi
    obtain rfl : hit = hit' := Option.some_inj.mp (hhit.symm.trans hhit')
    rw [← retained_iff (htake i), ← hsame, hused, retained_iff (htake i)]
    exact ⟨e, he, by simp [usedCache, hnode, hmodel], hrecent⟩
  · intro hown
    refine ⟨flags, hflags, hlen, fun i row hi => ?_⟩
    obtain ⟨hit, hhit, hused⟩ := hall i row hi
    refine ⟨hit, hhit, ?_⟩
    rw [hused, retained_iff (htake i), retained_iff (htake i)]
    constructor
    · rintro ⟨e, he, hcache, hrecent⟩
      simp only [usedCache, decide_eq_true_eq] at hcache
      exact hown i row hi e he hcache.2 hcache.1 hrecent
    · rintro ⟨e, he, hsame, hrecent⟩
      exact ⟨e, he, sameNode.usedCache hsame, hrecent⟩

end Window

/-- The start of a worker for a GPU type on a host. -/
def WorkerStart.onHost (ts : ℤ) (gpuType hostId : String) : WorkerStart ℤ :=
  ⟨ts, "org/model", "main", hostId, gpuType, "dc", 1, none⟩

theorem retention_window_pair : ∃ flags,
    simulate [.onHost 0 "a" "h", .onHost 5 "a" "h"] .host 2 (some (4 : ℤ)) = some flags ∧
      flags.length = 2 ∧ ∀ i row, [WorkerStart.onHost 0 "a" "h", .onHost 5 "a" "h"][i]? = some row →
        ∃ hit, flags[i]? = some hit ∧ (hit = true ↔
          Retained (some 4) ([WorkerStart.onHost 0 "a" "h", .onHost 5 "a" "h"].take i)
            (sameNode .host row) row.ts) := by
  refine (retention_window_iff ?_ (by decide) .host _).mpr ?_
  · simp [Sorted, WorkerStart.onHost]
  · intro i row hi e he hmodel hnode hrecent
    refine ⟨e, he, ?_, hrecent⟩
    have hrow := List.mem_of_getElem? hi
    have hin := List.mem_of_mem_take he
    simp only [List.mem_cons, List.not_mem_nil, or_false] at hrow hin
    rcases hrow with rfl | rfl <;> rcases hin with rfl | rfl <;> decide +kernel

/-- Two nodes of one name: a start hits though its own node never held the model. -/
theorem shared_name_hits :
    simulate [.onHost 0 "a" "b::c", .onHost 5 "a::b" "c"] .host 2 (some (10 : ℤ)) =
        some [false, true] ∧
      ¬ Retained (some 10) [WorkerStart.onHost 0 "a" "b::c"]
        (sameNode .host (.onHost 5 "a::b" "c")) 5 := by
  decide +kernel

end Study

end XetDcCache
