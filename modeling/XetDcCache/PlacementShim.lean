/-
The study's LRU against the shim's LRU.

Both caches replay one sequence of accesses: the simulator's `get` and `put` with no TTL,
the shim's `Touch` of a key it has and `Record` of one it has not, with a byte budget and
no disk floor.  They agree after every access exactly if every miss finds the cache empty
or is of a key that can fit (`study_predicts_shim_iff`): the simulator never stores a key
above the budget, the shim lets it evict everything, itself included.
-/
import XetDcCache.PlacementKnee
import XetDcCache.LruHistory

namespace XetDcCache

namespace Study

open Recency Transition Lru

variable {κ τ : Type*} [DecidableEq κ]

/-! ### The two replays -/

/-- `Touch` of a key that is held, `Record` of one that is not. -/
def shimAccess (c : Raw κ) (key : κ) (size : Int64) : Bool × Raw κ :=
  if key ∈ c.items then (true, c.touch key) else (false, (c.record key size none).2)

/-- The caches of the two replays, and the hits so far. -/
structure Replays (κ τ : Type*) where
  sim : LruCache κ τ
  simHits : List Bool
  shim : Raw κ
  shimHits : List Bool

/-- No access yet; the budget of both is `max`. -/
def Replays.start (max : Int64) : Replays κ τ := ⟨.new max.toInt.toNat none, [], newRaw max 0, []⟩

/-- Both access a key, at a time. -/
def Replays.access [Sub τ] [LT τ] [DecidableLT τ] (size : κ → Int64) (r : Replays κ τ)
    (a : κ × τ) : Option (Replays κ τ) :=
  (r.sim.access a.1 (size a.1).toInt.toNat a.2).map fun p =>
    ⟨p.2, r.simHits ++ [p.1], (shimAccess r.shim a.1 (size a.1)).2,
      r.shimHits ++ [(shimAccess r.shim a.1 (size a.1)).1]⟩

/-- The same hits, and the same keys in the same recency order. -/
structure Replays.Agree (r : Replays κ τ) : Prop where
  hits : r.simHits = r.shimHits
  keys : r.sim.entries.keys = r.shim.keys

/-- A miss finds the shim's cache empty, or is of a key that fits its budget, and that the
running total can take in. -/
def Replays.Fits (size : κ → Int64) (r : Replays κ τ) (a : κ × τ) : Prop :=
  a.1 ∈ r.shim.keys ∨ r.shim.keys = [] ∨
    size a.1 ≤ r.shim.max ∧ bytes r.shim.entries + (size a.1).toInt < 2 ^ 63

instance (size : κ → Int64) (r : Replays κ τ) (a : κ × τ) : Decidable (r.Fits size a) :=
  inferInstanceAs (Decidable (_ ∨ _ ∨ _ ∧ _))

/-! ### The simulation -/

/-- The shim's entries for those of the simulator. -/
def shimEntries (size : κ → Int64) (items : List (κ × ℕ × τ)) : List (κ × Int64) :=
  items.map fun e => (e.1, size e.1)

/-- The two caches hold the same entries. -/
structure Replays.Mirror (max : Int64) (size : κ → Int64) (r : Replays κ τ) : Prop where
  sized : r.sim.Sized fun k => (size k).toInt.toNat
  capacity : r.sim.capacityBytes = max.toInt.toNat
  ttl : r.sim.ttlSeconds = none
  wf : r.shim.Wf
  max_eq : r.shim.max = max
  minFree_eq : r.shim.minFree = 0
  entries : r.shim.entries = shimEntries size r.sim.entries.items
  hits : r.simHits = r.shimHits

theorem Replays.Mirror.keys {max : Int64} {size : κ → Int64} {r : Replays κ τ}
    (h : r.Mirror max size) : r.sim.entries.keys = r.shim.keys := by
  rw [keys_eq_map, h.entries, shimEntries, List.map_map]
  rfl

theorem start_mirror (max : Int64) (size : κ → Int64) :
    (Replays.start max : Replays κ τ).Mirror max size where
  sized := ⟨new_sound _ _, nofun⟩
  capacity := rfl
  ttl := rfl
  wf := newRaw_wf max 0
  max_eq := rfl
  minFree_eq := rfl
  entries := rfl
  hits := rfl

omit [DecidableEq κ] in
/-- The two running totals count the same bytes. -/
theorem bytes_shimEntries {size : κ → Int64} (hsize : ∀ k, 0 ≤ (size k).toInt)
    {items : List (κ × ℕ × τ)} (h : ∀ e ∈ items, e.2.1 = (size e.1).toInt.toNat) :
    bytes (shimEntries size items) = stored items := by
  rw [bytes, stored, shimEntries, List.map_map]
  refine congrArg List.sum (List.map_congr_left fun e he => ?_)
  show (size e.1).toInt = (e.2.1 : ℤ)
  rw [h e he, Int.toNat_of_nonneg (hsize e.1)]

/-- `Record` of a key that is not held: it leaves what fits the budget, unless the total
wraps, and then it leaves everything. -/
theorem record_new {c : Raw κ} (h : c.Wf) (hmax : 0 < c.max) (hnn : NonNegSizes c.entries)
    {key : κ} (hk : key ∉ c.keys) {size : Int64} (hsize : 0 ≤ size.toInt) :
    (c.record key size none).2.Wf ∧ (c.record key size none).2.max = c.max ∧
      (c.record key size none).2.minFree = c.minFree ∧
      (bytes c.entries + size.toInt < 2 ^ 63 →
        LongestSuffix (fun es => bytes es ≤ c.max.toInt) (c.entries ++ [(key, size)])
          (c.record key size none).2.entries) ∧
      (bytes c.entries < 2 ^ 63 → 2 ^ 63 ≤ bytes c.entries + size.toInt →
        (c.record key size none).2.entries = c.entries ++ [(key, size)]) := by
  obtain ⟨hwf, hdel, hmax', hmin'⟩ := apply_spec h (.record key size none)
  have hfilter : c.entries.filter (·.1 ≠ key) = c.entries := by
    refine List.filter_eq_self.mpr fun e he => ?_
    have hne : e.1 ≠ key := by
      rintro rfl
      exact hk (keys_eq_map c ▸ List.mem_map.mpr ⟨e, he, rfl⟩)
    simpa using hne
  have hev : Evicts c.max c.minFree none 0 (c.entries ++ [(key, size)])
      (c.record key size none).1 (c.record key size none).2.entries := by
    have hev' : Evicts c.max c.minFree none 0 (c.entries.filter (·.1 ≠ key) ++ [(key, size)])
        (c.record key size none).1 (c.record key size none).2.entries := hdel
    rwa [hfilter] at hev'
  have hsum : bytes (c.entries ++ [(key, size)]) = bytes c.entries + size.toInt := by
    rw [bytes_append]
    simp [bytes]
  have hnn' : NonNegSizes (c.entries ++ [(key, size)]) := by
    intro e he
    rcases List.mem_append.mp he with he | he
    · exact hnn e he
    · rw [List.mem_singleton.mp he]
      exact hsize
  refine ⟨hwf, hmax', hmin', fun hlt => ?_, fun hheld hover => ?_⟩
  · exact hev.longestSuffix hmax (Or.inr rfl) hnn' (by rwa [hsum])
  · -- the wrapped total is negative, so no entry is over the budget
    have hnone : (c.record key size none).1.length = 0 := by
      by_contra hne
      have hex := hev.exceeded 0 (Nat.pos_of_ne_zero hne)
      rw [List.drop_zero, Exceeded, hsum, overLimit] at hex
      have hfloor : belowFloor c.minFree (Option.map (· (0 + 0)) (none : Option (ℕ → Int64))) =
          false := rfl
      rw [hfloor, Bool.or_false, Bool.and_eq_true, decide_eq_true_eq, decide_eq_true_eq] at hex
      have hpos := Int64.lt_iff_toInt_lt.mp hmax
      have hgt := Int64.lt_iff_toInt_lt.mp hex.2
      have hzero : (0 : Int64).toInt = 0 := rfl
      have hlt : size.toInt < 2 ^ 63 := size.toInt_lt
      rw [Int64.toInt_ofInt] at hgt
      have hwrap : (bytes c.entries + size.toInt).bmod (2 ^ 64) < 0 := by
        rw [Int.bmod_def]
        omega
      have hsize64 : Int64.size = 2 ^ 64 := rfl
      rw [hsize64] at hgt
      omega
    rw [hev.survivors, hnone, List.drop_zero]

/-- The shim's entries without one key are those of the simulator. -/
theorem shimEntries_filter (size : κ → Int64) (items : List (κ × ℕ × τ)) (key : κ) :
    (shimEntries size items).filter (·.1 ≠ key) = shimEntries size (items.filter (·.1 ≠ key)) := by
  rw [shimEntries, shimEntries, List.filter_map]
  rfl

omit [DecidableEq κ] in
/-- The young part the simulator keeps, and the new key, are what the shim keeps. -/
theorem young_concat {max : Int64} {size : κ → Int64} (hmax : 0 < max.toInt)
    (hsize : ∀ k, 0 ≤ (size k).toInt) {key : κ} {items young : List (κ × ℕ × τ)}
    (hsizes : ∀ e ∈ items, e.2.1 = (size e.1).toInt.toNat)
    (h : LongestSuffix (fun es => stored es + (size key).toInt.toNat ≤ max.toInt.toNat) items young) :
    LongestSuffix (fun es => bytes es ≤ max.toInt) (shimEntries size items ++ [(key, size key)])
      (shimEntries size young ++ [(key, size key)]) := by
  refine LongestSuffix.concat (h.map fun t ht => ?_)
  have hstored : bytes (shimEntries size t) = stored t :=
    bytes_shimEntries hsize fun e he => hsizes e (ht.subset he)
  have hsum : bytes (t.map (fun e => (e.1, size e.1)) ++ [(key, size key)]) =
      stored t + (size key).toInt := by
    rw [bytes_append, ← hstored]
    simp [bytes, shimEntries]
  have hkey := hsize key
  rw [hsum]
  omega

omit [DecidableEq κ] in
/-- Nothing is left of a list that ends in a key above the budget. -/
theorem longestSuffix_oversized {max size : Int64} {key : κ} {es es' : List (κ × Int64)}
    (h : LongestSuffix (fun es => bytes es ≤ max.toInt) (es ++ [(key, size)]) es')
    (hnn : NonNegSizes es) (hover : max < size) : es' = [] := by
  rcases List.suffix_concat_iff.mp h.1 with hnil | ⟨t, rfl, ht⟩
  · exact hnil
  · have hsum : bytes (t ++ [(key, size)]) = bytes t + size.toInt := by
      rw [bytes_append]
      simp [bytes]
    have hfit : bytes (t ++ [(key, size)]) ≤ max.toInt := h.2.1
    have ht' := bytes_nonneg fun e he => hnn e (ht.subset he)
    have hlt := Int64.lt_iff_toInt_lt.mp hover
    rw [hsum] at hfit
    omega

section Access

variable {max : Int64} {size : κ → Int64} {r : Replays κ τ}

theorem Replays.Mirror.nonNeg (hsize : ∀ k, 0 ≤ (size k).toInt) (h : r.Mirror max size) :
    NonNegSizes r.shim.entries := by
  intro e he
  rw [h.entries, shimEntries] at he
  obtain ⟨x, -, rfl⟩ := List.mem_map.mp he
  exact hsize x.1

/-- What the caches hold fits the budget. -/
theorem Replays.Mirror.bytes_le (hmax : 0 < max) (hsize : ∀ k, 0 ≤ (size k).toInt)
    (h : r.Mirror max size) : bytes r.shim.entries = stored r.sim.entries.items ∧
      bytes r.shim.entries ≤ max.toInt := by
  have heq : bytes r.shim.entries = stored r.sim.entries.items := by
    rw [h.entries]
    exact bytes_shimEntries hsize h.sized.sizes
  have hbounded := h.sized.sound.bounded
  rw [h.sized.sound.total, h.capacity] at hbounded
  have hpos := Int64.lt_iff_toInt_lt.mp hmax
  have hzero : (0 : Int64).toInt = 0 := rfl
  refine ⟨heq, ?_⟩
  omega

variable [Sub τ] [LT τ] [DecidableLT τ]

/-- A key both hold: both hit, and it becomes the youngest. -/
theorem Replays.Mirror.hit (h : r.Mirror max size) {key : κ} (hk : key ∈ r.shim.keys) {now : τ}
    {hit : Bool} {c' : LruCache κ τ} (hsized : c'.Sized fun k => (size k).toInt.toNat)
    (hacc : Accessed r.sim key (size key).toInt.toNat now hit c') :
    Replays.Mirror max size ⟨c', r.simHits ++ [hit], (shimAccess r.shim key (size key)).2,
      r.shimHits ++ [(shimAccess r.shim key (size key)).1]⟩ := by
  have hmem := hk
  rw [← h.keys] at hmem
  obtain ⟨v, hv⟩ := OrderedDict.mem_keys.mp hmem
  have hfresh : r.sim.Fresh key now := ⟨v, hv, by rw [LruCache.expired, h.ttl]⟩
  have hhit := hacc.hit_iff.mpr hfresh
  have hshim : shimAccess r.shim key (size key) = (true, r.shim.touch key) := by
    rw [shimAccess, if_pos ((h.wf.mem_items key).mpr hk)]
  obtain ⟨hmax', hmin'⟩ := touch_limits r.shim key
  rw [hshim, hhit]
  refine ⟨hsized, hacc.capacity.trans h.capacity, hacc.ttl.trans h.ttl, touch_wf h.wf key,
    hmax'.trans h.max_eq, hmin'.trans h.minFree_eq, ?_, by rw [h.hits]⟩
  show (r.shim.touch key).entries = shimEntries size c'.entries.items
  have hsame : r.shim.entries.filter (·.1 = key) = [(key, size key)] := by
    rw [h.entries, shimEntries, List.filter_map]
    show (r.sim.entries.items.filter (·.1 = key)).map _ = _
    rw [OrderedDict.filter_eq_key hv]
    rfl
  rw [touch_entries h.wf, hsame, h.entries, shimEntries_filter, hacc.hit_items hhit, shimEntries,
    shimEntries, List.map_append]
  rfl

/-- A key neither holds: both miss, and they go on alike exactly if it can fit or there is
nothing to lose. -/
theorem Replays.Mirror.miss (hmax : 0 < max) (hsize : ∀ k, 0 ≤ (size k).toInt)
    (h : r.Mirror max size) {key : κ} (hk : key ∉ r.shim.keys) {now : τ} {hit : Bool}
    {c' : LruCache κ τ} (hsized : c'.Sized fun k => (size k).toInt.toNat)
    (hacc : Accessed r.sim key (size key).toInt.toNat now hit c') :
    let r' : Replays κ τ := ⟨c', r.simHits ++ [hit], (shimAccess r.shim key (size key)).2,
      r.shimHits ++ [(shimAccess r.shim key (size key)).1]⟩
    (r.Fits size (key, now) → r'.Mirror max size) ∧ (r'.Agree → r.Fits size (key, now)) := by
  intro r'
  have hmem := hk
  rw [← h.keys] at hmem
  have hmiss : hit = false := by
    rw [← Bool.not_eq_true]
    intro hhit
    obtain ⟨v, hv, -⟩ := hacc.hit_iff.mp hhit
    exact hmem (OrderedDict.mem_keys.mpr ⟨v, hv⟩)
  have hothers : r.sim.others key = r.sim.entries.items := others_of_notMem hmem
  have hshim : shimAccess r.shim key (size key) =
      (false, (r.shim.record key (size key) none).2) := by
    rw [shimAccess, if_neg fun hin => hk ((h.wf.mem_items key).mp hin)]
  have hpos : 0 < r.shim.max := h.max_eq.symm ▸ hmax
  obtain ⟨hwf, hmax', hmin', hlong, hwraps⟩ :=
    record_new h.wf hpos (h.nonNeg hsize) hk (hsize key)
  obtain ⟨hbytes, hheld⟩ := h.bytes_le hmax hsize
  rw [h.max_eq] at hmax' hlong
  have hmaxpos : (0 : ℤ) < max.toInt := Int64.lt_iff_toInt_lt.mp hmax
  have hkey := hsize key
  have hmirror : (r.shim.record key (size key) none).2.entries =
      shimEntries size c'.entries.items → r'.Mirror max size := by
    intro hent
    simp only [r', hshim, hmiss]
    exact ⟨hsized, hacc.capacity.trans h.capacity, hacc.ttl.trans h.ttl, hwf, hmax',
      hmin'.trans h.minFree_eq, hent, by rw [h.hits]⟩
  have hlengths : r'.Agree → c'.entries.items.length =
      (r.shim.record key (size key) none).2.entries.length := by
    intro hagree
    have hkeys := congrArg List.length hagree.keys
    simp only [r', hshim, OrderedDict.keys, keys_eq_map, List.length_map] at hkeys
    exact hkeys
  have hsame : r.sim.entries.items.length = r.shim.entries.length := by
    rw [h.entries, shimEntries, List.length_map]
  by_cases hfit : size key ≤ max
  · have hfit' := Int64.le_iff_toInt_le.mp hfit
    obtain ⟨young, hitems, hyoung⟩ := hacc.miss_items hmiss (by rw [h.capacity]; omega)
    rw [hothers, h.capacity] at hyoung
    by_cases hover : bytes r.shim.entries + (size key).toInt < 2 ^ 63
    · have hboth := young_concat hmaxpos hsize h.sized.sizes hyoung
      rw [← h.entries] at hboth
      refine ⟨fun _ => hmirror ?_, fun _ => Or.inr (Or.inr ⟨h.max_eq.symm ▸ hfit, hover⟩)⟩
      rw [(hlong hover).unique hboth, hitems, shimEntries, shimEntries, List.map_append]
      rfl
    · -- the simulator makes room, the shim's total wraps and it keeps everything
      have hlt63 : max.toInt < 2 ^ 63 := max.toInt_lt
      have hshort : young.length < r.sim.entries.items.length := by
        refine lt_of_le_of_ne hyoung.1.length_le fun hlen => ?_
        have hfits := hyoung.2.1
        rw [hyoung.1.eq_of_length hlen] at hfits
        omega
      have hnever : ¬ r'.Agree := by
        intro hagree
        have hlen := hlengths hagree
        rw [hwraps (by omega) (by omega), hitems, List.length_append, List.length_append, ← hsame]
          at hlen
        simp only [List.length_singleton] at hlen
        omega
      refine ⟨fun hfits => ?_, fun hagree => absurd hagree hnever⟩
      rcases hfits with hin | hnil | ⟨-, hlt⟩
      · exact absurd hin hk
      · rw [keys_eq_map, List.map_eq_nil_iff] at hnil
        rw [hsame, hnil] at hshort
        exact absurd hshort (Nat.not_lt_zero _)
      · exact absurd hlt hover
  · have hgt : max < size key := Int64.not_le.mp hfit
    have hgt' := Int64.lt_iff_toInt_lt.mp hgt
    have hskip := hacc.skip_items hmiss (by rw [h.capacity]; omega)
    rw [hothers] at hskip
    by_cases hnil : r.shim.entries = []
    · have hempty : r.sim.entries.items = [] := by
        rw [← List.length_eq_zero_iff, hsame, hnil]
        rfl
      have hlt : (size key).toInt < 2 ^ 63 := (size key).toInt_lt
      have hzero : bytes ([] : List (κ × Int64)) = 0 := rfl
      have hgone := longestSuffix_oversized (hlong (by rw [hnil, hzero]; omega)) (h.nonNeg hsize) hgt
      refine ⟨fun _ => hmirror ?_, fun _ => Or.inr (Or.inl ?_)⟩
      · rw [hgone, hskip, hempty]
        rfl
      · rw [keys_eq_map, hnil]
        rfl
    · -- the simulator keeps what it has, the shim loses it or keeps the new key too
      have hlost : (r.shim.record key (size key) none).2.entries.length ≠
          r.shim.entries.length := by
        by_cases hover : bytes r.shim.entries + (size key).toInt < 2 ^ 63
        · rw [longestSuffix_oversized (hlong hover) (h.nonNeg hsize) hgt]
          exact fun hlen => hnil (List.length_eq_zero_iff.mp hlen.symm)
        · have hlt63 : max.toInt < 2 ^ 63 := max.toInt_lt
          rw [hwraps (by omega) (by omega), List.length_append, List.length_singleton]
          omega
      have hnever : ¬ r'.Agree := by
        intro hagree
        have hlen := hlengths hagree
        rw [hskip, hsame] at hlen
        exact hlost hlen.symm
      refine ⟨fun hfits => ?_, fun hagree => absurd hagree hnever⟩
      rcases hfits with hin | hempty | ⟨hle, -⟩
      · exact absurd hin hk
      · rw [keys_eq_map, List.map_eq_nil_iff] at hempty
        exact absurd hempty hnil
      · exact absurd (h.max_eq ▸ hle) hfit

/-- One access to both. -/
theorem Replays.Mirror.access (hmax : 0 < max) (hsize : ∀ k, 0 ≤ (size k).toInt)
    (h : r.Mirror max size) (a : κ × τ) : ∃ r', r.access size a = some r' ∧
      (r.Fits size a → r'.Mirror max size) ∧ (r'.Agree → r.Fits size a) := by
  obtain ⟨hit, c', hcall, hsized, hacc⟩ := access_accessed h.sized a.1 a.2
  refine ⟨_, by rw [Replays.access, hcall, Option.map_some], ?_⟩
  by_cases hk : a.1 ∈ r.shim.keys
  · exact ⟨fun _ => h.hit hk hsized hacc, fun _ => Or.inl hk⟩
  · exact h.miss hmax hsize hk hsized hacc

/-- **The study's LRU predicts the shim's LRU**: the same hits, and the same keys in the same
order, after every access, exactly if every miss finds the shim's cache empty or is of a key
that fits the budget and that the running total can take in. -/
theorem study_predicts_shim_iff (hmax : 0 < max) (hsize : ∀ k, 0 ≤ (size k).toInt)
    (accesses : List (κ × τ)) :
    (∀ pre, pre <+: accesses → ∃ r, exec (Replays.access size) (.start max) pre = some r ∧
      r.Agree) ↔
    Along (Replays.access size) (Replays.Fits size) (.start max) accesses :=
  prefixes_iff_along (fun h => ⟨h.hits, h.keys⟩) (fun h => h.access hmax hsize _)
    (start_mirror max size)

end Access

/-- Two keys of 6 and 5 bytes. -/
def sixAndFive (key : ℕ) : Int64 := if key = 0 then 6 else 5

theorem study_predicts_shim_evicting :
    ∃ r : Replays ℕ ℕ,
      exec (Replays.access sixAndFive) (.start 10) [(0, 0), (1, 1), (0, 2)] = some r ∧ r.Agree := by
  have hsize : ∀ k, 0 ≤ (sixAndFive k).toInt := fun k => by
    rw [sixAndFive]
    split
    · decide
    · decide
  exact (study_predicts_shim_iff (by decide) hsize _).mpr (by decide +kernel) _ List.prefix_rfl

/-- A key above the budget empties the shim's cache and leaves the simulator's alone. -/
theorem oversized_key_diverges :
    ∃ r : Replays ℕ ℕ, exec (Replays.access sixAndFive) (.start 5) [(1, 0), (0, 1), (1, 2)] = some r ∧
      r.simHits = [false, false, true] ∧ r.shimHits = [false, false, false] := by
  obtain ⟨r, hr, hp⟩ := exec_of_any (Replays.access sixAndFive) (.start 5)
    [((1, 0) : ℕ × ℕ), (0, 1), (1, 2)]
    (fun r => r.simHits = [false, false, true] ∧ r.shimHits = [false, false, false])
    (by decide +kernel)
  exact ⟨r, hr, of_decide_eq_true hp⟩

end Study

end XetDcCache
