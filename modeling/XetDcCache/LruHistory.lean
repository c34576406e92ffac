/-
Histories of the LRU accountant.

`after max minFree ops` runs a sequence of operations on a new cache and keeps
the history of uses beside it.  `exact_after` is the invariant every history
keeps: the two representations hold the same keys, the total is their sum, and
the order is the order of last use.  `lru_exact` adds what the next operation
does to the entries, its evictions included.
-/
import XetDcCache.Lru
import XetDcCache.Text

namespace XetDcCache

namespace Lru

open Recency

variable {κ : Type*}

/-- A call of `Load`, `Touch`, `Record` or `Forget`; `free i` is what `freeFn`
answers after `i` deletions of this call. -/
inductive Op (κ : Type*)
  | load (sort : SortSlice κ) (seeds : List (LruSeed κ)) (free : Option (ℕ → Int64))
  | touch (key : κ)
  | record (key : κ) (size : Int64) (free : Option (ℕ → Int64))
  | forget (key : κ)

/-- The sizes the operation is given are non-negative. -/
def Op.NonNeg : Op κ → Prop
  | .load _ seeds _ => ∀ e ∈ seeds, 0 ≤ e.size.toInt
  | .record _ size _ => 0 ≤ size.toInt
  | .touch _ | .forget _ => True

/-- What `freeFn` answers during the operation, if it is asked and not nil. -/
def Op.free : Op κ → Option (ℕ → Int64)
  | .load _ _ free | .record _ _ free => free
  | .touch _ | .forget _ => none

/-- Only `Load` and `Record` evict. -/
def Op.Evicting : Op κ → Prop
  | .load _ _ _ | .record _ _ _ => True
  | .touch _ | .forget _ => False

variable [DecidableEq κ]

/-- Run an operation; returns the keys handed to the delete callback. -/
def Raw.apply (c : Raw κ) : Op κ → List κ × Raw κ
  | .load sort seeds free => c.load sort seeds free
  | .touch key => ([], c.touch key)
  | .record key size free => c.record key size free
  | .forget key => ([], c.forget key)

/-- The keys an operation uses, in order. -/
def Raw.uses (c : Raw κ) : Op κ → List κ
  | .load sort seeds _ => (unheld c.keys (sort.1 seeds)).map Prod.fst
  | .touch key => [key]
  | .record key _ _ => [key]
  | .forget _ => []

/-- The cache after a sequence of operations, and the history of uses. -/
def after (max minFree : Int64) (ops : List (Op κ)) : Raw κ × List κ :=
  ops.foldl (fun p op => ((p.1.apply op).2, p.2 ++ p.1.uses op)) (newRaw max minFree, [])

theorem after_concat (max minFree : Int64) (ops : List (Op κ)) (op : Op κ) :
    after max minFree (ops ++ [op]) =
      (((after max minFree ops).1.apply op).2,
        (after max minFree ops).2 ++ (after max minFree ops).1.uses op) := by
  rw [after, List.foldl_append]
  rfl

/-! ### What an operation does to the entries -/

/-- The entries once the operation has made its own change, before evictions. -/
def inserted (es : List (κ × Int64)) : Op κ → List (κ × Int64)
  | .load sort seeds _ => es ++ unheld (es.map Prod.fst) (sort.1 seeds)
  | .touch key => es.filter (·.1 ≠ key) ++ es.filter (·.1 = key)
  | .record key size _ => es.filter (·.1 ≠ key) ++ [(key, size)]
  | .forget key => es.filter (·.1 ≠ key)

/-- How an operation goes on from the entries `es` it has made. -/
def Op.Deletes (max minFree : Int64) (es : List (κ × Int64)) (ds : List κ)
    (es' : List (κ × Int64)) : Op κ → Prop
  | .load _ _ free | .record _ _ free => Evicts max minFree free 0 es ds es'
  | .touch _ | .forget _ => ds = [] ∧ es' = es

theorem apply_spec {c : Raw κ} (h : c.Wf) (op : Op κ) :
    (c.apply op).2.Wf ∧
      op.Deletes c.max c.minFree (inserted c.entries op) (c.apply op).1 (c.apply op).2.entries ∧
      (c.apply op).2.max = c.max ∧ (c.apply op).2.minFree = c.minFree := by
  cases op with
  | load sort seeds free =>
    obtain ⟨hwf, hent, hmax, hmin⟩ := @loadSorted_spec κ _ (sort.1 seeds) _ h
    obtain ⟨hwf', hev, hmax', hmin'⟩ := evictLocked_spec hwf free
    rw [hent, hmax, hmin, keys_eq_map] at hev
    exact ⟨hwf', hev, hmax'.trans hmax, hmin'.trans hmin⟩
  | touch key =>
    obtain ⟨hmax, hmin⟩ := touch_limits c key
    exact ⟨touch_wf h key, ⟨rfl, touch_entries h key⟩, hmax, hmin⟩
  | record key size free =>
    obtain ⟨hmax, hmin⟩ := recordEntry_limits c key size
    obtain ⟨hwf', hev, hmax', hmin'⟩ := evictLocked_spec (recordEntry_wf h key size) free
    rw [recordEntry_entries h, hmax, hmin] at hev
    exact ⟨hwf', hev, hmax'.trans hmax, hmin'.trans hmin⟩
  | forget key =>
    obtain ⟨hmax, hmin⟩ := forget_limits c key
    exact ⟨forget_wf h key, ⟨rfl, forget_entries h key⟩, hmax, hmin⟩

omit [DecidableEq κ] in
/-- What is left is a suffix of what there was. -/
theorem Op.Deletes.suffix {max minFree : Int64} {es es' : List (κ × Int64)} {ds : List κ}
    {op : Op κ} (h : op.Deletes max minFree es ds es') : es' <:+ es := by
  cases op with
  | load _ _ _ => rw [h.survivors]; exact List.drop_suffix _ _
  | touch _ => rw [h.2]
  | record _ _ _ => rw [h.survivors]; exact List.drop_suffix _ _
  | forget _ => rw [h.2]

/-! ### Unheld seeds -/

theorem unheld_mem {e : κ × Int64} : ∀ {es : List (LruSeed κ)} {held : List κ},
    e ∈ unheld held es → e.1 ∉ held ∧ ∃ s ∈ es, s.key = e.1 ∧ s.size = e.2 := by
  intro es
  induction es with
  | nil =>
    intro held h
    cases h
  | cons s es ih =>
    intro held h
    rw [unheld] at h
    by_cases hs : s.key ∈ held
    · rw [if_pos hs] at h
      obtain ⟨hne, s', hs', hk⟩ := ih h
      exact ⟨hne, s', List.mem_cons_of_mem _ hs', hk⟩
    · rw [if_neg hs] at h
      rcases List.mem_cons.mp h with rfl | h
      · exact ⟨hs, s, List.mem_cons_self, rfl, rfl⟩
      · obtain ⟨hne, s', hs', hk⟩ := ih h
        exact ⟨fun hh => hne (List.mem_append_left _ hh), s', List.mem_cons_of_mem _ hs', hk⟩

theorem unheld_nodup : ∀ (es : List (LruSeed κ)) (held : List κ),
    ((unheld held es).map Prod.fst).Nodup := by
  intro es
  induction es with
  | nil =>
    intro held
    exact List.nodup_nil
  | cons s es ih =>
    intro held
    rw [unheld]
    by_cases hs : s.key ∈ held
    · rw [if_pos hs]
      exact ih held
    · rw [if_neg hs, List.map_cons, List.nodup_cons]
      refine ⟨fun hm => ?_, ih _⟩
      obtain ⟨e, he, hek⟩ := List.mem_map.mp hm
      exact (unheld_mem he).1 (List.mem_append_right _ (List.mem_singleton.mpr hek))

/-! ### The invariant of a history -/

/-- The sizes are non-negative. -/
def NonNegSizes (es : List (κ × Int64)) : Prop := ∀ e ∈ es, 0 ≤ e.2.toInt

omit [DecidableEq κ] in
theorem bytes_nonneg {es : List (κ × Int64)} (h : NonNegSizes es) : 0 ≤ bytes es := by
  refine List.sum_nonneg fun n hn => ?_
  obtain ⟨e, he, rfl⟩ := List.mem_map.mp hn
  exact h e he

omit [DecidableEq κ] in
theorem bytes_drop_le {es : List (κ × Int64)} (h : NonNegSizes es) (n : ℕ) :
    bytes (es.drop n) ≤ bytes es := by
  have hsplit := bytes_append (es.take n) (es.drop n)
  rw [List.take_append_drop] at hsplit
  have hnn : NonNegSizes (es.take n) := fun e he => h e (List.mem_of_mem_take he)
  have := bytes_nonneg hnn
  omega

/-- The invariant of the accountant: `items` and `order` hold the same distinct
keys, `total` is the sum of their sizes (exactly, while it fits in an `int64`),
and the order is the order of last use. -/
structure Exact (c : Raw κ) (uses : List κ) : Prop where
  same_keys : ∀ k, k ∈ c.items ↔ k ∈ c.keys
  distinct : c.keys.Nodup
  total : c.total = Int64.ofInt (bytes c.entries)
  total_exact : bytes c.entries < 2 ^ 63 → c.total.toInt = bytes c.entries
  order : Recent uses c.keys

theorem inserted_nonNeg {es : List (κ × Int64)} (h : NonNegSizes es) {op : Op κ}
    (hop : op.NonNeg) : NonNegSizes (inserted es op) := by
  intro e he
  cases op with
  | load sort seeds free =>
    rcases List.mem_append.mp he with he | he
    · exact h e he
    · obtain ⟨-, s, hs, -, hsize⟩ := unheld_mem he
      rw [← hsize]
      exact hop s ((sort.2 seeds).1.mem_iff.mp hs)
  | touch key =>
    rcases List.mem_append.mp he with he | he <;> exact h e (List.mem_of_mem_filter he)
  | record key size free =>
    rcases List.mem_append.mp he with he | he
    · exact h e (List.mem_of_mem_filter he)
    · rw [List.mem_singleton.mp he]
      exact hop
  | forget key => exact h e (List.mem_of_mem_filter he)

theorem map_filter_ne (es : List (κ × Int64)) (k : κ) :
    (es.filter (·.1 ≠ k)).map Prod.fst = (es.map Prod.fst).filter (· ≠ k) := by
  rw [List.filter_map]
  rfl

/-- The order of last use is kept by the change an operation makes. -/
theorem recent_inserted {c : Raw κ} {uses : List κ} (h : Recent uses (c.entries.map Prod.fst))
    (op : Op κ) : Recent (uses ++ c.uses op) ((inserted c.entries op).map Prod.fst) := by
  cases op with
  | load sort seeds free =>
    rw [inserted, List.map_append, Raw.uses, keys_eq_map]
    refine h.use_new (unheld_nodup _ _) fun k hk => ?_
    obtain ⟨e, he, rfl⟩ := List.mem_map.mp hk
    exact (unheld_mem he).1
  | touch key =>
    rw [inserted, List.map_append, map_filter_ne]
    by_cases hk : key ∈ c.entries.map Prod.fst
    · have hone : (c.entries.filter (·.1 = key)).map Prod.fst = [key] := by
        have hnd := h.nodup
        have : (c.entries.filter (·.1 = key)).map Prod.fst =
            (c.entries.map Prod.fst).filter (· = key) := by
          rw [List.filter_map]
          rfl
        rw [this]
        simpa [List.count_eq_one_of_mem hnd hk] using
          List.filter_eq (l := c.entries.map Prod.fst) key
      rw [hone]
      exact h.use key
    · rw [filter_eq_of_notMem hk, List.map_nil, List.append_nil]
      have hall : (c.entries.map Prod.fst).filter (· ≠ key) = c.entries.map Prod.fst := by
        refine List.filter_eq_self.mpr fun x hx => ?_
        have hne : x ≠ key := fun hxk => hk (hxk ▸ hx)
        simpa using hne
      rw [hall]
      exact h.use_absent hk
  | record key size free =>
    rw [inserted, List.map_append, map_filter_ne]
    exact h.use key
  | forget key =>
    rw [inserted, map_filter_ne, Raw.uses, List.append_nil]
    exact h.sublist List.filter_sublist

/-- Run lemma: every history keeps the representation, the limits, the sizes'
signs and the order of last use. -/
theorem after_inv (max minFree : Int64) : ∀ {ops : List (Op κ)}, (∀ op ∈ ops, op.NonNeg) →
    (after max minFree ops).1.Wf ∧ (after max minFree ops).1.max = max ∧
      (after max minFree ops).1.minFree = minFree ∧
      NonNegSizes (after max minFree ops).1.entries ∧
      Recent (after max minFree ops).2 ((after max minFree ops).1.entries.map Prod.fst) := by
  intro ops
  induction ops using List.reverseRecOn with
  | nil =>
    intro _
    refine ⟨newRaw_wf max minFree, rfl, rfl, ?_, rfl⟩
    intro e he
    cases he
  | append_singleton ops op ih =>
    intro hops
    obtain ⟨hwf, hmax, hmin, hnn, hrec⟩ := ih fun o ho => hops o (List.mem_append_left _ ho)
    obtain ⟨hwf', hdel, hmax', hmin'⟩ := apply_spec hwf op
    have hsuf := hdel.suffix
    have hop := hops op (List.mem_append_right _ (List.mem_singleton.mpr rfl))
    rw [after_concat]
    refine ⟨hwf', hmax'.trans hmax, hmin'.trans hmin, ?_, ?_⟩
    · exact fun e he => inserted_nonNeg hnn hop e (hsuf.subset he)
    · exact (recent_inserted hrec op).sublist (hsuf.sublist.map _)

theorem exact_after (max minFree : Int64) {ops : List (Op κ)} (hops : ∀ op ∈ ops, op.NonNeg) :
    Exact (after max minFree ops).1 (after max minFree ops).2 := by
  obtain ⟨hwf, -, -, hnn, hrec⟩ := after_inv max minFree hops
  refine ⟨hwf.mem_items, hwf.keys_nodup, hwf.total, fun hlt => ?_, keys_eq_map (κ := κ) _ ▸ hrec⟩
  rw [hwf.total, ofInt_toInt_of_lt (bytes_nonneg hnn) hlt]

/-! ### The byte budget -/

omit [DecidableEq κ] in
/-- With only the byte budget, and sizes that sum below `2^63`, the limit is
exceeded exactly when the sizes sum above the budget. -/
theorem exceeded_iff {max minFree : Int64} {es : List (κ × Int64)} {free : Option Int64}
    (hmax : 0 < max) (hfree : minFree ≤ 0 ∨ free = none) (h0 : 0 ≤ bytes es)
    (hlt : bytes es < 2 ^ 63) : Exceeded max minFree es free ↔ max.toInt < bytes es := by
  have hfloor : belowFloor minFree free = false := by
    rcases hfree with hle | rfl
    · have hnot : ¬ 0 < minFree := Int64.not_lt.mpr hle
      cases free <;> simp [belowFloor, hnot]
    · rfl
  rw [Exceeded, overLimit, hfloor, Bool.or_false, Bool.and_eq_true, decide_eq_true_eq,
    decide_eq_true_eq, Int64.lt_iff_toInt_lt (x := max), ofInt_toInt_of_lt h0 hlt,
    and_iff_right hmax]

omit [DecidableEq κ] in
/-- With only a positive byte budget the survivors are the longest suffix that
fits the budget. -/
theorem Evicts.longestSuffix {max minFree : Int64} {free : Option (ℕ → Int64)}
    {es es' : List (κ × Int64)} {ds : List κ} (h : Evicts max minFree free 0 es ds es')
    (hmax : 0 < max) (hfree : minFree ≤ 0 ∨ free = none) (hnn : NonNegSizes es)
    (hlt : bytes es < 2 ^ 63) : LongestSuffix (fun s => bytes s ≤ max.toInt) es es' := by
  have hread : ∀ j, minFree ≤ 0 ∨ free.map (· (0 + j)) = none := by
    intro j
    rcases hfree with hle | rfl
    · exact Or.inl hle
    · exact Or.inr rfl
  have hiff : ∀ j m, Exceeded max minFree (es.drop m) (free.map (· (0 + j))) ↔
      max.toInt < bytes (es.drop m) := by
    intro j m
    have hdrop : NonNegSizes (es.drop m) := fun e he => hnn e (List.mem_of_mem_drop he)
    exact exceeded_iff hmax (hread j) (bytes_nonneg hdrop)
      (lt_of_le_of_lt (bytes_drop_le hnn m) hlt)
  rw [h.survivors]
  refine longestSuffix_drop h.bounded (fun m hm => ?_) ?_
  · exact not_le.mpr ((hiff m m).mp (h.exceeded m hm))
  · rcases h.stopped with hnil | hstop
    · rw [← h.survivors, hnil]
      have hpos : 0 < max.toInt := by
        have := Int64.lt_iff_toInt_lt.mp hmax
        simpa using this
      simpa [bytes] using hpos.le
    · rw [h.survivors, hiff] at hstop
      exact not_lt.mp hstop

/-- **The LRU is exact.**  After every history the accountant is `Exact`; the
next operation deletes, once each, a prefix of the order it has made, each
entry while a limit is exceeded and none once no limit is; and with only a
positive byte budget, and sizes that sum within an `int64`, it leaves the longest
suffix that fits. -/
theorem lru_exact (max minFree : Int64) (ops : List (Op κ)) (op : Op κ)
    (hops : ∀ o ∈ ops ++ [op], o.NonNeg) :
    let c := (after max minFree ops).1
    let es := inserted c.entries op
    Exact c (after max minFree ops).2 ∧
      op.Deletes max minFree es (c.apply op).1 (c.apply op).2.entries ∧
      (c.apply op).1.Nodup ∧
      (op.Evicting → 0 < max → minFree ≤ 0 ∨ op.free = none → bytes es < 2 ^ 63 →
        LongestSuffix (fun s => bytes s ≤ max.toInt) es (c.apply op).2.entries) := by
  have hops' : ∀ o ∈ ops, o.NonNeg := fun o ho => hops o (List.mem_append_left _ ho)
  have hop : op.NonNeg := hops op (List.mem_append_right _ (List.mem_singleton.mpr rfl))
  obtain ⟨hwf, hmax, hmin, hnn, hrec⟩ := after_inv max minFree hops'
  obtain ⟨-, hdel, -, -⟩ := apply_spec hwf op
  rw [hmax, hmin] at hdel
  refine ⟨exact_after max minFree hops', hdel, ?_, ?_⟩
  · have hnd := (recent_inserted hrec op).nodup
    cases op with
    | load _ _ _ => rw [hdel.deleted]; exact ((List.take_sublist _ _).map _).nodup hnd
    | record _ _ _ => rw [hdel.deleted]; exact ((List.take_sublist _ _).map _).nodup hnd
    | touch _ => rw [hdel.1]; exact List.nodup_nil
    | forget _ => rw [hdel.1]; exact List.nodup_nil
  · intro hev hpos hfloor hlt
    have hnn' := inserted_nonNeg hnn hop
    cases op with
    | load _ _ _ => exact hdel.longestSuffix hpos hfloor hnn' hlt
    | record _ _ _ => exact hdel.longestSuffix hpos hfloor hnn' hlt
    | touch _ => exact absurd hev id
    | forget _ => exact absurd hev id

/-- Recording 5 bytes beside 6 under a budget of 10 evicts the older entry. -/
theorem lru_exact_record :
    LongestSuffix (fun s => bytes s ≤ 10) [(0, (6 : Int64)), (1, 5)] [(1, 5)] := by
  have hops : ∀ o ∈ [Op.record 0 6 none] ++ [Op.record 1 5 none], Op.NonNeg (κ := ℕ) o := by
    intro o ho
    rcases List.mem_cons.mp ho with rfl | ho
    · exact (by decide : (0 : ℤ) ≤ (6 : Int64).toInt)
    · rw [List.mem_singleton.mp ho]
      exact (by decide : (0 : ℤ) ≤ (5 : Int64).toInt)
  exact (lru_exact 10 0 [Op.record 0 6 none] (Op.record 1 5 none) hops).2.2.2 trivial
    (by decide) (Or.inr rfl) (by decide)

/-- Two sizes that sum to `2^63` wrap the total: it is not the sum, and nothing
is evicted although the sum exceeds the budget. -/
theorem record_total_wraps :
    ∃ ops : List (Op ℕ), (∀ o ∈ ops, o.NonNeg) ∧
      (after (Int64.ofNat (2 ^ 63 - 1)) 0 ops).1.total.toInt ≠
        bytes (after (Int64.ofNat (2 ^ 63 - 1)) 0 ops).1.entries ∧
      (Int64.ofNat (2 ^ 63 - 1)).toInt <
        bytes (after (Int64.ofNat (2 ^ 63 - 1)) 0 ops).1.entries := by
  refine ⟨[.record 0 (Int64.ofNat (2 ^ 63 - 1)) none, .record 1 1 none], ?_, by decide, by decide⟩
  intro o ho
  rcases List.mem_cons.mp ho with rfl | ho
  · exact (by decide : (0 : ℤ) ≤ (Int64.ofNat (2 ^ 63 - 1)).toInt)
  · rw [List.mem_singleton.mp ho]
    exact (by decide : (0 : ℤ) ≤ (1 : Int64).toInt)

end Lru

end XetDcCache
