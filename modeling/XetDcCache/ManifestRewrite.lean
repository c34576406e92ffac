/-
The loops of `rewriteManifest` (reconstruction.go, xorb.go).

`rewriteManifest` visits the xorbs of a manifest in the order of a Go map, rewrites the urls in
place and remembers each one it replaces.  `rewriteRanged` is it with its order, its clock and the
map of the signed urls; its tree is `rewriteManifest`, whatever the order.

* `rewriteManifest_at` — what the tree has at each path;
* `rewriteXorbs_spec` — what the loops leave;
* `manifest_rewrite_spec` — the tree, and the candidates of each xorb.
-/
import XetDcCache.Reconstruction
import XetDcCache.Replay
import Mathlib.Data.Finset.Card

namespace XetDcCache

open Recency

/-! ### Paths -/

/-- A step down a tree. -/
inductive JsonStep
  | key (k : Bytes)
  | index (i : ℕ)
deriving DecidableEq, Repr

/-- What a node of a tree is, but for what is below it. -/
inductive JsonHead
  | null
  | bool (b : Bool)
  | num (text : Bytes)
  | str (s : Bytes)
  | arr (length : ℕ)
  | obj (keys : List Bytes)
deriving DecidableEq, Repr

namespace Json

def head : Json → JsonHead
  | .null => .null
  | .bool b => .bool b
  | .num text => .num text
  | .str s => .str s
  | .arr elems => .arr elems.length
  | .obj members => .obj (members.map Prod.fst)

/-- The subtree at a path. -/
def at? : Json → List JsonStep → Option Json
  | j, [] => some j
  | .obj members, .key k :: p => (members.lookup k).bind (at? · p)
  | .arr elems, .index i :: p => elems[i]?.bind (at? · p)
  | _, _ :: _ => none

/-- The node at a path. -/
def nodeAt (j : Json) (p : List JsonStep) : Option JsonHead := (j.at? p).map head

end Json

/-- The url of an entry. -/
def entryUrl : Json → Option Url
  | .obj e =>
    match e.lookup (lit "url") with
    | some (.str u) => some u
    | _ => none
  | _ => none

/-- The link that takes the place of the urls of a xorb. -/
def xorbLink (publicBase hash : Bytes) : Bytes := publicBase ++ lit "/xorb/xorbs/default/" ++ hash

theorem lookup_replace {m : Manifest} {key : Bytes} (k : Bytes) (value : Json) :
    (Manifest.replace m key value).lookup k =
      if k = key then (m.lookup key).map fun _ => value else m.lookup k := by
  induction m with
  | nil => simp [Manifest.replace]
  | cons e m ih =>
    obtain ⟨k', v⟩ := e
    rw [Manifest.replace] at ih ⊢
    rw [List.map_cons]
    by_cases hk' : k' = key
    · rw [if_pos hk', hk']
      by_cases hk : k = key
      · simp [hk]
      · rw [if_neg hk, List.lookup_cons, List.lookup_cons, beq_false_of_ne hk, ih, if_neg hk]
    · rw [if_neg hk', List.lookup_cons, List.lookup_cons, List.lookup_cons, ih,
        beq_false_of_ne (Ne.symm hk')]
      by_cases hk : k = k'
      · subst hk
        simp [hk']
      · rw [beq_false_of_ne hk]

theorem keys_replace (m : Manifest) (key : Bytes) (value : Json) :
    (Manifest.replace m key value).map Prod.fst = m.map Prod.fst := by
  rw [Manifest.replace, List.map_map]
  refine List.map_congr_left fun e _ => ?_
  by_cases he : e.1 = key <;> simp [he]

theorem entryUrl_eq_some {e : Json} {u : Url} :
    entryUrl e = some u ↔ ∃ m, e = .obj m ∧ m.lookup (lit "url") = some (.str u) := by
  cases e with
  | obj m =>
    simp only [entryUrl, Json.obj.injEq, exists_eq_left']
    cases m.lookup (lit "url") with
    | none => simp
    | some v => cases v <;> simp
  | _ => simp [entryUrl]

theorem rewriteEntry_of_none {link : Bytes} {e : Json} (h : entryUrl e = none) :
    rewriteEntry link e = e := by
  cases e with
  | obj m =>
    simp only [entryUrl] at h
    simp only [rewriteEntry]
    cases hl : m.lookup (lit "url") with
    | none => rfl
    | some v =>
      rw [hl] at h
      cases v with
      | str u => cases h
      | _ => rfl
  | _ => rfl

theorem rewriteEntry_obj {link : Bytes} {m : Manifest} {u : Url}
    (h : m.lookup (lit "url") = some (.str u)) :
    rewriteEntry link (.obj m) = .obj (Manifest.replace m (lit "url") (.str link)) := by
  rw [rewriteEntry, h]

/-! ### What the tree has at a path -/

namespace Json

theorem at?_key (m : Manifest) (k : Bytes) (p : List JsonStep) :
    (obj m).at? (.key k :: p) = (m.lookup k).bind (at? · p) := rfl

theorem nodeAt_key (m : Manifest) (k : Bytes) (p : List JsonStep) :
    (obj m).nodeAt (.key k :: p) = (m.lookup k).bind (nodeAt · p) := by
  rw [nodeAt, at?_key]
  cases m.lookup k <;> rfl

theorem nodeAt_index (es : List Json) (i : ℕ) (p : List JsonStep) :
    (arr es).nodeAt (.index i :: p) = es[i]?.bind (nodeAt · p) := by
  rw [nodeAt, at?]
  cases es[i]? <;> rfl

/-- There is nothing below a string. -/
theorem nodeAt_str (u : Bytes) (step : JsonStep) (p : List JsonStep) :
    (str u).nodeAt (step :: p) = none := by
  cases step <;> rfl

end Json

/-- Where an object is replaced under one key, the other nodes stay. -/
theorem nodeAt_replace {m : Manifest} {key : Bytes} {value value' : Json} {p : List JsonStep}
    (hm : m.lookup key = some value)
    (h : ∀ q, p = .key key :: q → value'.nodeAt q = value.nodeAt q) :
    (Json.obj (Manifest.replace m key value')).nodeAt p = (Json.obj m).nodeAt p := by
  cases p with
  | nil => exact congrArg (fun keys => some (JsonHead.obj keys)) (keys_replace m key value')
  | cons step q =>
    cases step with
    | index i => rfl
    | key k =>
      rw [Json.nodeAt_key, Json.nodeAt_key, lookup_replace]
      by_cases hk : k = key
      · subst hk
        rw [if_pos rfl, hm]
        exact h q rfl
      · rw [if_neg hk]

theorem rewriteEntry_nodeAt {link : Bytes} {e : Json} {p : List JsonStep}
    (h : p = [.key (lit "url")] → entryUrl e = none) :
    (rewriteEntry link e).nodeAt p = e.nodeAt p := by
  cases hu : entryUrl e with
  | none => rw [rewriteEntry_of_none hu]
  | some u =>
    obtain ⟨m, rfl, hm⟩ := entryUrl_eq_some.mp hu
    rw [rewriteEntry_obj hm]
    refine nodeAt_replace hm fun q hq => ?_
    cases q with
    | nil =>
      rw [h hq] at hu
      cases hu
    | cons step q => rw [Json.nodeAt_str, Json.nodeAt_str]

theorem rewriteXorb_nodeAt {publicBase hash : Bytes} {j : Json} {p : List JsonStep}
    (h : ∀ i e, p = [.index i, .key (lit "url")] → j.at? [.index i] = some e →
      entryUrl e = none) :
    (rewriteXorb publicBase hash j).nodeAt p = j.nodeAt p := by
  cases j with
  | arr es =>
    rw [rewriteXorb]
    cases p with
    | nil => simp [Json.nodeAt, Json.at?, Json.head]
    | cons step q =>
      cases step with
      | key k => rfl
      | index i =>
        rw [Json.nodeAt_index, Json.nodeAt_index, List.getElem?_map]
        cases hi : es[i]? with
        | none => rfl
        | some e =>
          refine rewriteEntry_nodeAt fun hq => h i e (by rw [hq]) ?_
          rw [Json.at?, hi]
          rfl
  | _ => rfl

theorem lookup_map_values {α β : Type*} (f : Bytes → α → β) (xs : List (Bytes × α)) (k : Bytes) :
    (xs.map fun e => (e.1, f e.1 e.2)).lookup k = (xs.lookup k).map (f k) := by
  induction xs with
  | nil => rfl
  | cons e xs ih =>
    obtain ⟨k', v⟩ := e
    rw [List.map_cons, List.lookup_cons, List.lookup_cons, ih]
    by_cases hk : k = k'
    · subst hk
      simp
    · rw [beq_false_of_ne hk]

/-- The url of an entry of a xorb stands at this path. -/
def urlPath (hash : Bytes) (i : ℕ) : List JsonStep :=
  [.key (lit "xorbs"), .key hash, .index i, .key (lit "url")]

section Tree

variable {publicBase : Bytes} {m : Manifest}

/-- The entries with a url, one by one. -/
theorem at?_urlPath {hash : Bytes} {i : ℕ} {u : Url} :
    (Json.obj m).at? (urlPath hash i) = some (.str u) ↔
      ∃ xorbs es e, m.lookup (lit "xorbs") = some (.obj xorbs) ∧
        xorbs.lookup hash = some (.arr es) ∧ es[i]? = some (.obj e) ∧
        e.lookup (lit "url") = some (.str u) := by
  constructor
  · intro h
    rw [urlPath, Json.at?_key, Option.bind_eq_some_iff] at h
    obtain ⟨x, hx, h⟩ := h
    cases x with
    | obj xorbs =>
      rw [Json.at?_key, Option.bind_eq_some_iff] at h
      obtain ⟨x, hx', h⟩ := h
      cases x with
      | arr es =>
        obtain ⟨e, he, h⟩ := Option.bind_eq_some_iff.mp h
        cases e with
        | obj e =>
          obtain ⟨v, hv, h⟩ := Option.bind_eq_some_iff.mp h
          exact ⟨xorbs, es, e, hx, hx', he, hv.trans h⟩
        | _ => cases h
      | _ => cases h
    | _ => cases h
  · rintro ⟨xorbs, es, e, hx, hhash, hi, hu⟩
    rw [urlPath, Json.at?_key, hx, Option.bind_some, Json.at?_key, hhash, Option.bind_some,
      Json.at?, hi, Option.bind_some, Json.at?_key, hu]
    rfl

/-- Every url becomes the link of its xorb. -/
theorem rewriteManifest_url {hash : Bytes} {i : ℕ} {u : Url}
    (h : (Json.obj m).at? (urlPath hash i) = some (.str u)) :
    (Json.obj (rewriteManifest publicBase m)).at? (urlPath hash i) =
      some (.str (xorbLink publicBase hash)) := by
  obtain ⟨xorbs, es, e, hx, hhash, hi, hu⟩ := at?_urlPath.mp h
  rw [rewriteManifest, hx]
  have hentry : rewriteEntry (xorbLink publicBase hash) (.obj e) = _ := rewriteEntry_obj hu
  refine at?_urlPath.mpr ⟨xorbs.map fun e => (e.1, rewriteXorb publicBase e.1 e.2),
    es.map (rewriteEntry (xorbLink publicBase hash)),
    Manifest.replace e (lit "url") (.str (xorbLink publicBase hash)), ?_, ?_, ?_, ?_⟩
  · rw [lookup_replace, if_pos rfl, hx, Option.map_some]
  · rw [lookup_map_values (rewriteXorb publicBase), hhash]
    rfl
  · rw [List.getElem?_map, hi, Option.map_some, hentry]
  · rw [lookup_replace, if_pos rfl, hu]
    rfl

/-- Nothing else changes: what is at any other path is what was there. -/
theorem rewriteManifest_nodeAt {p : List JsonStep}
    (h : ∀ hash i u, p = urlPath hash i → (Json.obj m).at? p ≠ some (.str u)) :
    (Json.obj (rewriteManifest publicBase m)).nodeAt p = (Json.obj m).nodeAt p := by
  rw [rewriteManifest]
  split
  · next xorbs hx =>
    refine nodeAt_replace hx fun q hq => ?_
    cases q with
    | nil => simp [Json.nodeAt, Json.at?, Json.head, Function.comp_def]
    | cons step r =>
      cases step with
      | index i => rfl
      | key hash =>
        rw [Json.nodeAt_key, Json.nodeAt_key, lookup_map_values (rewriteXorb publicBase)]
        cases hhash : xorbs.lookup hash with
        | none => rfl
        | some j =>
          refine rewriteXorb_nodeAt fun i e hr he => ?_
          -- a url there would be one of a xorb
          refine Option.eq_none_iff_forall_ne_some.mpr fun u hu => ?_
          obtain ⟨em, rfl, hurl⟩ := entryUrl_eq_some.mp hu
          have hpath : p = urlPath hash i := by rw [hq, hr]; rfl
          refine h hash i u hpath ?_
          cases j with
          | arr es =>
            obtain ⟨e', he', h'⟩ := Option.bind_eq_some_iff.mp he
            obtain rfl : e' = .obj em := Option.some_inj.mp h'
            exact hpath ▸ at?_urlPath.mpr ⟨xorbs, es, em, hx, hhash, he', hurl⟩
          | _ => cases he
  · rfl

end Tree

/-! ### The loops -/

/-- The urls of a list of entries, in their order. -/
def entryUrls (es : List Json) : List Url := es.filterMap entryUrl

/-- The urls of the entries of a xorb. -/
def urlsOf (xorbs : Manifest) (hash : Bytes) : List Url :=
  match xorbs.lookup hash with
  | some (.arr es) => entryUrls es
  | _ => []

section Loops

variable (publicBase : Bytes) (n : ℕ) (clock : ℕ → ℕ)

/-- The loop over the entries of a xorb; `reads` counts the readings of the clock. -/
def rewriteEntries (hash : Bytes) :
    List Json → TTLMap Candidates → ℕ → List Json × TTLMap Candidates × ℕ
  | [], signed, reads => ([], signed, reads)
  | e :: rest, signed, reads =>
    match entryUrl e with
    | none =>
      let (rest, s) := rewriteEntries hash rest signed reads
      (e :: rest, s)
    | some u =>
      let signed := rememberSigned n signed (clock reads) (clock (reads + 1)) hash u
      let (rest, s) := rewriteEntries hash rest signed (reads + 2)
      (rewriteEntry (xorbLink publicBase hash) e :: rest, s)

/-- The loop over the xorbs, in the order in which `range` yields them. -/
def rewriteXorbs :
    List Bytes → Manifest → TTLMap Candidates → ℕ → Manifest × TTLMap Candidates
  | [], xorbs, signed, _ => (xorbs, signed)
  | hash :: order, xorbs, signed, reads =>
    match xorbs.lookup hash with
    | some (.arr entries) =>
      let (entries, signed, reads) := rewriteEntries publicBase n clock hash entries signed reads
      rewriteXorbs order (Manifest.replace xorbs hash (.arr entries)) signed reads
    | _ => rewriteXorbs order xorbs signed reads

/-- `rewriteManifest` with its effect on the signed urls. -/
def rewriteRanged (order : List Bytes) (m : Manifest) (signed : TTLMap Candidates) :
    Manifest × TTLMap Candidates :=
  match m.lookup (lit "xorbs") with
  | some (.obj xorbs) =>
    let (xorbs, signed) := rewriteXorbs publicBase n clock order xorbs signed 0
    (Manifest.replace m (lit "xorbs") (.obj xorbs), signed)
  | _ => (m, signed)

end Loops

/-- The candidates of a xorb, expired or not. -/
def TTLMap.cands (m : TTLMap Candidates) (hash : Bytes) : List Url :=
  ((m.value? hash).getD .none).urls

theorem TTLMap.cands_nodup (m : TTLMap Candidates) (hash : Bytes) : (m.cands hash).Nodup :=
  ((m.value? hash).getD .none).nodup

/-- What becomes of the candidates of a xorb with these urls. -/
def refreshed (n : ℕ) (urls prior : List Url) : List Url :=
  if urls = [] then prior else (urls.dedup.reverse ++ prior.filter (· ∉ urls)).take n

theorem refreshed_nil (n : ℕ) (prior : List Url) : refreshed n [] prior = prior := if_pos rfl

/-- One more url goes to the front. -/
theorem refreshed_concat (n : ℕ) (urls : List Url) (u : Url) {prior : List Url}
    (hprior : prior.Nodup) : refreshed n (urls ++ [u]) prior =
      (u :: (refreshed n urls prior).filter (· ≠ u)).take n := by
  have hfilter : prior.filter (· ∉ urls ++ [u]) =
      (prior.filter (· ∉ urls)).filter (· ≠ u) := by
    rw [List.filter_filter]
    refine List.filter_congr fun x _ => ?_
    by_cases hx : x = u <;> simp [hx]
  rw [refreshed, if_neg (by simp), dedup_concat, List.reverse_append, List.reverse_singleton,
    hfilter, List.append_assoc, List.singleton_append]
  cases n with
  | zero => rfl
  | succ n =>
    rw [List.take_succ_cons, List.take_succ_cons, ← List.filter_reverse, ← List.filter_append]
    congr 1
    rw [refreshed]
    split
    · next hnil => simp [hnil]
    · -- the cut of the list comes to the same before and after
      have hnodup : (urls.dedup.reverse ++ prior.filter (· ∉ urls)).Nodup := by
        refine List.Nodup.append (List.nodup_reverse.mpr (List.nodup_dedup _))
          (hprior.filter _) fun x hx hx' => ?_
        rw [List.mem_reverse, List.mem_dedup] at hx
        simpa [hx] using (List.mem_filter.mp hx').2
      exact (take_filter_take u n hnodup).symm

/-! ### The signed urls -/

/-- One url is remembered. -/
def refresh (n : ℕ) (cands : List Url) (u : Url) : List Url :=
  (u :: cands.filter (· ≠ u)).take n

theorem foldl_refresh (n : ℕ) (urls : List Url) {prior : List Url} (hprior : prior.Nodup) :
    urls.foldl (refresh n) prior = refreshed n urls prior := by
  induction urls using List.reverseRecOn with
  | nil => exact (refreshed_nil n prior).symm
  | append_singleton urls u ih =>
    rw [List.foldl_append, List.foldl_cons, List.foldl_nil, ih, refreshed_concat n urls u hprior]
    rfl

/-- No entry expires at a reading of the clock, and the cap has room for these keys as well. -/
structure TTLMap.Undisturbed (clock : ℕ → ℕ) (hashes : List Bytes) (m : TTLMap Candidates) :
    Prop where
  live : ∀ k, ∀ e ∈ m.items.get? k, ∀ i, clock i < e.expiry
  ttl : ∀ i j, clock i < clock j + m.ttl
  room : m.max ≤ 0 ∨ ((m.items.keys ++ hashes).toFinset.card : ℤ) ≤ m.max

section Remember

variable {clock : ℕ → ℕ} {hashes : List Bytes} {m : TTLMap Candidates} {hash : Bytes}

theorem TTLMap.Undisturbed.roomFor (h : m.Undisturbed clock hashes) (hin : hash ∈ hashes) :
    m.Room hash := by
  refine h.room.imp_right fun hcard => ?_
  -- the other keys and this one are all different
  have hnodup : (hash :: (m.items.items.filter (·.1 ≠ hash)).map Prod.fst).Nodup := by
    refine List.nodup_cons.mpr ⟨?_, m.items.filter_keys_nodup hash⟩
    rw [OrderedDict.keys_filter]
    simp
  have hsub : (hash :: (m.items.items.filter (·.1 ≠ hash)).map Prod.fst).toFinset ⊆
      (m.items.keys ++ hashes).toFinset := by
    intro k hk
    rw [List.mem_toFinset, List.mem_cons, OrderedDict.keys_filter, List.mem_filter] at hk
    rw [List.mem_toFinset, List.mem_append]
    rcases hk with rfl | ⟨hk, -⟩
    · exact Or.inr hin
    · exact Or.inl hk
  have hle := Finset.card_le_card hsub
  rw [List.toFinset_card_of_nodup hnodup, List.length_cons, List.length_map] at hle
  omega

theorem TTLMap.Undisturbed.remember (h : m.Undisturbed clock hashes) (hin : hash ∈ hashes)
    (n i j : ℕ) (u : Url) :
    (rememberSigned n m (clock i) (clock j) hash u).Undisturbed clock hashes ∧
      ∀ k, (rememberSigned n m (clock i) (clock j) hash u).cands k =
        if k = hash then refresh n (m.cands hash) u else m.cands k := by
  have hlive : m.Live (clock i) hash := fun e he => h.live hash e he i
  have hroom := h.roomFor hin
  have hstored : rememberSigned n m (clock i) (clock j) hash u =
      m.set (clock j) hash (((m.value? hash).getD .none).remember n u) := by
    rw [rememberSigned, TTLMap.get_of_live hlive]
  rw [hstored]
  refine ⟨⟨fun k e he i => ?_, h.ttl, ?_⟩, fun k => ?_⟩
  · rcases TTLMap.get?_set he with ⟨-, rfl⟩ | ⟨-, hold⟩
    · exact h.ttl i j
    · exact h.live k e hold i
  · refine h.room.imp_right fun hcard => le_trans ?_ hcard
    have hsub : ((m.set (clock j) hash (((m.value? hash).getD .none).remember n u)).items.keys ++
        hashes).toFinset ⊆ (m.items.keys ++ hashes).toFinset := by
      intro k hk
      rw [List.mem_toFinset, List.mem_append] at hk ⊢
      rcases hk with hk | hk
      · obtain ⟨e, he⟩ := OrderedDict.mem_keys.mp hk
        rcases TTLMap.get?_set (OrderedDict.get?_eq_some.mpr he) with ⟨rfl, -⟩ | ⟨-, hold⟩
        · exact Or.inr hin
        · exact Or.inl (OrderedDict.mem_keys.mpr ⟨e, OrderedDict.get?_eq_some.mp hold⟩)
      · exact Or.inr hk
    exact_mod_cast Finset.card_le_card hsub
  · rw [TTLMap.cands, TTLMap.value?_set hroom]
    by_cases hk : k = hash
    · rw [if_pos hk, if_pos hk]
      rfl
    · rw [if_neg hk, if_neg hk]
      rfl

variable {publicBase : Bytes} {n : ℕ}

/-- The entries of one xorb. -/
theorem rewriteEntries_spec {es : List Json} :
    ∀ {m : TTLMap Candidates} {reads : ℕ}, (entryUrls es ≠ [] → hash ∈ hashes) →
      m.Undisturbed clock hashes →
      let r := rewriteEntries publicBase n clock hash es m reads
      r.1 = es.map (rewriteEntry (xorbLink publicBase hash)) ∧
        r.2.1.Undisturbed clock hashes ∧ ∀ k, r.2.1.cands k =
          if k = hash then (entryUrls es).foldl (refresh n) (m.cands hash) else m.cands k := by
  induction es with
  | nil =>
    intro m reads _ h
    refine ⟨rfl, h, fun k => ?_⟩
    by_cases hk : k = hash
    · rw [if_pos hk, hk]
      rfl
    · rw [if_neg hk]
      rfl
  | cons e es ih =>
    intro m reads hin h
    rw [rewriteEntries]
    cases hu : entryUrl e with
    | none =>
      rw [entryUrls, List.filterMap_cons_none hu] at hin
      obtain ⟨htree, hkeep, hcands⟩ : _ ∧ _ := @ih m reads hin h
      refine ⟨?_, hkeep, fun k => ?_⟩
      · rw [List.map_cons, rewriteEntry_of_none hu, ← htree]
      · rw [entryUrls, List.filterMap_cons_none hu]
        exact hcands k
    | some u =>
      have hin : hash ∈ hashes := hin (by rw [entryUrls, List.filterMap_cons_some hu]; simp)
      -- the url goes into the candidates, which the rest of the loop reads
      obtain ⟨hkeep₁, hcands₁⟩ := h.remember hin n reads (reads + 1) u
      obtain ⟨htree, hkeep, hcands⟩ : _ ∧ _ := @ih _ (reads + 2) (fun _ => hin) hkeep₁
      refine ⟨?_, hkeep, fun k => ?_⟩
      · rw [List.map_cons, ← htree]
      · rw [entryUrls, List.filterMap_cons_some hu, List.foldl_cons]
        refine (hcands k).trans ?_
        rw [hcands₁ hash, if_pos rfl, hcands₁ k]
        by_cases hk : k = hash
        · rw [if_pos hk, if_pos hk]
          rfl
        · rw [if_neg hk, if_neg hk, if_neg hk]

/-- The xorbs once some of them are rewritten. -/
def rewriteSome (publicBase : Bytes) (order : List Bytes) (xorbs : Manifest) : Manifest :=
  xorbs.map fun e => (e.1, if e.1 ∈ order then rewriteXorb publicBase e.1 e.2 else e.2)

/-- A key has one value. -/
theorem lookup_of_mem {α : Type*} {xs : List (Bytes × α)} (hkeys : (xs.map Prod.fst).Nodup)
    {e : Bytes × α} (he : e ∈ xs) : xs.lookup e.1 = some e.2 := by
  induction xs with
  | nil => cases he
  | cons x xs ih =>
    obtain ⟨hx, hnd⟩ := List.nodup_cons.mp hkeys
    rcases List.mem_cons.mp he with rfl | he
    · rw [List.lookup_cons, beq_self_eq_true]
    · have hne : e.1 ≠ x.1 := fun heq => hx (heq ▸ List.mem_map_of_mem he)
      rw [List.lookup_cons, beq_false_of_ne hne]
      exact ih hnd he

theorem urlsOf_rewriteSome {order : List Bytes} {xorbs : Manifest} {k : Bytes} (hk : k ∉ order) :
    urlsOf (rewriteSome publicBase order xorbs) k = urlsOf xorbs k := by
  rw [urlsOf, urlsOf, rewriteSome,
    lookup_map_values (fun k v => if k ∈ order then rewriteXorb publicBase k v else v)]
  cases xorbs.lookup k <;> simp [hk]

theorem rewriteSome_keys (order : List Bytes) (xorbs : Manifest) :
    (rewriteSome publicBase order xorbs).map Prod.fst = xorbs.map Prod.fst := by
  simp [rewriteSome, Function.comp_def]

theorem rewriteSome_cons {order : List Bytes} {xorbs : Manifest} (hhash : hash ∉ order) :
    rewriteSome publicBase order (rewriteSome publicBase [hash] xorbs) =
      rewriteSome publicBase (hash :: order) xorbs := by
  rw [rewriteSome, rewriteSome, rewriteSome, List.map_map]
  refine List.map_congr_left fun e _ => ?_
  by_cases he : e.1 = hash
  · simp [he, hhash]
  · simp [he]

/-- One turn of the loop over the xorbs rewrites one of them, in place. -/
theorem rewriteXorbs_cons {order : List Bytes} {xorbs : Manifest}
    (hkeys : (xorbs.map Prod.fst).Nodup) (hin : urlsOf xorbs hash ≠ [] → hash ∈ hashes)
    {m : TTLMap Candidates} (reads : ℕ) (h : m.Undisturbed clock hashes) :
    ∃ (m' : TTLMap Candidates) (reads' : ℕ),
      rewriteXorbs publicBase n clock (hash :: order) xorbs m reads =
        rewriteXorbs publicBase n clock order (rewriteSome publicBase [hash] xorbs) m' reads' ∧
      m'.Undisturbed clock hashes ∧ ∀ k, m'.cands k =
        if k = hash then (urlsOf xorbs hash).foldl (refresh n) (m.cands hash) else m.cands k := by
  have hvalue : ∀ v, xorbs.lookup hash = some v → ∀ e ∈ xorbs, e.1 = hash → e.2 = v := by
    intro v hv e he heq
    have := lookup_of_mem hkeys he
    rw [heq, hv, Option.some_inj] at this
    exact this.symm
  -- a xorb that is no array is left as it is, and has no urls
  have hsame : (∀ es, xorbs.lookup hash ≠ some (.arr es)) →
      rewriteSome publicBase [hash] xorbs = xorbs ∧ urlsOf xorbs hash = [] := by
    intro hno
    constructor
    · conv_rhs => rw [← List.map_id xorbs]
      refine List.map_congr_left fun e he => ?_
      by_cases heq : e.1 = hash
      · have hv := lookup_of_mem hkeys he
        have hxorb : rewriteXorb publicBase e.1 e.2 = e.2 := by
          cases hj : e.2 with
          | arr es => exact absurd (by rw [← heq, hv, hj]) (hno es)
          | _ => rfl
        simp [hxorb]
      · simp [heq]
    · rw [urlsOf]
      split
      · next es hes => exact absurd hes (hno es)
      · rfl
  by_cases harr : ∃ es, xorbs.lookup hash = some (.arr es)
  · obtain ⟨es, hes⟩ := harr
    have hurls : urlsOf xorbs hash = entryUrls es := by rw [urlsOf, hes]
    rw [hurls] at hin
    obtain ⟨htree, hkeep, hcands⟩ : _ ∧ _ :=
      @rewriteEntries_spec clock hashes hash publicBase n es m reads hin h
    refine ⟨_, (rewriteEntries publicBase n clock hash es m reads).2.2, ?_, hkeep, ?_⟩
    · rw [rewriteXorbs, hes]
      simp only [htree]
      congr 1
      refine List.map_congr_left fun e he => ?_
      by_cases heq : e.1 = hash
      · rw [if_pos heq, if_pos (List.mem_singleton.mpr heq), hvalue _ hes e he heq, heq]
        rfl
      · rw [if_neg heq, if_neg (by simpa using heq)]
    · rw [hurls]
      exact hcands
  · obtain ⟨htree, hurls⟩ := hsame fun es hes => harr ⟨es, hes⟩
    refine ⟨m, reads, ?_, h, fun k => ?_⟩
    · rw [htree, rewriteXorbs]
      split
      · next es hes => exact absurd ⟨es, hes⟩ harr
      · rfl
    · rw [hurls]
      by_cases hk : k = hash
      · rw [if_pos hk, hk]
        rfl
      · rw [if_neg hk]

theorem rewriteXorbs_spec {order : List Bytes} : ∀ {xorbs : Manifest} {m : TTLMap Candidates}
    {reads : ℕ}, order.Nodup → (∀ k ∈ order, urlsOf xorbs k ≠ [] → k ∈ hashes) →
    (xorbs.map Prod.fst).Nodup → m.Undisturbed clock hashes →
    let r := rewriteXorbs publicBase n clock order xorbs m reads
    r.1 = rewriteSome publicBase order xorbs ∧ ∀ k, r.2.cands k =
      if k ∈ order then (urlsOf xorbs k).foldl (refresh n) (m.cands k) else m.cands k := by
  induction order with
  | nil =>
    intro xorbs m reads _ _ _ _
    refine ⟨?_, fun k => rfl⟩
    simp [rewriteXorbs, rewriteSome]
  | cons hash order ih =>
    intro xorbs m reads hnd hsub hkeys h
    obtain ⟨hhash, hnd⟩ := List.nodup_cons.mp hnd
    obtain ⟨m', reads', heq, hkeep, hcands⟩ : ∃ (m' : TTLMap Candidates) (reads' : ℕ),
        rewriteXorbs publicBase n clock (hash :: order) xorbs m reads = _ ∧ _ :=
      rewriteXorbs_cons hkeys (hsub hash List.mem_cons_self) reads h
    have hsub' : ∀ k ∈ order, urlsOf (rewriteSome publicBase [hash] xorbs) k ≠ [] →
        k ∈ hashes := by
      intro k hk hurls
      have hne : k ∉ [hash] := fun heq => hhash (List.mem_singleton.mp heq ▸ hk)
      rw [urlsOf_rewriteSome hne] at hurls
      exact hsub k (List.mem_cons_of_mem _ hk) hurls
    have hrest := @ih _ m' reads' hnd hsub' (by rw [rewriteSome_keys]; exact hkeys) hkeep
    rw [heq]
    refine ⟨hrest.1.trans (rewriteSome_cons hhash), fun k => ?_⟩
    rw [hrest.2 k]
    by_cases hk : k = hash
    · -- it is visited once
      rw [hk, if_neg hhash, if_pos List.mem_cons_self, hcands, if_pos rfl]
    · rw [urlsOf_rewriteSome (by simpa using hk), hcands, if_neg hk]
      by_cases hmem : k ∈ order
      · rw [if_pos hmem, if_pos (List.mem_cons_of_mem _ hmem)]
      · rw [if_neg hmem, if_neg (by simp [hk, hmem])]

end Remember

/-! ### The whole -/

/-- The object at `xorbs`, if there is one. -/
def Manifest.xorbs (m : Manifest) : Manifest :=
  match m.lookup (lit "xorbs") with
  | some (.obj xorbs) => xorbs
  | _ => []

/-- The hashes with a url. -/
def Manifest.linked (m : Manifest) : List Bytes :=
  (m.xorbs.map Prod.fst).filter fun hash => urlsOf m.xorbs hash ≠ []

theorem rewriteManifest_eq (publicBase : Bytes) {m : Manifest} {order : List Bytes}
    (horder : order.Perm (m.xorbs.map Prod.fst)) {xorbs : Manifest}
    (hx : m.lookup (lit "xorbs") = some (.obj xorbs)) :
    Manifest.replace m (lit "xorbs") (.obj (rewriteSome publicBase order xorbs)) =
      rewriteManifest publicBase m := by
  have hxorbs : m.xorbs = xorbs := by rw [Manifest.xorbs, hx]
  rw [rewriteManifest, hx]
  congr 2
  refine List.map_congr_left fun e he => ?_
  rw [if_pos (horder.mem_iff.mpr (hxorbs ▸ List.mem_map_of_mem he))]

/-- The tree and the candidates that the loops leave, in any order. -/
theorem rewriteRanged_spec (publicBase : Bytes) (n : ℕ) {clock : ℕ → ℕ} {m : Manifest}
    {order : List Bytes} {signed : TTLMap Candidates} (hkeys : (m.xorbs.map Prod.fst).Nodup)
    (horder : order.Perm (m.xorbs.map Prod.fst)) (hsteady : signed.Undisturbed clock m.linked) :
    (rewriteRanged publicBase n clock order m signed).1 = rewriteManifest publicBase m ∧
      ∀ hash, (rewriteRanged publicBase n clock order m signed).2.cands hash =
        refreshed n (urlsOf m.xorbs hash) (signed.cands hash) := by
  rw [rewriteRanged]
  split
  · next xorbs hx =>
    have hxorbs : m.xorbs = xorbs := by rw [Manifest.xorbs, hx]
    have hsub : ∀ k ∈ order, urlsOf xorbs k ≠ [] → k ∈ m.linked := by
      intro k hk hurls
      refine List.mem_filter.mpr ⟨horder.mem_iff.mp hk, ?_⟩
      simpa [hxorbs] using hurls
    obtain ⟨htree, hcands⟩ : _ ∧ _ := @rewriteXorbs_spec clock m.linked publicBase n order xorbs
      signed 0 (horder.nodup_iff.mpr hkeys) hsub (hxorbs ▸ hkeys) hsteady
    refine ⟨?_, fun hash => ?_⟩
    · show Manifest.replace m (lit "xorbs") (.obj (rewriteXorbs publicBase n clock order xorbs
        signed 0).1) = _
      rw [htree]
      exact rewriteManifest_eq publicBase horder hx
    · refine (hcands hash).trans ?_
      rw [hxorbs, foldl_refresh n _ (signed.cands_nodup hash)]
      by_cases hmem : hash ∈ order
      · rw [if_pos hmem]
      · -- a hash that is not visited is no key
        have hno : urlsOf xorbs hash = [] := by
          have hnone : xorbs.lookup hash = none := by
            refine List.lookup_eq_none_iff.mpr fun e he => ?_
            refine bne_iff_ne.mpr fun heq => hmem (horder.mem_iff.mpr ?_)
            exact hxorbs ▸ heq ▸ List.mem_map_of_mem he
          rw [urlsOf, hnone]
        rw [if_neg hmem, hno, refreshed_nil]
  · next hno =>
    have hxorbs : m.xorbs = [] := by
      rw [Manifest.xorbs]
      split
      · next xorbs hx => exact absurd hx (hno xorbs)
      · rfl
    refine ⟨?_, fun hash => by rw [hxorbs]; rfl⟩
    rw [rewriteManifest]
    split
    · next xorbs hx => exact absurd hx (hno xorbs)
    · rfl

/-- **`rewriteManifest` changes only the urls of the xorbs, and remembers all of them.**  In any
order of the map, where nothing expires and the cap on the map is not reached: every url of an
entry of a xorb becomes the link of that xorb, at any other path is what was there, and the
candidates of each hash are the first `n` of its urls, latest first, and the ones it had; a hash
without a url keeps its candidates.  The order makes no difference. -/
theorem manifest_rewrite_spec (publicBase : Bytes) (n : ℕ) {clock : ℕ → ℕ} {m : Manifest}
    {order : List Bytes} {signed : TTLMap Candidates} (hkeys : (m.xorbs.map Prod.fst).Nodup)
    (horder : order.Perm (m.xorbs.map Prod.fst)) (hsteady : signed.Undisturbed clock m.linked) :
    let r := rewriteRanged publicBase n clock order m signed
    (∀ hash i u, (Json.obj m).at? (urlPath hash i) = some (.str u) →
      (Json.obj r.1).at? (urlPath hash i) = some (.str (xorbLink publicBase hash))) ∧
    (∀ p, (∀ hash i u, p = urlPath hash i → (Json.obj m).at? p ≠ some (.str u)) →
      (Json.obj r.1).nodeAt p = (Json.obj m).nodeAt p) ∧
    (∀ hash, urlsOf m.xorbs hash = [] → r.2.cands hash = signed.cands hash) ∧
    (∀ hash, urlsOf m.xorbs hash ≠ [] ∨ (signed.cands hash).length ≤ n →
      r.2.cands hash = ((urlsOf m.xorbs hash).dedup.reverse ++
        (signed.cands hash).filter (· ∉ urlsOf m.xorbs hash)).take n) ∧
    ∀ order', order'.Perm (m.xorbs.map Prod.fst) →
      (rewriteRanged publicBase n clock order' m signed).1 = r.1 ∧
        ∀ hash, (rewriteRanged publicBase n clock order' m signed).2.cands hash =
          r.2.cands hash := by
  intro r
  obtain ⟨htree, hcands⟩ := rewriteRanged_spec publicBase n hkeys horder hsteady
  refine ⟨fun hash i u hu => ?_, fun p hp => ?_, fun hash hnil => ?_, fun hash hcapped => ?_, ?_⟩
  · rw [htree]
    exact rewriteManifest_url hu
  · rw [htree]
    exact rewriteManifest_nodeAt hp
  · rw [hcands, hnil, refreshed_nil]
  · rw [hcands, refreshed]
    split
    · next hnil =>
      rw [hnil] at hcapped ⊢
      have hle := hcapped.resolve_left (not_not_intro rfl)
      simp [List.take_of_length_le hle]
    · rfl
  · intro order' horder'
    obtain ⟨htree', hcands'⟩ := rewriteRanged_spec publicBase n hkeys horder' hsteady
    exact ⟨htree'.trans htree.symm, fun hash => (hcands' hash).trans (hcands hash).symm⟩

/-- A manifest with a xorb of two urls, one of which is listed twice, and one whose url is no
string. -/
def twoXorbs : Manifest :=
  [(lit "xorbs", .obj [
    (lit "h", .arr [.obj [(lit "url", .str (lit "u"))], .obj [(lit "url", .str (lit "v"))], .null,
      .obj [(lit "url", .str (lit "u"))]]),
    (lit "k", .arr [.obj [(lit "url", .null)]])])]

/-- One candidate from before. -/
def signedBefore : TTLMap Candidates :=
  (TTLMap.new 100 4).set 0 (lit "h") ⟨[lit "w"], List.nodup_singleton _⟩

theorem manifest_rewrite_spec_twoXorbs :
    (rewriteRanged (lit "b") 3 (fun _ => 1) [lit "k", lit "h"] twoXorbs signedBefore).2.cands
      (lit "h") = [lit "u", lit "v", lit "w"] := by
  have hsteady : signedBefore.Undisturbed (fun _ => 1) twoXorbs.linked := by
    refine ⟨fun k e he _ => ?_, fun _ _ => by decide, Or.inr (by decide +kernel)⟩
    rcases TTLMap.get?_set he with ⟨-, rfl⟩ | ⟨-, hold⟩
    · decide
    · cases hold
  have horder : [lit "k", lit "h"].Perm (twoXorbs.xorbs.map Prod.fst) := by decide
  have hspec := manifest_rewrite_spec (lit "b") 3 (by decide) horder hsteady
  exact (hspec.2.2.2.1 (lit "h") (Or.inl (by decide))).trans (by decide +kernel)

end XetDcCache
