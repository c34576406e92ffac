/-
Recency lists.

The order of a least-recently-used list, said without reference to how it is
kept: `Recent uses order` says that `order` lists the keys it holds by their
last occurrence in the history `uses`.  Using a key (`Recent.use`) and dropping
keys (`Recent.sublist`) keep it.  `LongestSuffix` is what evicting from the old
end until a limit is met leaves (`longestSuffix_drop`).
-/
import Mathlib.Data.List.Dedup
import Mathlib.Data.List.Infix

namespace Recency

variable {κ : Type*} [DecidableEq κ]

/-- `order` lists the keys it holds by their last occurrence in `uses`. -/
def Recent (uses order : List κ) : Prop := order = uses.dedup.filter (· ∈ order)

theorem dedup_concat (uses : List κ) (k : κ) :
    (uses ++ [k]).dedup = uses.dedup.filter (· ≠ k) ++ [k] := by
  induction uses with
  | nil => simp
  | cons a uses ih =>
    rw [List.cons_append, List.dedup_cons, List.dedup_cons, ih]
    by_cases ha : a ∈ uses
    · rw [if_pos ha, if_pos (List.mem_append_left _ ha)]
    · rw [if_neg ha]
      by_cases hk : a = k
      · subst hk
        rw [if_pos (by simp), List.filter_cons_of_neg (by simp)]
      · rw [if_neg (by simp [ha, hk]), List.filter_cons_of_pos (by simpa using hk)]
        rfl

theorem filter_mem_of_sublist {l' l : List κ} (h : l'.Sublist l) (hl : l.Nodup) :
    l.filter (· ∈ l') = l' := by
  induction h with
  | slnil => rfl
  | @cons l₁ l₂ a hs ih =>
    obtain ⟨ha, hl₂⟩ := List.nodup_cons.mp hl
    rw [List.filter_cons_of_neg (by simpa using fun hm => ha (hs.subset hm))]
    exact ih hl₂
  | @cons_cons l₁ l₂ a hs ih =>
    obtain ⟨ha, hl₂⟩ := List.nodup_cons.mp hl
    rw [List.filter_cons_of_pos (by simp)]
    have hcongr : l₂.filter (· ∈ a :: l₁) = l₂.filter (· ∈ l₁) := by
      refine List.filter_congr fun x hx => ?_
      have hne : x ≠ a := fun h => ha (h ▸ hx)
      simp [hne]
    rw [hcongr, ih hl₂]

theorem Recent.nodup {uses order : List κ} (h : Recent uses order) : order.Nodup := by
  rw [h]
  exact uses.nodup_dedup.filter _

/-- Using a key moves it to the recent end. -/
theorem Recent.use {uses order : List κ} (h : Recent uses order) (k : κ) :
    Recent (uses ++ [k]) (order.filter (· ≠ k) ++ [k]) := by
  rw [Recent, dedup_concat, List.filter_append, List.filter_filter]
  congr 1
  · calc order.filter (· ≠ k)
        = (uses.dedup.filter (· ∈ order)).filter (· ≠ k) := congrArg _ h
      _ = uses.dedup.filter _ := by
        rw [List.filter_filter]
        refine List.filter_congr fun x _ => ?_
        by_cases hx : x = k
        · simp [hx]
        · simp [hx]
  · simp

/-- A key that is not held may be used without effect. -/
theorem Recent.use_absent {uses order : List κ} (h : Recent uses order) {k : κ}
    (hk : k ∉ order) : Recent (uses ++ [k]) order := by
  rw [Recent, dedup_concat, List.filter_append, List.filter_filter]
  have hnil : [k].filter (· ∈ order) = [] := by simp [hk]
  rw [hnil, List.append_nil]
  calc order = uses.dedup.filter (· ∈ order) := h
    _ = _ := by
      refine List.filter_congr fun x _ => ?_
      by_cases hx : x = k
      · simp [hx, hk]
      · simp [hx]

/-- Dropping keys keeps the others in order. -/
theorem Recent.sublist {uses order order' : List κ} (h : Recent uses order)
    (hs : order'.Sublist order) : Recent uses order' := by
  have hf := filter_mem_of_sublist hs h.nodup
  calc order' = order.filter (· ∈ order') := hf.symm
    _ = (uses.dedup.filter (· ∈ order)).filter (· ∈ order') := congrArg _ h
    _ = uses.dedup.filter (· ∈ order') := by
      rw [List.filter_filter]
      refine List.filter_congr fun x _ => ?_
      by_cases hx : x ∈ order'
      · simp [hx, hs.subset hx]
      · simp [hx]

/-- Using distinct keys that are not held appends them. -/
theorem Recent.use_new {uses order : List κ} (h : Recent uses order) :
    ∀ {new : List κ}, new.Nodup → (∀ k ∈ new, k ∉ order) →
      Recent (uses ++ new) (order ++ new) := by
  intro new
  induction new generalizing uses order with
  | nil =>
    intro _ _
    simpa using h
  | cons k new ih =>
    intro hnd hnew
    obtain ⟨hk, hnd'⟩ := List.nodup_cons.mp hnd
    have hko : k ∉ order := hnew k List.mem_cons_self
    have hfilter : order.filter (· ≠ k) = order :=
      List.filter_eq_self.mpr fun x hx => by
        have hxk : x ≠ k := fun h => hko (h ▸ hx)
        simpa using hxk
    have hstep : Recent (uses ++ [k]) (order ++ [k]) := by
      have := h.use k
      rwa [hfilter] at this
    have := ih hstep hnd' (fun x hx => by
      rw [List.mem_append, List.mem_singleton]
      rintro (hxo | rfl)
      · exact hnew x (List.mem_cons_of_mem _ hx) hxo
      · exact hk hx)
    simpa using this

/-- Of a list that is cut to its first `n + 1` keys, taking a key out leaves the first `n` of what
taking it out of the whole list leaves. -/
theorem take_filter_take (k : κ) : ∀ {l : List κ} (n : ℕ), l.Nodup →
    ((l.take (n + 1)).filter (· ≠ k)).take n = (l.filter (· ≠ k)).take n := by
  intro l
  induction l with
  | nil =>
    intro n _
    rfl
  | cons a l ih =>
    intro n hl
    obtain ⟨ha, hl⟩ := List.nodup_cons.mp hl
    rw [List.take_succ_cons]
    by_cases hk : a = k
    · subst hk
      -- the key is not in the rest
      have hself : l.filter (· ≠ a) = l :=
        List.filter_eq_self.mpr fun x hx => by simpa using fun h : x = a => ha (h ▸ hx)
      have hself' : (l.take n).filter (· ≠ a) = l.take n :=
        List.filter_eq_self.mpr fun x hx => by
          simpa using fun h : x = a => ha (h ▸ List.mem_of_mem_take hx)
      rw [List.filter_cons_of_neg (by simp), List.filter_cons_of_neg (by simp), hself, hself',
        List.take_take, min_self]
    · rw [List.filter_cons_of_pos (by simpa using hk), List.filter_cons_of_pos (by simpa using hk)]
      cases n with
      | zero => rfl
      | succ n => rw [List.take_succ_cons, List.take_succ_cons, ih n hl]

/-- `l'` is the longest suffix of `l` that satisfies `fits`. -/
def LongestSuffix {α : Type*} (fits : List α → Prop) (l l' : List α) : Prop :=
  l' <:+ l ∧ fits l' ∧ ∀ s, s <:+ l → fits s → s.length ≤ l'.length

/-- Dropping from the front while the rest does not fit leaves the longest
suffix that fits. -/
theorem longestSuffix_drop {α : Type*} {fits : List α → Prop} {l : List α} {n : ℕ}
    (hn : n ≤ l.length) (hover : ∀ m < n, ¬ fits (l.drop m)) (hfit : fits (l.drop n)) :
    LongestSuffix fits l (l.drop n) := by
  refine ⟨List.drop_suffix n l, hfit, fun s hs hfs => ?_⟩
  by_contra hlen
  rw [List.length_drop] at hlen
  have hle := hs.length_le
  have hdrop : s = l.drop (l.length - s.length) := (List.suffix_iff_eq_drop.mp hs)
  exact hover (l.length - s.length) (by omega) (hdrop ▸ hfs)

section Suffix

variable {α : Type*} {fits fits' : List α → Prop} {l₁ l₂ s₁ s₂ : List α}

theorem LongestSuffix.refl (h : fits l₁) : LongestSuffix fits l₁ l₁ :=
  ⟨List.suffix_rfl, h, fun _ hs _ => hs.length_le⟩

/-- An element in front of a list that does not fit changes nothing. -/
theorem LongestSuffix.cons {a : α} (h : LongestSuffix fits l₁ s₁) (hover : ¬ fits (a :: l₁)) :
    LongestSuffix fits (a :: l₁) s₁ := by
  refine ⟨h.1.trans (List.suffix_cons a l₁), h.2.1, fun s hs hfit => ?_⟩
  rcases List.suffix_cons_iff.mp hs with rfl | hs
  · exact absurd hfit hover
  · exact h.2.2 s hs hfit

/-- A longer list with a laxer limit keeps at least as much. -/
theorem LongestSuffix.mono (h₁ : LongestSuffix fits l₁ s₁) (h₂ : LongestSuffix fits' l₂ s₂)
    (hl : l₁ <:+ l₂) (hfits : fits s₁ → fits' s₁) : s₁ <:+ s₂ :=
  List.suffix_of_suffix_length_le (h₁.1.trans hl) h₂.1
    (h₂.2.2 s₁ (h₁.1.trans hl) (hfits h₁.2.1))

theorem LongestSuffix.unique (h₁ : LongestSuffix fits l₁ s₁) (h₂ : LongestSuffix fits l₁ s₂) :
    s₁ = s₂ :=
  (h₁.mono h₂ List.suffix_rfl id).eq_of_length
    (le_antisymm (h₂.2.2 s₁ h₁.1 h₁.2.1) (h₁.2.2 s₂ h₂.1 h₂.2.1))

/-- An element that always stays. -/
theorem LongestSuffix.concat {a : α} (h : LongestSuffix (fun l => fits (l ++ [a])) l₁ s₁) :
    LongestSuffix fits (l₁ ++ [a]) (s₁ ++ [a]) := by
  refine ⟨List.suffix_append_self_iff.mpr h.1, h.2.1, fun s hs hfit => ?_⟩
  rcases List.suffix_concat_iff.mp hs with rfl | ⟨t, rfl, ht⟩
  · exact Nat.zero_le _
  · have := h.2.2 t ht hfit
    simpa using this

theorem LongestSuffix.map {β : Type*} {fits' : List β → Prop} {f : α → β}
    (h : LongestSuffix fits l₁ s₁) (hfits : ∀ t, t <:+ l₁ → (fits' (t.map f) ↔ fits t)) :
    LongestSuffix fits' (l₁.map f) (s₁.map f) := by
  refine ⟨h.1.map f, (hfits s₁ h.1).mpr h.2.1, fun s hs hfit => ?_⟩
  have hdrop := List.suffix_iff_eq_drop.mp hs
  rw [← List.map_drop] at hdrop
  have hsuf := List.drop_suffix ((l₁.map f).length - s.length) l₁
  rw [hdrop] at hfit
  have hle := h.2.2 _ hsuf ((hfits _ hsuf).mp hfit)
  have hlen := congrArg List.length hdrop
  simp only [List.length_map] at hle hlen ⊢
  omega

end Suffix

end Recency
