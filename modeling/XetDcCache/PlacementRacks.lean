/-
Cache nodes at rack scope (placement_locality_sim.py).

At scope `rack` the name of a cache is the text of the row's `rack_id`, or of its `host_id` if
the log has no such column; `simulate` puts the GPU type before it.  A missing value prints as
`nan` or `None`.

* `simulateStep_local`, `tier2Step_local` — a start reads and writes the cache of its node only;
* `rack_nodes_physical_iff` — when the nodes are physical ones.
-/
import XetDcCache.PlacementWindow

namespace XetDcCache

namespace Study

variable {τ : Type*}

/-! ### One cache a start -/

section Local

variable [Sub τ] [LT τ] [DecidableLT τ] {κ σ β : Type*}

/-- The step tells by the cache of the node what it does, and leaves the other caches alone. -/
structure Local (step : Caches κ τ → Option (β × Caches κ τ)) (node : String) : Prop where
  reads : ∀ cs cs', cs node = cs' node →
    (step cs).map (fun r => (r.1, r.2 node)) = (step cs').map fun r => (r.1, r.2 node)
  frame : ∀ cs r, step cs = some r → ∀ other, other ≠ node → r.2 other = cs other

variable [DecidableEq κ]

theorem access_local (node : String) (key : κ) (size : ℕ) (now : τ) :
    Local (fun cs : Caches κ τ => cs.access node key size now) node := by
  constructor
  · intro cs cs' heq
    simp only [Caches.access, heq, Option.map_map]
    refine congrArg (fun f => Option.map f _) ?_
    funext r
    simp
  · intro cs r hstep other hne
    obtain ⟨r', -, rfl⟩ := Option.map_eq_some_iff.mp hstep
    exact Function.update_of_ne hne _ _

theorem simulateStep_local (scope : Scope) (row : WorkerStart τ) :
    Local (fun cs => simulateStep scope cs row) (cacheNode scope row) :=
  access_local _ _ _ _

theorem fetchXorbs_local (node : String) (now : τ) (xorbs : List (String × ℕ)) (hitBytes : ℕ) :
    Local (fun cs => fetchXorbs node now xorbs cs hitBytes) node := by
  induction xorbs generalizing hitBytes with
  | nil =>
    refine ⟨fun cs cs' heq => by simp [fetchXorbs, heq], fun cs r hstep other _ => ?_⟩
    rw [fetchXorbs, Option.some_inj] at hstep
    rw [← hstep]
  | cons x rest ih =>
    obtain ⟨hash, size⟩ := x
    have hone := access_local (τ := τ) node hash size now
    constructor
    · intro cs cs' heq
      have hreads := hone.reads cs cs' heq
      simp only [fetchXorbs]
      cases hacc : cs.access node hash size now with
      | none =>
        rw [hacc, Option.map_none, eq_comm, Option.map_eq_none_iff] at hreads
        rw [hreads]
      | some r =>
        rw [hacc, Option.map_some, eq_comm, Option.map_eq_some_iff] at hreads
        obtain ⟨r', hacc', hr'⟩ := hreads
        obtain ⟨hhit, hnode⟩ := Prod.mk.inj hr'
        simp only [hacc', hhit]
        exact (ih _).reads r.2 r'.2 hnode.symm
    · intro cs r hstep other hne
      simp only [fetchXorbs] at hstep
      cases hacc : cs.access node hash size now with
      | none =>
        rw [hacc] at hstep
        cases hstep
      | some r' =>
        rw [hacc] at hstep
        exact ((ih _).frame r'.2 r hstep other hne).trans (hone.frame cs r' hacc other hne)

theorem tier2Step_local (scope : Scope) (xorbMap : String × String → List (String × ℕ))
    (row : WorkerStart τ) :
    Local (fun cs => tier2Step scope xorbMap cs row) (scopeKey row scope) :=
  fetchXorbs_local _ _ _ _

end Local

/-! ### The column `rack_id` -/

/-- A cell as pandas reads it. -/
inductive Cell
  | nan
  | none
  | text (s : String)
deriving DecidableEq, Repr

namespace Cell

/-- `str` of a cell. -/
def str : Cell → String
  | .nan => "nan"
  | .none => "None"
  | .text s => s

/-- No value. -/
def Missing : Cell → Prop
  | .nan => True
  | .none => True
  | .text _ => False

theorem not_missing_iff {c : Cell} : ¬ c.Missing ↔ ∃ s, c = .text s := by
  cases c <;> simp [Missing]

/-- Two cells print alike. -/
theorem str_eq_iff {c c' : Cell} : c.str = c'.str ↔
    c = c' ∨ (c.Missing ∧ c' = .text c.str) ∨ (c'.Missing ∧ c = .text c'.str) := by
  cases c <;> cases c' <;> simp [str, Missing, eq_comm]

end Cell

/-- A log whose rows have a cell for the rack, which is not read if there is no such column. -/
structure RackLog (τ : Type*) where
  hasColumn : Bool
  rows : List (WorkerStart τ × Cell)

namespace RackLog

/-- The row as the loops see it. -/
def read (log : RackLog τ) (row : WorkerStart τ × Cell) : WorkerStart τ :=
  { row.1 with rackId := if log.hasColumn then some row.2.str else none }

def events (log : RackLog τ) : List (WorkerStart τ) := log.rows.map log.read

/-- The row has no rack id. -/
def NoRack (log : RackLog τ) (row : WorkerStart τ × Cell) : Prop :=
  log.hasColumn → row.2.Missing

/-- Two starts use one cache in `simulate` or in `simulate_tier2`. -/
def SharesCache (log : RackLog τ) (row row' : WorkerStart τ × Cell) : Prop :=
  cacheNode .rack (log.read row) = cacheNode .rack (log.read row') ∨
    scopeKey (log.read row) .rack = scopeKey (log.read row') .rack

/-- Two starts ran in one datacenter, and on one host if the first has no rack id. -/
def SamePlace (log : RackLog τ) (row row' : WorkerStart τ × Cell) : Prop :=
  row.1.datacenter = row'.1.datacenter ∧ (log.NoRack row → row.1.hostId = row'.1.hostId)

/-- No text stands for two places. -/
structure Apart (log : RackLog τ) : Prop where
  /-- A rack name is one of a datacenter. -/
  racks : log.hasColumn → ∀ row ∈ log.rows, ∀ row' ∈ log.rows, ∀ s,
    row.2 = .text s → row'.2 = .text s → row.1.datacenter = row'.1.datacenter
  /-- The rows that miss a value in the same way are of one host. -/
  missing : log.hasColumn → ∀ row ∈ log.rows, ∀ row' ∈ log.rows, row.2.Missing →
    row.2 = row'.2 → row.1.datacenter = row'.1.datacenter ∧ row.1.hostId = row'.1.hostId
  /-- So is a rack that has the name of a missing value. -/
  named : log.hasColumn → ∀ row ∈ log.rows, ∀ row' ∈ log.rows, row.2.Missing →
    row'.2 = .text row.2.str →
    row.1.datacenter = row'.1.datacenter ∧ row.1.hostId = row'.1.hostId
  /-- With no column, a host name is one of a datacenter. -/
  hosts : log.hasColumn = false → ∀ row ∈ log.rows, ∀ row' ∈ log.rows,
    row.1.hostId = row'.1.hostId → row.1.datacenter = row'.1.datacenter
  /-- GPU types do not run into the node. -/
  printed : ∀ row ∈ log.rows, ∀ row' ∈ log.rows, row.1.gpuType ≠ row'.1.gpuType →
    cacheNode .rack (log.read row) = cacheNode .rack (log.read row') → log.SamePlace row row'

variable {log : RackLog τ}

theorem scopeKey_read (row : WorkerStart τ × Cell) :
    scopeKey (log.read row) .rack = if log.hasColumn then row.2.str else row.1.hostId := by
  rw [scopeKey, read]
  split <;> rfl

/-- With one GPU type the names of the caches are the nodes. -/
theorem cacheNode_read {row row' : WorkerStart τ × Cell} (h : row.1.gpuType = row'.1.gpuType) :
    cacheNode .rack (log.read row) = cacheNode .rack (log.read row') ↔
      scopeKey (log.read row) .rack = scopeKey (log.read row') .rack := by
  have hgpu : (log.read row).gpuType = (log.read row').gpuType := h
  rw [cacheNode, cacheNode, hgpu, String.append_right_inj]

/-- Two starts on one node, where no text stands for two places. -/
theorem Apart.samePlace (h : log.Apart) {row row' : WorkerStart τ × Cell} (hrow : row ∈ log.rows)
    (hrow' : row' ∈ log.rows)
    (hkey : scopeKey (log.read row) .rack = scopeKey (log.read row') .rack) :
    log.SamePlace row row' := by
  rw [scopeKey_read, scopeKey_read] at hkey
  cases hcol : log.hasColumn with
  | false =>
    rw [hcol, if_neg Bool.false_ne_true, if_neg Bool.false_ne_true] at hkey
    exact ⟨h.hosts hcol row hrow row' hrow' hkey, fun _ => hkey⟩
  | true =>
    rw [hcol, if_pos rfl, if_pos rfl, Cell.str_eq_iff] at hkey
    rcases hkey with heq | ⟨hmiss, hname⟩ | ⟨hmiss, hname⟩
    · by_cases hmiss : row.2.Missing
      · obtain ⟨hdc, hhost⟩ := h.missing hcol row hrow row' hrow' hmiss heq
        exact ⟨hdc, fun _ => hhost⟩
      · obtain ⟨s, hs⟩ := Cell.not_missing_iff.mp hmiss
        exact ⟨h.racks hcol row hrow row' hrow' s hs (heq ▸ hs),
          fun hno => absurd (hno hcol) hmiss⟩
    · obtain ⟨hdc, hhost⟩ := h.named hcol row hrow row' hrow' hmiss hname
      exact ⟨hdc, fun _ => hhost⟩
    · obtain ⟨hdc, hhost⟩ := h.named hcol row' hrow' row hrow hmiss hname
      exact ⟨hdc.symm, fun _ => hhost.symm⟩

/-- **Rack nodes are physical**: two starts share a cache only if they ran in one datacenter, and
on one host if the first has no rack id.  This is so exactly if no text stands for two places. -/
theorem rack_nodes_physical_iff (log : RackLog τ) :
    (∀ row ∈ log.rows, ∀ row' ∈ log.rows, log.SharesCache row row' → log.SamePlace row row') ↔
      log.Apart := by
  constructor
  · intro h
    have hkey : ∀ row ∈ log.rows, ∀ row' ∈ log.rows,
        scopeKey (log.read row) .rack = scopeKey (log.read row') .rack → log.SamePlace row row' :=
      fun row hrow row' hrow' hkey => h row hrow row' hrow' (Or.inr hkey)
    have hstr : log.hasColumn → ∀ row ∈ log.rows, ∀ row' ∈ log.rows, row.2.str = row'.2.str →
        log.SamePlace row row' := by
      intro hcol row hrow row' hrow' hstr
      refine hkey row hrow row' hrow' ?_
      rw [scopeKey_read, scopeKey_read, if_pos hcol, if_pos hcol, hstr]
    refine ⟨?_, ?_, ?_, ?_, ?_⟩
    · intro hcol row hrow row' hrow' s hs hs'
      exact (hstr hcol row hrow row' hrow' (by rw [hs, hs'])).1
    · intro hcol row hrow row' hrow' hmiss heq
      have hsame := hstr hcol row hrow row' hrow' (by rw [heq])
      exact ⟨hsame.1, hsame.2 fun _ => hmiss⟩
    · intro hcol row hrow row' hrow' hmiss hname
      have hsame := hstr hcol row hrow row' hrow' (by rw [hname]; rfl)
      exact ⟨hsame.1, hsame.2 fun _ => hmiss⟩
    · intro hcol row hrow row' hrow' hhost
      refine (hkey row hrow row' hrow' ?_).1
      rw [scopeKey_read, scopeKey_read, hcol, if_neg Bool.false_ne_true,
        if_neg Bool.false_ne_true, hhost]
    · exact fun row hrow row' hrow' _ hnode => h row hrow row' hrow' (Or.inl hnode)
  · rintro h row hrow row' hrow' (hnode | hkey)
    · by_cases hgpu : row.1.gpuType = row'.1.gpuType
      · exact h.samePlace hrow hrow' ((cacheNode_read hgpu).mp hnode)
      · exact h.printed row hrow row' hrow' hgpu hnode
    · exact h.samePlace hrow hrow' hkey

end RackLog

/-- The start of a worker on a host of a datacenter. -/
def WorkerStart.inDatacenter (ts : ℕ) (hostId datacenter : String) : WorkerStart ℕ :=
  ⟨ts, "org/model", "main", hostId, "a", datacenter, 1, none⟩

/-- Two starts in two datacenters whose racks are missing. -/
def twoWithoutRack : RackLog ℕ :=
  ⟨true, [(.inDatacenter 0 "h" "d", .nan), (.inDatacenter 5 "k" "e", .nan)]⟩

/-- The second start hits in the cache of the first. -/
theorem missing_rack_hits :
    simulate twoWithoutRack.events .rack 2 none = some [false, true] ∧
      ¬ ∀ row ∈ twoWithoutRack.rows, ∀ row' ∈ twoWithoutRack.rows,
        twoWithoutRack.SharesCache row row' → twoWithoutRack.SamePlace row row' := by
  refine ⟨by decide +kernel, fun h => ?_⟩
  have hplace := h _ List.mem_cons_self _ (List.mem_cons_of_mem _ List.mem_cons_self)
    (Or.inr rfl)
  exact absurd hplace.1 (by decide)

end Study

end XetDcCache
