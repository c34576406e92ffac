/-
The manifest cache (manifests.go).

The key of a manifest is its version, file id and `Range`; `path` makes one file name of the
three, so the cache can tell two keys apart just when their paths differ.  `trimLocked` evicts
the oldest entries over the cap: `trimLocked_order`, `mem_trimLocked_known` and
`trimLocked_lookup` say what it leaves in the order, among the known paths and on disk.
-/
import Mathlib.Data.List.AList
import XetDcCache.Text

namespace XetDcCache

/-! ### Paths -/

/-- A cleaned path, the name of a file. -/
abbrev Path := Bytes

def isContinuation (b : UInt8) : Bool := 0x80 ≤ b && b ≤ 0xBF

/-- The bytes that may follow the first byte of a rune, by that byte. -/
def secondByte (b₀ b₁ : UInt8) : Bool :=
  if b₀ = 0xE0 then 0xA0 ≤ b₁ && b₁ ≤ 0xBF
  else if b₀ = 0xED then 0x80 ≤ b₁ && b₁ ≤ 0x9F
  else if b₀ = 0xF0 then 0x90 ≤ b₁ && b₁ ≤ 0xBF
  else if b₀ = 0xF4 then 0x80 ≤ b₁ && b₁ ≤ 0x8F
  else isContinuation b₁

/-- The number of bytes `utf8.DecodeRune` reads; a byte that starts no rune is read alone. -/
def runeWidth : Bytes → ℕ
  | b₀ :: b₁ :: rest =>
    if 0xC2 ≤ b₀ && b₀ ≤ 0xDF && isContinuation b₁ then 2
    else
      match rest with
      | b₂ :: rest =>
        if 0xE0 ≤ b₀ && b₀ ≤ 0xEF && secondByte b₀ b₁ && isContinuation b₂ then 3
        else
          match rest with
          | b₃ :: _ =>
            if 0xF0 ≤ b₀ && b₀ ≤ 0xF4 && secondByte b₀ b₁ && isContinuation b₂ &&
                isContinuation b₃ then 4
            else 1
          | [] => 1
      | [] => 1
  | _ => 1

/-- `[0-9A-Za-z_-]`. -/
def isFileSafe (b : UInt8) : Bool :=
  isDigit b || (65 ≤ b && b ≤ 90) || (97 ≤ b && b ≤ 122) || b = 95 || b = 45

/-- `manifestUnsafe.ReplaceAllString(s, "_")`, when `skip` bytes of a rune are still to come. -/
def replaceUnsafe : ℕ → Bytes → Bytes
  | _, [] => []
  | skip + 1, _ :: s => replaceUnsafe skip s
  | 0, b :: s =>
    if isFileSafe b then b :: replaceUnsafe 0 s
    else lit "_" ++ replaceUnsafe (runeWidth (b :: s) - 1) s

/-- What `filepath.Clean` makes of the elements so far, the last first, and one more. -/
def cleanElem (rooted : Bool) (elems : List Bytes) (elem : Bytes) : List Bytes :=
  if elem = [] ∨ elem = lit "." then elems
  else if elem = lit ".." then
    match elems with
    | [] => if rooted then [] else [elem]
    | last :: rest => if last = lit ".." then elem :: elems else rest
  else elem :: elems

/-- `filepath.Clean`. -/
def clean (path : Bytes) : Path :=
  let rooted := lit "/" <+: path
  let elems := ((path.splitOn 47).foldl (cleanElem rooted) []).reverse
  if rooted then lit "/" ++ (lit "/").intercalate elems
  else if elems = [] then lit "." else (lit "/").intercalate elems

/-- `filepath.Join` of a directory and a name. -/
def joinPath (dir name : Bytes) : Path :=
  if dir ≠ [] then clean (dir ++ lit "/" ++ name) else if name ≠ [] then clean name else []

/-! ### The cache -/

structure ManifestKey where
  version : Bytes
  fileID : Bytes
  rangeKey : Bytes
deriving DecidableEq

/-- The files that hold manifests, by their paths. -/
abbrev ManifestFiles (α : Type*) := AList fun _ : Path => α

structure ManifestCache where
  dir : Bytes
  max : ℤ
  order : List Path
  known : Finset Path

namespace ManifestCache

/-- `path`, in the directory of the cache. -/
def pathIn (dir : Bytes) (k : ManifestKey) : Path :=
  let rk := replaceUnsafe 0 k.rangeKey
  let rk := if rk = [] then lit "full" else rk
  joinPath dir (k.version ++ lit "_" ++ k.fileID ++ lit "_" ++ rk ++ lit ".json")

def path (m : ManifestCache) (k : ManifestKey) : Path := pathIn m.dir k

variable {α : Type*}

/-- The loop of `trimLocked`; `removes` says of which files `os.Remove` succeeds. -/
def trimLoop (max : ℤ) (removes : Path → Bool) :
    List Path → Finset Path → ManifestFiles α → List Path × Finset Path × ManifestFiles α
  | [], known, files => ([], known, files)
  | oldest :: order, known, files =>
    if max < (oldest :: order).length then
      trimLoop max removes order (known.erase oldest)
        (if removes oldest then files.erase oldest else files)
    else (oldest :: order, known, files)

def trimLocked (m : ManifestCache) (removes : Path → Bool) (files : ManifestFiles α) :
    ManifestCache × ManifestFiles α :=
  if m.max ≤ 0 then (m, files)
  else
    let (order, known, files) := trimLoop m.max removes m.order m.known files
    ({ m with order := order, known := known }, files)

/-- `newManifestCache`; `infos` are the files found, by their age. -/
def new (dir : Bytes) (max : ℤ) (infos : List Path) (removes : Path → Bool)
    (files : ManifestFiles α) : ManifestCache × ManifestFiles α :=
  if max ≤ 0 then (⟨dir, max, [], ∅⟩, files)
  else trimLocked ⟨dir, max, infos, infos.toFinset⟩ removes files

/-- What `Get` reads; a file that holds `null` is read as none. -/
def get (m : ManifestCache) (k : ManifestKey) (files : ManifestFiles (Option α)) : Option α :=
  (files.lookup (m.path k)).join

/-- The part of `Put` under the mutex. -/
def putLocked (m : ManifestCache) (p : Path) (removes : Path → Bool) (files : ManifestFiles α) :
    ManifestCache × ManifestFiles α :=
  if m.max ≤ 0 then (m, files)
  else
    let m := if p ∈ m.known then m
      else { m with order := m.order ++ [p], known := insert p m.known }
    m.trimLocked removes files

/-! ### What trimming leaves -/

variable {removes : Path → Bool} {files : ManifestFiles α} {p : Path} {v : α}

/-- How many entries `trimLocked` evicts: the oldest, down to `max`. -/
def excess (max : ℤ) (order : List Path) : ℕ := order.length - max.toNat

theorem trimLoop_cons {max : ℤ} (h0 : 0 ≤ max) (oldest : Path) (order : List Path)
    (known : Finset Path) (files : ManifestFiles α) :
    trimLoop max removes (oldest :: order) known files =
      if excess max (oldest :: order) = 0 then (oldest :: order, known, files)
      else trimLoop max removes order (known.erase oldest)
        (if removes oldest then files.erase oldest else files) := by
  have hiff : max < (oldest :: order).length ↔ ¬excess max (oldest :: order) = 0 := by
    rw [excess]
    omega
  rw [trimLoop]
  by_cases h : excess max (oldest :: order) = 0
  · rw [if_pos h, if_neg (fun hlt => hiff.mp hlt h)]
  · rw [if_neg h, if_pos (hiff.mpr h)]

theorem excess_cons {max : ℤ} {oldest : Path} {order : List Path}
    (h : ¬excess max (oldest :: order) = 0) :
    excess max (oldest :: order) = excess max order + 1 := by
  rw [excess, List.length_cons] at h ⊢
  rw [excess]
  omega

theorem trimLoop_order {max : ℤ} (h0 : 0 ≤ max) : ∀ (order : List Path) (known : Finset Path)
    (files : ManifestFiles α),
    (trimLoop max removes order known files).1 = order.drop (excess max order) := by
  intro order
  induction order with
  | nil => exact fun _ _ => List.drop_nil.symm
  | cons oldest order ih =>
    intro known files
    rw [trimLoop_cons h0]
    split
    · next h => rw [h, List.drop_zero]
    · next h => rw [ih, excess_cons h, List.drop_succ_cons]

theorem mem_trimLoop_known {max : ℤ} (h0 : 0 ≤ max) : ∀ {order : List Path} {known : Finset Path}
    {files : ManifestFiles α}, p ∈ (trimLoop max removes order known files).2.1 ↔
      p ∈ known ∧ p ∉ order.take (excess max order) := by
  intro order
  induction order with
  | nil =>
    intro known files
    rw [trimLoop, List.take_nil]
    exact (and_iff_left List.not_mem_nil).symm
  | cons oldest order ih =>
    intro known files
    rw [trimLoop_cons h0]
    split
    · next h =>
      rw [h, List.take_zero]
      exact (and_iff_left List.not_mem_nil).symm
    · next h =>
      rw [ih, excess_cons h, List.take_succ_cons, Finset.mem_erase, List.mem_cons]
      tauto

/-- A file goes only if it is evicted and `os.Remove` succeeds. -/
theorem trimLoop_lookup {max : ℤ} (h0 : 0 ≤ max) : ∀ {order : List Path} {known : Finset Path}
    {files : ManifestFiles α}, (trimLoop max removes order known files).2.2.lookup p =
      if p ∈ order.take (excess max order) ∧ removes p then none else files.lookup p := by
  intro order
  induction order with
  | nil =>
    intro known files
    rw [trimLoop, List.take_nil, if_neg (fun h => List.not_mem_nil h.1)]
  | cons oldest order ih =>
    intro known files
    rw [trimLoop_cons h0]
    split
    · next h => rw [h, List.take_zero, if_neg (fun h => List.not_mem_nil h.1)]
    · next h =>
      rw [ih, excess_cons h, List.take_succ_cons]
      have herase : (if removes oldest then files.erase oldest else files).lookup p =
          if p = oldest ∧ removes p then none else files.lookup p := by
        by_cases hp : p = oldest
        · rw [hp]
          by_cases hr : removes oldest <;> simp [hr]
        · by_cases hr : removes oldest <;> simp [hr, hp, AList.lookup_erase_ne hp]
      rw [herase]
      simp only [List.mem_cons]
      grind

section Trimmed

variable {m : ManifestCache}

theorem trimLocked_order (hmax : 0 < m.max) :
    (m.trimLocked removes files).1.order = m.order.drop (excess m.max m.order) := by
  rw [trimLocked, if_neg hmax.not_ge]
  exact trimLoop_order hmax.le _ _ _

theorem mem_trimLocked_known (hmax : 0 < m.max) :
    p ∈ (m.trimLocked removes files).1.known ↔
      p ∈ m.known ∧ p ∉ m.order.take (excess m.max m.order) := by
  rw [trimLocked, if_neg hmax.not_ge]
  exact mem_trimLoop_known hmax.le

theorem trimLocked_lookup (hmax : 0 < m.max) :
    (m.trimLocked removes files).2.lookup p =
      if p ∈ m.order.take (excess m.max m.order) ∧ removes p then none else files.lookup p := by
  rw [trimLocked, if_neg hmax.not_ge]
  exact trimLoop_lookup hmax.le

theorem trimLocked_of_not_pos (hmax : m.max ≤ 0) : m.trimLocked removes files = (m, files) := by
  rw [trimLocked, if_pos hmax]

@[simp] theorem trimLocked_max (m : ManifestCache) (removes : Path → Bool)
    (files : ManifestFiles α) : (m.trimLocked removes files).1.max = m.max := by
  rw [trimLocked]
  split
  · rfl
  · rfl

end Trimmed

theorem trimLocked_files {m : ManifestCache}
    (h : (m.trimLocked removes files).2.lookup p = some v) :
    files.lookup p = some v := by
  by_cases hmax : 0 < m.max
  · rw [trimLocked_lookup hmax] at h
    split at h
    · cases h
    · exact h
  · rwa [trimLocked_of_not_pos (not_lt.mp hmax)] at h

@[simp] theorem trimLocked_dir (m : ManifestCache) (removes : Path → Bool)
    (files : ManifestFiles α) : (m.trimLocked removes files).1.dir = m.dir := by
  rw [trimLocked]
  split
  · rfl
  · rfl

/-- The cache with `p` at the end of the order, unless it is known. -/
def enter (m : ManifestCache) (p : Path) : ManifestCache :=
  if p ∈ m.known then m else { m with order := m.order ++ [p], known := insert p m.known }

theorem putLocked_eq {m : ManifestCache} (hmax : 0 < m.max) (p : Path) :
    m.putLocked p removes files = (m.enter p).trimLocked removes files := by
  rw [putLocked, if_neg hmax.not_ge]
  rfl

theorem putLocked_of_not_pos {m : ManifestCache} (hmax : m.max ≤ 0) (p : Path) :
    m.putLocked p removes files = (m, files) := by
  rw [putLocked, if_pos hmax]

@[simp] theorem enter_max (m : ManifestCache) (p : Path) : (m.enter p).max = m.max := by
  rw [enter]
  split <;> rfl

theorem mem_enter_order {m : ManifestCache} {p q : Path} (h : q ∈ (m.enter p).order) :
    q ∈ m.order ∨ q = p := by
  rw [enter] at h
  split at h
  · exact Or.inl h
  · simpa using h

/-- The order after a `Put` has the paths it had and the one that was put. -/
theorem mem_putLocked_order {m : ManifestCache} {q : Path}
    (h : q ∈ (m.putLocked p removes files).1.order) : q ∈ m.order ∨ q = p := by
  by_cases hmax : 0 < m.max
  · rw [putLocked_eq hmax, trimLocked_order (by rwa [enter_max])] at h
    exact mem_enter_order (List.mem_of_mem_drop h)
  · rw [putLocked_of_not_pos (not_lt.mp hmax)] at h
    exact Or.inl h

/-- A `Put` leaves the files alone that are not in the order. -/
theorem putLocked_frame {m : ManifestCache} {q : Path} (hq : q ∉ m.order) (hp : q ≠ p) :
    (m.putLocked p removes files).2.lookup q = files.lookup q := by
  by_cases hmax : 0 < m.max
  · rw [putLocked_eq hmax, trimLocked_lookup (by rwa [enter_max]), if_neg]
    rintro ⟨hmem, -⟩
    exact (mem_enter_order (List.mem_of_mem_take hmem)).elim hq hp
  · rw [putLocked_of_not_pos (not_lt.mp hmax)]

/-- With a cap, a boot queues what it finds. -/
theorem mem_new_order {dir : Bytes} {max : ℤ} {infos : List Path}
    (h : p ∈ (new dir max infos removes files).1.order) : 0 < max ∧ p ∈ infos := by
  rw [new] at h
  split at h
  · exact absurd h List.not_mem_nil
  · next hmax =>
    have hpos := not_le.mp hmax
    rw [trimLocked_order hpos] at h
    exact ⟨hpos, List.mem_of_mem_drop h⟩

theorem new_frame {dir : Bytes} {max : ℤ} {infos : List Path} (h : 0 < max → p ∉ infos) :
    (new dir max infos removes files).2.lookup p = files.lookup p := by
  rw [new]
  split
  · rfl
  · next hmax =>
    have hpos := not_le.mp hmax
    rw [trimLocked_lookup hpos, if_neg fun hmem => h hpos (List.mem_of_mem_take hmem.1)]

theorem putLocked_files {m : ManifestCache} {q : Path}
    (h : (m.putLocked q removes files).2.lookup p = some v) : files.lookup p = some v := by
  rw [putLocked] at h
  split at h
  · exact h
  · exact trimLocked_files h

@[simp] theorem putLocked_dir (m : ManifestCache) (q : Path) (removes : Path → Bool)
    (files : ManifestFiles α) : (m.putLocked q removes files).1.dir = m.dir := by
  rw [putLocked]
  split
  · rfl
  · rw [trimLocked_dir]
    split
    · rfl
    · rfl

theorem new_files {dir : Bytes} {max : ℤ} {infos : List Path}
    (h : (new dir max infos removes files).2.lookup p = some v) : files.lookup p = some v := by
  rw [new] at h
  split at h
  · exact h
  · exact trimLocked_files h

@[simp] theorem new_dir (dir : Bytes) (max : ℤ) (infos : List Path) (removes : Path → Bool)
    (files : ManifestFiles α) : (new dir max infos removes files).1.dir = dir := by
  rw [new]
  split
  · rfl
  · exact trimLocked_dir _ removes files

end ManifestCache

/-! ### Puts in two halves -/

/-- The cache with its files; `putting` are the `Put`s that have renamed their file into place and
have yet to take the mutex. -/
structure ManifestStore (α : Type*) where
  cache : ManifestCache
  files : ManifestFiles α
  putting : List Path

namespace ManifestStore

variable {α : Type*}

/-- `Put` up to its rename. -/
def rename (s : ManifestStore α) (k : ManifestKey) (v : α) : ManifestStore α :=
  { s with
    files := s.files.insert (s.cache.path k) v
    putting := s.putting ++ [s.cache.path k] }

/-- The rest of the `i`-th of the `Put`s under way. -/
def index (s : ManifestStore α) (i : ℕ) (removes : Path → Bool) : Option (ManifestStore α) :=
  match s.putting[i]? with
  | none => none
  | some p =>
    let (cache, files) := s.cache.putLocked p removes s.files
    some ⟨cache, files, s.putting.eraseIdx i⟩

/-- A new process on the directory of the old one. -/
def restart (s : ManifestStore α) (infos : List Path) (removes : Path → Bool) : ManifestStore α :=
  let (cache, files) := ManifestCache.new s.cache.dir s.cache.max infos removes s.files
  ⟨cache, files, []⟩

theorem index_eq_some {s s' : ManifestStore α} {i : ℕ} {removes : Path → Bool} :
    s.index i removes = some s' ↔ ∃ p, s.putting[i]? = some p ∧
      s' = ⟨(s.cache.putLocked p removes s.files).1, (s.cache.putLocked p removes s.files).2,
        s.putting.eraseIdx i⟩ := by
  rw [index]
  cases s.putting[i]? with
  | none => simp
  | some p => simp [eq_comm]

end ManifestStore

end XetDcCache
