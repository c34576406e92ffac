/-
The exposition of the shim (prometheus.go) and the scraper that reads it (Scrape).

A text is a list of lines; the samples are the lines that are no comment. `%q` writes a label
byte by byte and rune by rune (`GoChar.quote`), so everything the scraper makes of a label
follows from what one of them is written as (`quote_cases`):

* `quoted_escape`, `brace_mem_escape` — a label always ends at its own quote, and a brace in it
  is written as it is;
* `escape_eq` — it is read as it was when nothing in it had to be escaped;
* `readLine_sample` — so a sample is read back just when all its labels are plain;
* `lines_ok` — only a peer can make a label that is not.

The scraper does not take the escapes back, and its line pattern ends the labels at the first
closing brace: `scrape_reads_back_iff` says which peers come through.
-/
import XetDcCache.Scrape
import XetDcCache.Server

namespace XetDcCache

/-! ### Go strings -/

/-- What `range` finds in a Go string: a rune, or a byte that belongs to none. -/
inductive GoChar
  | rune (c : Char)
  | byte (b : UInt8)
deriving DecidableEq

abbrev GoString := List GoChar

namespace GoString

def ofStr (s : Str) : GoString := s.map .rune

def bytes (s : GoString) : List UInt8 :=
  s.flatMap fun
    | .rune c => String.utf8EncodeChar c
    | .byte b => [b]

end GoString

/-- `n` in lower-case hex, `width` digits of it. -/
def hexDigits (width n : ℕ) : Str :=
  (List.range width).reverse.map fun i => Nat.digitChar (n / 16 ^ i % 16)

/-- The letter of a control character that has one. -/
def escapeLetter (c : Char) : Option Char :=
  match c.toNat with
  | 7 => some 'a'
  | 8 => some 'b'
  | 9 => some 't'
  | 10 => some 'n'
  | 11 => some 'v'
  | 12 => some 'f'
  | 13 => some 'r'
  | _ => none

/-- What `strconv.Quote` writes of a character. -/
def GoChar.quote (u : CharTables) : GoChar → Str
  | .byte b => '\\' :: 'x' :: hexDigits 2 b.toNat
  | .rune c =>
    if c = '"' ∨ c = '\\' then ['\\', c]
    else if u.isPrint c then [c]
    else
      match escapeLetter c with
      | some letter => ['\\', letter]
      | none =>
        if c.toNat < 0x20 ∨ c.toNat = 0x7F then '\\' :: 'x' :: hexDigits 2 c.toNat
        else if c.toNat < 0x10000 then '\\' :: 'u' :: hexDigits 4 c.toNat
        else '\\' :: 'U' :: hexDigits 8 c.toNat

/-- `%q` of a string, between its quotes. -/
def escape (u : CharTables) (s : GoString) : Str := s.flatMap (GoChar.quote u)

/-- `unicode.IsSpace`. -/
def GoChar.isSpace : GoChar → Bool
  | .rune c => XetDcCache.isSpace c && !(28 ≤ c.toNat && c.toNat ≤ 31)
  | .byte _ => false

def trimSpace (s : GoString) : GoString :=
  ((s.dropWhile GoChar.isSpace).reverse.dropWhile GoChar.isSpace).reverse

def trimSlash (s : GoString) : GoString := (s.reverse.dropWhile (· = .rune '/')).reverse

def parsePeers (raw self : GoString) : List GoString :=
  let self := trimSlash (trimSpace self)
  ((raw.splitOn (.rune ',')).map fun p => trimSlash (trimSpace p)).filter fun p =>
    p ≠ [] ∧ p ≠ self

/-! ### What a scrape reads of the server -/

/-- `Observe`'s sources. -/
inductive Source
  | cdn
  | hit
  | peer
deriving DecidableEq

def Source.name : Source → Str
  | .cdn => "cdn".toList
  | .hit => "hit".toList
  | .peer => "peer".toList

/-- The sources in the order of their names. -/
def Source.sorted : List Source := [.cdn, .hit, .peer]

example : Source.sorted.Pairwise fun a b => a.name < b.name := by decide

/-- Floating point numbers with what the shim computes of them. -/
structure FloatOps (F : Type*) extends FloatFormat F where
  /-- `math.Round(n / total * 10000) / 10000`. -/
  rate : ℤ → ℤ → F
  /-- The sum divided by the length. -/
  mean : List F → F

def latencyBucketsMs : List ℤ := [1, 5, 10, 25, 50, 100, 250, 500, 1000, 2500, 5000]

/-- A count for each bucket, and one for what exceeds them all. -/
structure Histogram (F : Type*) where
  counts : List ℤ
  sum : F
  count : ℤ
  counts_length : counts.length = latencyBucketsMs.length + 1

structure HistogramSnapshot (F : Type*) where
  buckets : List F
  cumulative : List ℤ
  sum : F
  count : ℤ

/-- What `prometheusText` reads; `stats` is nil without peering. -/
structure Scraped (F : Type*) where
  metrics : Metrics
  hist : Source → Option (Histogram F)
  signedLen : ℕ
  totalBytes : ℤ
  heapInuse : ℕ
  stats : Option (OrderedDict GoString F)

inductive Value (F : Type*)
  | int64 (n : ℤ)
  | float64 (x : F)

structure Sample (F : Type*) where
  name : Str
  labels : List (Str × GoString)
  value : Value F

inductive Line (F : Type*)
  | help (name text : Str)
  | type (name typ : Str)
  | sample (s : Sample F)

section Text

variable {F : Type*} (u : CharTables) (ops : FloatOps F)

/-- `%d` and `%g`. -/
def Value.text : Value F → Str
  | .int64 n => (toString n).toList
  | .float64 x => ops.formatG x

def Line.text : Line F → Str
  | .help name text => "# HELP ".toList ++ name ++ ' ' :: text
  | .type name typ => "# TYPE ".toList ++ name ++ ' ' :: typ
  | .sample s =>
    renderLine s.name (s.labels.map fun l => (l.1, escape u l.2)) (s.value.text ops)

def Line.sample? : Line F → Option (Sample F)
  | .sample s => some s
  | _ => none

/-- `# HELP %s %s` and `# TYPE %s %s`. -/
def header (name typ help : String) : List (Line F) :=
  [.help name.toList help.toList, .type name.toList typ.toList]

def promMetric (name typ help : String) (v : Value F) : List (Line F) :=
  header name typ help ++ [.sample ⟨name.toList, [], v⟩]

def Histogram.snapshot (h : Histogram F) : HistogramSnapshot F where
  buckets := latencyBucketsMs.map ops.ofInt
  cumulative := (h.counts.take latencyBucketsMs.length).scanl (· + ·) 0 |>.tail
  sum := h.sum
  count := h.count

/-- The lines of one source. -/
def promSource (name src : Str) (h : HistogramSnapshot F) : List (Line F) :=
  let source := ("source".toList, GoString.ofStr src)
  ((h.buckets.zip h.cumulative).map fun b => .sample ⟨name ++ "_bucket".toList,
      [source, ("le".toList, .ofStr (ops.formatG b.1))], .int64 b.2⟩) ++
    [.sample ⟨name ++ "_bucket".toList, [source, ("le".toList, .ofStr "+Inf".toList)],
        .int64 h.count⟩,
      .sample ⟨name ++ "_sum".toList, [source], .float64 h.sum⟩,
      .sample ⟨name ++ "_count".toList, [source], .int64 h.count⟩]

def promHistogram (name help : String) (hists : List (Source × HistogramSnapshot F)) :
    List (Line F) :=
  if hists = [] then []
  else
    header name "histogram" help ++
      hists.flatMap fun h => promSource ops name.toList h.1.name h.2

namespace Scraped

variable (st : Scraped F)

def hitRate : F :=
  let total : ℤ := st.metrics.hits + st.metrics.misses
  if 0 < total then ops.rate st.metrics.hits total else ops.ofInt 0

def effectiveHitRate : F :=
  let total : ℤ := st.metrics.hits + st.metrics.misses
  if 0 < total then ops.rate (st.metrics.hits + st.metrics.peerHits) total else ops.ofInt 0

def fleetThroughput : F :=
  match st.stats with
  | none => ops.ofInt 0
  | some ewma => if ewma.items = [] then ops.ofInt 0 else ops.mean (ewma.items.map Prod.snd)

/-- The peers and their throughputs, in the order of `sort.Strings`. -/
def perPeer : List (GoString × F) :=
  match st.stats with
  | none => []
  | some ewma => ewma.items.mergeSort fun a b => a.1.bytes ≤ b.1.bytes

def histograms : List (Source × HistogramSnapshot F) :=
  Source.sorted.filterMap fun src => (st.hist src).map fun h => (src, h.snapshot ops)

/-- The metrics that have no labels. -/
def plainLines : List (Line F) :=
  let snap := st.metrics
  promMetric "xet_hits_total" "counter"
    "Xorb range requests served from the local cache." (.int64 snap.hits) ++
  promMetric "xet_misses_total" "counter"
    "Xorb range requests that required an upstream fetch." (.int64 snap.misses) ++
  promMetric "xet_wan_bytes_total" "counter"
    "Bytes fetched from upstream (WAN)." (.int64 snap.wanBytes) ++
  promMetric "xet_served_bytes_total" "counter"
    "Bytes served to clients from the xorb store." (.int64 snap.servedBytes) ++
  promMetric "xet_peer_hits_total" "counter"
    "Xorb ranges served by a sibling peer cache." (.int64 snap.peerHits) ++
  promMetric "xet_peer_misses_total" "counter"
    "Misses where peers were tried but none had the range (went to CDN)."
    (.int64 snap.peerMisses) ++
  promMetric "xet_peer_bytes_total" "counter"
    "Bytes pulled from peers (WAN/CDN transfer displaced)." (.int64 snap.peerBytes) ++
  promMetric "xet_peer_probe_timeouts_total" "counter"
    "Peer discovery probes that exceeded PEER_PROBE_TIMEOUT." (.int64 snap.peerProbeTimeouts) ++
  promMetric "xet_peer_hedge_fired_total" "counter"
    "Races where the CDN was hedged in (the adaptive timer fired)."
    (.int64 snap.peerHedgeFired) ++
  promMetric "xet_peer_hedge_peer_won_total" "counter"
    "Hedged races the peer won (CDN GET cancelled)." (.int64 snap.peerHedgePeerWon) ++
  promMetric "xet_peer_hedge_cdn_won_total" "counter"
    "Hedged races the CDN won (peer GET cancelled)." (.int64 snap.peerHedgeCdnWon) ++
  promMetric "xet_peer_bytes_wasted_total" "counter"
    ("CDN bytes discarded because the peer won after the CDN GET fired " ++
      "(cost of the latency insurance).") (.int64 snap.peerBytesWasted) ++
  promMetric "xet_peer_hedge_cdn_bytes_total" "counter"
    ("Bytes booked to wan_bytes via a hedge CDN win (subset of wan_bytes; " ++
      "the rest is the plain no-peer fallthrough).") (.int64 snap.peerHedgeCdnBytes) ++
  promMetric "xet_wan_bytes_saved" "gauge"
    "served_bytes - wan_bytes: WAN transfer the cache eliminated."
    (.int64 (snap.servedBytes - snap.wanBytes)) ++
  promMetric "xet_hit_rate" "gauge"
    "hits / (hits + misses). Counts a peer-served range as a miss." (.float64 (st.hitRate ops)) ++
  promMetric "xet_effective_hit_rate" "gauge"
    "(hits + peer_hits) / (hits + misses): share of requests served without a CDN fetch."
    (.float64 (st.effectiveHitRate ops)) ++
  promMetric "xet_signed_urls_tracked" "gauge"
    "Distinct xorb hashes with a live signed CDN url." (.int64 st.signedLen) ++
  promMetric "xet_cache_bytes" "gauge"
    "Bytes currently accounted in the Tier 1 LRU." (.int64 st.totalBytes) ++
  promMetric "xet_heap_inuse_bytes" "gauge"
    "Go heap in use (bytes); per-scrape sample for observing burst peak RSS."
    (.int64 st.heapInuse) ++
  promMetric "xet_peer_throughput_bytes_per_ms" "gauge"
    "Fleet-aggregate peer throughput EWMA (bytes/ms), used to size the hedge delay."
    (.float64 (st.fleetThroughput ops))

def peerSample (p : GoString × F) : Sample F :=
  ⟨"xet_peer_peer_throughput_bytes_per_ms".toList, [("peer".toList, p.1)], .float64 p.2⟩

/-- The throughput of each peer. -/
def peerLines : List (Line F) :=
  if st.perPeer = [] then []
  else
    header "xet_peer_peer_throughput_bytes_per_ms" "gauge" "Per-peer throughput EWMA (bytes/ms)." ++
      st.perPeer.map fun p => .sample (peerSample p)

def lines : List (Line F) :=
  st.plainLines ops ++ st.peerLines ++
    promHistogram ops "xet_xorb_latency_ms"
      "Served-range latency by source (hit|peer|cdn), milliseconds." (st.histograms ops)

def prometheusText : Str := unlines ((st.lines ops).map (Line.text u ops))

/-- The samples that are rendered, in their order. -/
def samples : List (Sample F) := (st.lines ops).filterMap Line.sample?

/-- The peers of the throughput map. -/
def peers : List GoString := st.stats.elim [] fun ewma => ewma.keys

end Scraped

end Text

/-! ### What a label is written as -/

section Escape

variable {u : CharTables}

/-- Characters that `%q` writes as they are. -/
def GoChar.IsRaw (u : CharTables) (x : GoChar) : Prop :=
  ∃ c, x = .rune c ∧ c ≠ '"' ∧ c ≠ '\\' ∧ u.isPrint c

/-- Characters that the scraper reads back. -/
def GoChar.IsPlain (u : CharTables) (x : GoChar) : Prop := x.IsRaw u ∧ x ≠ .rune '}'

instance (x : GoChar) : Decidable (x.IsRaw u) :=
  match x with
  | .rune c => decidable_of_iff (c ≠ '"' ∧ c ≠ '\\' ∧ u.isPrint c)
      ⟨fun h => ⟨c, rfl, h⟩, fun ⟨_, hc, h⟩ => GoChar.rune.inj hc ▸ h⟩
  | .byte b => .isFalse fun ⟨c, hc, _⟩ => by cases hc

instance (x : GoChar) : Decidable (x.IsPlain u) := inferInstanceAs (Decidable (_ ∧ _))

theorem hexDigits_word {width n : ℕ} {c : Char} (hc : c ∈ hexDigits width n) : isAsciiWord c := by
  obtain ⟨i, -, rfl⟩ := List.mem_map.mp hc
  have hdigit : ∀ d < 16, isAsciiWord (Nat.digitChar d) := by decide
  exact hdigit _ (Nat.mod_lt _ (by omega))

theorem escapeLetter_word {c letter : Char} (h : escapeLetter c = some letter) :
    isAsciiWord letter := by
  unfold escapeLetter at h
  split at h <;> cases h <;> decide

/-- A character is written as it is, or as a backslash, a character and hex digits. -/
theorem quote_cases (u : CharTables) (x : GoChar) :
    (∃ c, x = .rune c ∧ c ≠ '"' ∧ c ≠ '\\' ∧ u.isPrint c ∧ x.quote u = [c]) ∨
      ¬x.IsRaw u ∧ ∃ e w, x.quote u = '\\' :: e :: w ∧ (e = '"' ∨ e = '\\' ∨ isAsciiWord e) ∧
        ∀ c ∈ w, isAsciiWord c := by
  cases x with
  | byte b =>
    refine .inr ⟨?_, 'x', hexDigits 2 b.toNat, rfl, ?_, ?_⟩
    · rintro ⟨c, hc, -⟩
      cases hc
    · exact .inr (.inr (by decide))
    · exact fun c hc => hexDigits_word hc
  | rune c =>
    by_cases hquote : c = '"' ∨ c = '\\'
    · refine .inr ⟨?_, c, [], if_pos hquote, ?_, by simp⟩
      · rintro ⟨_, hc, hq, hb, _⟩
        cases hc
        exact hquote.elim hq hb
      · exact hquote.elim .inl fun h => .inr (.inl h)
    have hne := not_or.mp hquote
    by_cases hprint : u.isPrint c
    · refine .inl ⟨c, rfl, hne.1, hne.2, hprint, ?_⟩
      rw [GoChar.quote, if_neg hquote, if_pos hprint]
    have hraw : ¬(GoChar.rune c).IsRaw u := by
      rintro ⟨_, hc, -, -, hp⟩
      cases hc
      exact hprint hp
    refine .inr ⟨hraw, ?_⟩
    rw [GoChar.quote, if_neg hquote, if_neg hprint]
    cases hletter : escapeLetter c with
    | some letter =>
      exact ⟨letter, [], rfl, .inr (.inr (escapeLetter_word hletter)), by simp⟩
    | none =>
      -- the width of the number is all that the three forms differ in
      have hnumber : ∀ e width, isAsciiWord e →
          ∃ e' w, '\\' :: e :: hexDigits width c.toNat = '\\' :: e' :: w ∧
            (e' = '"' ∨ e' = '\\' ∨ isAsciiWord e') ∧ ∀ d ∈ w, isAsciiWord d := fun e _ he =>
        ⟨e, _, rfl, .inr (.inr he), fun d hd => hexDigits_word hd⟩
      dsimp only
      split_ifs
      · exact hnumber 'x' 2 (by decide)
      · exact hnumber 'u' 4 (by decide)
      · exact hnumber 'U' 8 (by decide)

theorem ne_of_word {c d : Char} (hc : isAsciiWord c) (hd : isAsciiWord d = false) : c ≠ d := by
  rintro rfl
  rw [hd] at hc
  cases hc

theorem quoted_of_words {w : Str} (hw : ∀ c ∈ w, isAsciiWord c) : Quoted w := by
  induction w with
  | nil => exact .nil
  | cons c w ih =>
    have hc := hw c (List.mem_cons_self ..)
    exact .plain (ne_of_word hc (by decide)) (ne_of_word hc (by decide))
      (ih fun d hd => hw d (List.mem_cons_of_mem _ hd))

theorem quoted_quote (u : CharTables) (x : GoChar) : Quoted (x.quote u) := by
  rcases quote_cases u x with ⟨c, -, hq, hb, -, hx⟩ | ⟨-, e, w, hx, he, hw⟩
  · rw [hx]
    exact .plain hq hb .nil
  · rw [hx]
    refine .escaped ?_ (quoted_of_words hw)
    rcases he with rfl | rfl | he
    · decide
    · decide
    · exact ne_of_word he (by decide)

/-- No quote of a label ends it early. -/
theorem quoted_escape (u : CharTables) (s : GoString) : Quoted (escape u s) := by
  induction s with
  | nil => exact .nil
  | cons x s ih =>
    rw [escape, List.flatMap_cons]
    exact (quoted_quote u x).append ih

theorem brace_mem_quote (u : CharTables) (x : GoChar) : '}' ∈ x.quote u ↔ x = .rune '}' := by
  rcases quote_cases u x with ⟨c, rfl, -, -, -, hx⟩ | ⟨hraw, e, w, hx, he, hw⟩
  · rw [hx, List.mem_singleton, GoChar.rune.injEq, eq_comm]
  · constructor
    · intro hmem
      rw [hx] at hmem
      rcases List.mem_cons.mp hmem with h | hmem
      · cases h
      rcases List.mem_cons.mp hmem with rfl | hmem
      · exact absurd he (by decide)
      · exact absurd (hw _ hmem) (by decide)
    · rintro rfl
      refine absurd ⟨'}', rfl, by decide, by decide, ?_⟩ hraw
      rw [u.isPrint_ascii _ (by decide)]
      decide

/-- A closing brace is written as it is, and nothing else is written with one. -/
theorem brace_mem_escape (u : CharTables) (s : GoString) :
    '}' ∈ escape u s ↔ .rune '}' ∈ s := by
  simp only [escape, List.mem_flatMap, brace_mem_quote, exists_eq_right]

theorem isBreak_of_word {c : Char} (hc : isAsciiWord c) : isBreak c = false :=
  isBreak_of_not_space (isSpace_of_word hc)

theorem escape_no_break (u : CharTables) (s : GoString) {c : Char} (hc : c ∈ escape u s) :
    isBreak c = false := by
  obtain ⟨x, -, hx⟩ := List.mem_flatMap.mp hc
  rcases quote_cases u x with ⟨d, -, -, -, hp, hd⟩ | ⟨-, e, w, he, hword, hw⟩
  · rw [hd, List.mem_singleton] at hx
    exact hx ▸ isBreak_of_print hp
  · rw [he] at hx
    rcases List.mem_cons.mp hx with rfl | hx
    · decide
    rcases List.mem_cons.mp hx with rfl | hx
    · rcases hword with rfl | rfl | hword
      · decide
      · decide
      · exact isBreak_of_word hword
    · exact isBreak_of_word (hw _ hx)

theorem length_le_escape (u : CharTables) (s : GoString) : s.length ≤ (escape u s).length := by
  induction s with
  | nil => exact Nat.zero_le _
  | cons x s ih =>
    have hx : 1 ≤ (x.quote u).length := by
      rcases quote_cases u x with ⟨c, -, -, -, -, hc⟩ | ⟨-, e, w, he, -⟩
      · simp [hc]
      · simp [he]
    rw [escape, List.flatMap_cons, List.length_append, List.length_cons]
    rw [escape] at ih
    omega

/-- An escape is longer than what it stands for, so a string with one is not read as it was. -/
theorem escape_eq (u : CharTables) (s : GoString) :
    GoString.ofStr (escape u s) = s ↔ ∀ x ∈ s, x.IsRaw u := by
  induction s with
  | nil => simp [escape, GoString.ofStr]
  | cons x s ih =>
    have hsplit : GoString.ofStr (escape u (x :: s)) =
        GoString.ofStr (x.quote u) ++ GoString.ofStr (escape u s) := by
      rw [escape, List.flatMap_cons, GoString.ofStr, List.map_append]
      rfl
    rw [hsplit, List.forall_mem_cons, ← ih]
    rcases quote_cases u x with ⟨c, rfl, hq, hb, hp, hc⟩ | ⟨hraw, e, w, he, -⟩
    · rw [hc]
      constructor
      · intro heq
        exact ⟨⟨c, rfl, hq, hb, hp⟩, (List.cons.inj heq).2⟩
      · rintro ⟨-, heq⟩
        exact congrArg (GoChar.rune c :: ·) heq
    · refine ⟨fun heq => ?_, fun h => absurd h.1 hraw⟩
      rw [he] at heq
      have hlen := congrArg List.length heq
      have hle := length_le_escape u s
      simp only [GoString.ofStr, List.map_cons, List.cons_append, List.length_cons,
        List.length_append, List.length_map] at hlen
      omega

end Escape

/-! ### What is read of a line -/

/-- A row or a sample, as something to compare. -/
structure Reading (F : Type*) where
  name : Str
  labels : List (Str × GoString)
  value : F
deriving DecidableEq

variable {F : Type*} {u : CharTables} {ops : FloatOps F}

/-- The labels of a row are Python strings, so every character of them is a rune. -/
def Row.reading (r : Row F) : Reading F :=
  ⟨r.name, r.labels.map fun l => (l.1, .ofStr l.2), r.value⟩

def Value.num (ops : FloatOps F) : Value F → F
  | .int64 n => ops.ofInt n
  | .float64 x => x

def Sample.reading (ops : FloatOps F) (s : Sample F) : Reading F :=
  ⟨s.name, s.labels, s.value.num ops⟩

/-- Numbers that a floating point number holds exactly. -/
def Value.Exact : Value F → Prop
  | .int64 n => |n| < 2 ^ 53
  | .float64 _ => True

instance (v : Value F) : Decidable v.Exact :=
  match v with
  | .int64 n => inferInstanceAs (Decidable (|n| < 2 ^ 53))
  | .float64 _ => .isTrue trivial

theorem numeric_int (n : ℤ) : ∀ c ∈ (toString n).toList, isNumeric c := by
  have hdigit : ∀ m : ℕ, ∀ c ∈ Nat.toDigits 10 m, isNumeric c := fun m c hc => by
    have hd := Nat.isDigit_of_mem_toDigits (by decide) (by decide) hc
    simp [isNumeric, isAsciiWord, Char.isAlphanum, hd]
  rw [Int.toString_eq_repr, Int.repr_eq_if]
  split
  · rw [Nat.toList_repr]
    exact hdigit _
  · rw [String.toList_append, Nat.toList_repr]
    exact List.forall_mem_append.mpr ⟨List.forall_mem_singleton.mpr (by decide), hdigit _⟩

theorem toString_int_ne_nil (n : ℤ) : (toString n).toList ≠ [] := by
  rw [Int.toString_eq_repr, Int.repr_eq_if]
  split
  · rw [Nat.toList_repr]
    exact Nat.toDigits_ne_nil
  · simp

theorem isWritten_text (ops : FloatOps F) (v : Value F) : IsWritten (v.text ops) := by
  cases v with
  | int64 n => exact ⟨toString_int_ne_nil n, fun c hc => isSpace_of_numeric (numeric_int n c hc)⟩
  | float64 x =>
    exact ⟨ops.formatG_ne x, fun c hc => isSpace_of_numeric (ops.formatG_chars x c hc)⟩

theorem float_text {v : Value F} (hv : v.Exact) : ops.float (v.text ops) = some (v.num ops) := by
  cases v with
  | int64 n => exact ops.float_decimal n hv
  | float64 x => exact ops.float_formatG x

/-- What every sample of the shim is. -/
structure Sample.Ok (s : Sample F) : Prop where
  name : isName s.name
  key : ∀ l ∈ s.labels, IsKey l.1
  keys : (s.labels.map Prod.fst).Nodup

/-- What the scraper makes of a line. -/
def readLine (u : CharTables) (ops : FloatOps F) (line : Line F) : Option (Reading F) :=
  (parseLine u ops.toFloatFormat (line.text u ops)).map Row.reading

theorem readLine_help (name text : Str) : readLine u ops (.help name text) = none := by
  exact congrArg (Option.map Row.reading) (parseLine_comment u ops.toFloatFormat
    (" HELP ".toList ++ name ++ ' ' :: text))

theorem readLine_type (name typ : Str) : readLine u ops (.type name typ) = none := by
  exact congrArg (Option.map Row.reading) (parseLine_comment u ops.toFloatFormat
    (" TYPE ".toList ++ name ++ ' ' :: typ))

/-- A sample is read back just when all its labels are plain. -/
theorem readLine_sample {s : Sample F} (hs : s.Ok) (hv : s.value.Exact) :
    readLine u ops (.sample s) = some (s.reading ops) ↔
      ∀ l ∈ s.labels, ∀ x ∈ l.2, x.IsPlain u := by
  have hval := isWritten_text ops s.value
  by_cases hbrace : ∃ l ∈ s.labels, GoChar.rune '}' ∈ l.2
  · obtain ⟨l, hl, hmem⟩ := hbrace
    -- the pattern of the labels ends at the first brace, also inside a value
    have hkeys : ∀ l ∈ s.labels.map fun l => (l.1, escape u l.2), IsKey l.1 :=
      List.forall_mem_map.mpr hs.key
    have hcut := parseLine_cut u ops.toFloatFormat hs.name hkeys (List.mem_map_of_mem hl)
      ((brace_mem_escape u l.2).mpr hmem) hval
    have hnone : readLine u ops (.sample s) = none := congrArg (Option.map Row.reading) hcut
    rw [hnone]
    constructor
    · intro h
      cases h
    · intro h
      exact absurd rfl (h l hl _ hmem).2
  · have hquoted : ∀ l ∈ s.labels.map fun l => (l.1, escape u l.2), IsKey l.1 ∧ Quoted l.2 :=
      List.forall_mem_map.mpr fun l hl => ⟨hs.key l hl, quoted_escape u l.2⟩
    have hnot : ∀ l ∈ s.labels.map fun l => (l.1, escape u l.2), '}' ∉ l.2 :=
      List.forall_mem_map.mpr fun l hl hmem =>
        hbrace ⟨l, hl, (brace_mem_escape u l.2).mp hmem⟩
    have hkeys : ((s.labels.map fun l => (l.1, escape u l.2)).map Prod.fst).Nodup := by
      rw [List.map_map]
      exact hs.keys
    have hread := parseLine_render u hs.name hquoted hkeys hnot hval (float_text hv)
    have hsome : readLine u ops (.sample s) =
        some ⟨s.name, s.labels.map fun l => (l.1, .ofStr (escape u l.2)), s.value.num ops⟩ := by
      have hrow := congrArg (Option.map Row.reading) hread
      rw [Option.map_some, Row.reading, List.map_map] at hrow
      exact hrow
    -- the reader does not undo escapes, so a value comes back if escaping left it alone
    have hlabels : (s.labels.map fun l => (l.1, GoString.ofStr (escape u l.2))) = s.labels ↔
        ∀ l ∈ s.labels, ∀ x ∈ l.2, x.IsRaw u := by
      have hinj := List.map_inj_left (l := s.labels)
        (f := fun l => (l.1, GoString.ofStr (escape u l.2))) (g := id)
      rw [List.map_id] at hinj
      rw [hinj]
      refine forall₂_congr fun l _ => ?_
      rw [← escape_eq]
      exact ⟨fun h => (Prod.mk.inj h).2, fun h => Prod.ext rfl h⟩
    rw [hsome, Option.some_inj, Sample.reading, Reading.mk.injEq]
    simp only [true_and, and_true]
    rw [hlabels]
    constructor
    · intro hraw l hl x hx
      exact ⟨hraw l hl x hx, fun h => hbrace ⟨l, hl, h ▸ hx⟩⟩
    · exact fun hplain l hl x hx => (hplain l hl x hx).1

/-! ### The lines of the exposition -/

/-- A comment is one line, a sample a name with labels. -/
def Line.Ok : Line F → Prop
  | .help name text => (name ++ text).all (!isBreak ·)
  | .type name typ => (name ++ typ).all (!isBreak ·)
  | .sample s => s.Ok

def Line.IsPlain (u : CharTables) : Line F → Prop
  | .sample s => ∀ l ∈ s.labels, ∀ x ∈ l.2, x.IsPlain u
  | _ => True

theorem text_no_break (u : CharTables) {line : Line F} (hl : line.Ok) :
    ∀ c ∈ line.text u ops, isBreak c = false := by
  have hcomment : ∀ {keyword name text : Str}, keyword.all (!isBreak ·) →
      (name ++ text).all (!isBreak ·) →
        ∀ c ∈ keyword ++ name ++ ' ' :: text, isBreak c = false := by
    intro keyword name text hk ht c hc
    have hspace : isBreak ' ' = false := by decide
    simp only [List.all_append, Bool.and_eq_true, List.all_eq_true, Bool.not_eq_true'] at hk ht
    simp only [List.mem_append, List.mem_cons] at hc
    rcases hc with (hc | hc) | rfl | hc
    · exact hk c hc
    · exact ht.1 c hc
    · exact hspace
    · exact ht.2 c hc
  cases line with
  | help name text => exact hcomment (by decide) hl
  | type name typ => exact hcomment (by decide) hl
  | sample s =>
    refine renderLine_no_break hl.name (List.forall_mem_map.mpr hl.key) ?_
      (isWritten_text ops s.value)
    exact List.forall_mem_map.mpr fun l _ c hc => escape_no_break u l.2 hc

/-- The texts of a metric. -/
def metricOk (name typ help : String) : Bool :=
  isName name.toList && (typ.toList ++ help.toList).all (!isBreak ·)

theorem name_all {name : Str} (hn : isName name) : name.all (!isBreak ·) :=
  List.all_eq_true.mpr fun c hc => by
    rw [isBreak_of_not_space (isSpace_of_mem_name hn hc)]
    rfl

theorem header_ok {name typ help : String} (h : metricOk name typ help) :
    ∀ l ∈ header (F := F) name typ help, l.Ok ∧ l.IsPlain u := by
  obtain ⟨hn, htext⟩ := Bool.and_eq_true_iff.mp h
  rw [List.all_append, Bool.and_eq_true] at htext
  have hname := name_all hn
  refine List.forall_mem_cons.mpr ⟨⟨?_, trivial⟩, List.forall_mem_singleton.mpr ⟨?_, trivial⟩⟩
  · show List.all _ _
    rw [List.all_append, hname, htext.2]
    rfl
  · show List.all _ _
    rw [List.all_append, hname, htext.1]
    rfl

theorem isName_of_metricOk {name typ help : String} (h : metricOk name typ help) :
    isName name.toList := (Bool.and_eq_true_iff.mp h).1

theorem promMetric_ok {name typ help : String} (h : metricOk name typ help) (v : Value F) :
    ∀ l ∈ promMetric name typ help v, l.Ok ∧ l.IsPlain u := by
  refine List.forall_mem_append.mpr ⟨header_ok h, List.forall_mem_singleton.mpr ⟨?_, ?_⟩⟩
  · exact ⟨isName_of_metricOk h, by simp, List.nodup_nil⟩
  · exact fun l hl => by cases hl

theorem plainLines_ok (u : CharTables) (ops : FloatOps F) (st : Scraped F) :
    ∀ l ∈ st.plainLines ops, l.Ok ∧ l.IsPlain u := by
  unfold Scraped.plainLines
  simp only [List.forall_mem_append]
  repeat' apply And.intro
  all_goals exact promMetric_ok (by decide +kernel) _

theorem mem_perPeer {st : Scraped F} {p : GoString} :
    (∃ x, (p, x) ∈ st.perPeer) ↔ p ∈ st.peers := by
  unfold Scraped.perPeer Scraped.peers
  cases st.stats with
  | none => simp
  | some ewma =>
    simp only [List.mem_mergeSort, Option.elim_some]
    exact OrderedDict.mem_keys.symm

/-- Only the peers can make a label that is not plain. -/
theorem peerLines_ok (u : CharTables) (st : Scraped F) :
    (∀ l ∈ st.peerLines, l.Ok) ∧
      ((∀ l ∈ st.peerLines, l.IsPlain u) ↔ ∀ p ∈ st.peers, ∀ x ∈ p, x.IsPlain u) := by
  have hok : metricOk "xet_peer_peer_throughput_bytes_per_ms" "gauge"
    "Per-peer throughput EWMA (bytes/ms)." := by decide
  have hheader := header_ok (F := F) (u := u) hok
  have hpeer : IsKey "peer".toList := by decide
  have hplain : (∀ p ∈ st.perPeer, ∀ x ∈ p.1, x.IsPlain u) ↔
      ∀ p ∈ st.peers, ∀ x ∈ p, x.IsPlain u := by
    constructor
    · intro h p hp
      obtain ⟨tp, hmem⟩ := mem_perPeer.mpr hp
      exact h (p, tp) hmem
    · exact fun h p hp => h p.1 (mem_perPeer.mp ⟨p.2, hp⟩)
  rw [← hplain]
  unfold Scraped.peerLines
  split
  case isTrue hnil => simp [hnil]
  case isFalse =>
    constructor
    · refine List.forall_mem_append.mpr ⟨fun l hl => (hheader l hl).1, ?_⟩
      exact List.forall_mem_map.mpr fun p _ =>
        ⟨isName_of_metricOk hok, List.forall_mem_singleton.mpr hpeer, List.nodup_singleton _⟩
    · rw [List.forall_mem_append, List.forall_mem_map]
      refine (and_iff_right fun l hl => (hheader l hl).2).trans (forall₂_congr fun p _ => ?_)
      exact List.forall_mem_singleton

theorem isName_append {name suffix : Str} (hn : isName name) (hs : suffix.all isAsciiWord) :
    isName (name ++ suffix) := by
  cases name with
  | nil => cases hn
  | cons c cs =>
    obtain ⟨hc, hcs⟩ := Bool.and_eq_true_iff.mp hn
    rw [List.cons_append, isName, hc, Bool.true_and, List.all_append, hcs, Bool.true_and]
    refine List.all_eq_true.mpr fun d hd => ?_
    rw [List.all_eq_true.mp hs d hd, Bool.true_or]

theorem isPlain_of_numeric (u : CharTables) {c : Char} (hc : isNumeric c) :
    GoChar.IsPlain u (.rune c) := by
  have hascii : c.toNat < 123 ∧ 43 ≤ c.toNat ∧ c ≠ '"' ∧ c ≠ '\\' ∧ c ≠ '}' := by
    rcases isNumeric_cases hc with hword | rfl | rfl | rfl
    · have hn := toNat_of_word hword
      exact ⟨hn.2, by omega, ne_of_word hword (by decide), ne_of_word hword (by decide),
        ne_of_word hword (by decide)⟩
    · decide
    · decide
    · decide
  obtain ⟨hlt, hlo, hq, hb, hbrace⟩ := hascii
  refine ⟨⟨c, rfl, hq, hb, ?_⟩, fun h => hbrace (GoChar.rune.inj h)⟩
  rw [u.isPrint_ascii c (by omega), Bool.and_eq_true]
  exact ⟨decide_eq_true (by omega), decide_eq_true (by omega)⟩

theorem isPlain_ofStr (u : CharTables) {s : Str} (hs : s.all isNumeric) :
    ∀ x ∈ GoString.ofStr s, x.IsPlain u :=
  List.forall_mem_map.mpr fun c hc => isPlain_of_numeric u (List.all_eq_true.mp hs c hc)

theorem source_plain (u : CharTables) (src : Source) :
    ∀ x ∈ GoString.ofStr src.name, x.IsPlain u := by
  refine isPlain_ofStr u ?_
  cases src with
  | cdn => decide
  | hit => decide
  | peer => decide

/-- A sample of the histogram, whatever bucket it counts. -/
theorem source_line_ok {name suffix : Str} (hn : isName name) (hs : suffix.all isAsciiWord)
    (src : Source) (bound : Option Str) (hb : ∀ b ∈ bound, b.all isNumeric) (v : Value F) :
    let line := Line.sample ⟨name ++ suffix, ("source".toList, GoString.ofStr src.name) ::
      bound.toList.map fun b => ("le".toList, .ofStr b), v⟩
    line.Ok ∧ line.IsPlain u := by
  have hsource : IsKey "source".toList := by decide
  have hle : IsKey "le".toList := by decide
  have hne : "source".toList ≠ "le".toList := by decide
  cases bound with
  | none =>
    refine ⟨⟨isName_append hn hs, ?_, List.nodup_singleton _⟩, ?_⟩
    · exact List.forall_mem_singleton.mpr hsource
    · exact List.forall_mem_singleton.mpr (source_plain u src)
  | some b =>
    refine ⟨⟨isName_append hn hs, ?_, ?_⟩, ?_⟩
    · exact List.forall_mem_cons.mpr ⟨hsource, List.forall_mem_singleton.mpr hle⟩
    · exact List.nodup_cons.mpr ⟨fun h => hne (List.mem_singleton.mp h), List.nodup_singleton _⟩
    · exact List.forall_mem_cons.mpr ⟨source_plain u src,
        List.forall_mem_singleton.mpr (isPlain_ofStr u (hb b rfl))⟩

theorem promSource_ok {name : Str} (hn : isName name) (src : Source) (h : HistogramSnapshot F) :
    ∀ l ∈ promSource ops name src.name h, l.Ok ∧ l.IsPlain u := by
  have hbucket : "_bucket".toList.all isAsciiWord := by decide
  have hsum : "_sum".toList.all isAsciiWord := by decide
  have hcount : "_count".toList.all isAsciiWord := by decide
  have hinf : "+Inf".toList.all isNumeric := by decide
  have hbound : ∀ ub : F, (ops.formatG ub).all isNumeric := fun ub =>
    List.all_eq_true.mpr (ops.formatG_chars ub)
  refine List.forall_mem_append.mpr ⟨List.forall_mem_map.mpr fun b _ => ?_, ?_⟩
  · exact source_line_ok hn hbucket src (some (ops.formatG b.1))
      (fun _ hb => Option.some_inj.mp hb ▸ hbound b.1) _
  refine List.forall_mem_cons.mpr ⟨?_, List.forall_mem_cons.mpr ⟨?_, ?_⟩⟩
  · exact source_line_ok hn hbucket src (some "+Inf".toList)
      (fun _ hb => Option.some_inj.mp hb ▸ hinf) _
  · exact source_line_ok hn hsum src none (fun _ hb => by cases hb) _
  · exact List.forall_mem_singleton.mpr
      (source_line_ok hn hcount src none (fun _ hb => by cases hb) _)

theorem promHistogram_ok (u : CharTables) (ops : FloatOps F) {name help : String}
    (h : metricOk name "histogram" help) (hists : List (Source × HistogramSnapshot F)) :
    ∀ l ∈ promHistogram ops name help hists, l.Ok ∧ l.IsPlain u := by
  unfold promHistogram
  split
  · simp
  · refine List.forall_mem_append.mpr ⟨header_ok h, fun l hl => ?_⟩
    obtain ⟨hist, -, hmem⟩ := List.mem_flatMap.mp hl
    exact promSource_ok (isName_of_metricOk h) hist.1 hist.2 l hmem

theorem lines_ok (u : CharTables) (ops : FloatOps F) (st : Scraped F) :
    (∀ l ∈ st.lines ops, l.Ok) ∧
      ((∀ l ∈ st.lines ops, l.IsPlain u) ↔ ∀ p ∈ st.peers, ∀ x ∈ p, x.IsPlain u) := by
  have hplain := plainLines_ok u ops st
  have hpeer := peerLines_ok u st
  have hlatency : metricOk "xet_xorb_latency_ms" "histogram"
    "Served-range latency by source (hit|peer|cdn), milliseconds." := by decide
  have hhist := promHistogram_ok u ops hlatency (st.histograms ops)
  simp only [Scraped.lines, List.forall_mem_append]
  refine ⟨⟨⟨fun l hl => (hplain l hl).1, hpeer.1⟩, fun l hl => (hhist l hl).1⟩, ?_⟩
  rw [← hpeer.2]
  constructor
  · exact fun h => h.1.2
  · exact fun h => ⟨⟨fun l hl => (hplain l hl).2, h⟩, fun l hl => (hhist l hl).2⟩

/-! ### Reading the whole text -/

/-- What is read of a text is what is read of its samples. -/
theorem parsePrometheus_lines {lines : List (Line F)} (hok : ∀ l ∈ lines, l.Ok) :
    (parsePrometheus u ops.toFloatFormat (unlines (lines.map (Line.text u ops)))).map Row.reading =
      (lines.filterMap Line.sample?).filterMap fun s => readLine u ops (.sample s) := by
  have hbreak : ∀ line ∈ lines.map (Line.text u ops), ∀ c ∈ line, isBreak c = false :=
    List.forall_mem_map.mpr fun l hl => text_no_break u (hok l hl)
  rw [parsePrometheus_unlines hbreak, List.filterMap_map, List.map_filterMap,
    List.filterMap_filterMap]
  refine List.filterMap_congr fun line _ => ?_
  cases line with
  | help name text => exact readLine_help name text
  | type name typ => exact readLine_type name typ
  | sample s => rfl

/-- Everything that is exposed is read back just when the labels of every line are plain. -/
theorem readings_eq_iff {lines : List (Line F)} (hok : ∀ l ∈ lines, l.Ok)
    (hv : ∀ s ∈ lines.filterMap Line.sample?, s.value.Exact) :
    (parsePrometheus u ops.toFloatFormat (unlines (lines.map (Line.text u ops)))).map Row.reading =
        (lines.filterMap Line.sample?).map (Sample.reading ops) ↔ ∀ l ∈ lines, l.IsPlain u := by
  have hmem : ∀ s, s ∈ lines.filterMap Line.sample? ↔ .sample s ∈ lines := fun s => by
    rw [List.mem_filterMap]
    constructor
    · rintro ⟨line, hline, hs⟩
      cases line with
      | help name text => cases hs
      | type name typ => cases hs
      | sample s' => exact Option.some_inj.mp hs ▸ hline
    · exact fun hline => ⟨.sample s, hline, rfl⟩
  rw [parsePrometheus_lines hok, List.filterMap_eq_map_iff_forall_eq_some]
  constructor
  · intro h line hline
    cases line with
    | help name text => trivial
    | type name typ => trivial
    | sample s =>
      have hs := (hmem s).mpr hline
      exact (readLine_sample (hok _ hline) (hv s hs)).mp (h s hs)
  · intro h s hs
    have hline := (hmem s).mp hs
    exact (readLine_sample (hok _ hline) (hv s hs)).mpr (h _ hline)

/-! ### Two peers -/

/-- The blank is the only white space of ASCII that is printed as it is. -/
theorem eq_blank {c : Char} (hp : 32 ≤ c.toNat && c.toNat < 127) (hs : isSpace c) : c = ' ' := by
  simp only [Bool.and_eq_true, decide_eq_true_eq] at hp
  simp only [isSpace, Bool.or_eq_true, Bool.and_eq_true, decide_eq_true_eq] at hs
  exact Char.toNat_inj.mp (show c.toNat = 32 by omega)

/-- Unicode's tables as far as ASCII goes. -/
def asciiTables : CharTables where
  isPrint c := 32 ≤ c.toNat && c.toNat < 127
  isWord := isAsciiWord
  isPrint_ascii _ _ := rfl
  isPrint_space _ hp hs := eq_blank hp hs
  isWord_ascii _ _ := rfl
  isWord_space c hs := Bool.eq_false_of_not_eq_true fun hw => by
    rw [isSpace_of_word hw] at hs
    cases hs

/-- Whole numbers, which `%g` writes as `%d` does. -/
def wholeOps : FloatOps ℤ where
  formatG n := (toString n).toList
  float s := (String.ofList s).toInt?
  ofInt n := n
  formatG_ne := toString_int_ne_nil
  formatG_chars := numeric_int
  float_formatG n := by
    rw [String.ofList_toList, Int.toString_eq_repr, Int.toInt?_repr]
  float_decimal n _ := by
    rw [String.ofList_toList, Int.toString_eq_repr, Int.toInt?_repr]
  rate n total := n / total
  mean xs := xs.sum / xs.length

def bracePeer : String := "http://b:8000/a\x7db"

/-- A server that has heard one peer. -/
def heardFrom (peer : String) : Scraped ℤ where
  metrics := .zero
  hist _ := none
  signedLen := 0
  totalBytes := 0
  heapInuse := 4096
  stats := some ⟨[(.ofStr peer.toList, 1000)], List.nodup_singleton _⟩

/-- The scraper reads back what the shim exposes just when every character of every peer is one
that `%q` writes as it is, and no closing brace. -/
theorem scrape_reads_back_iff (u : CharTables) (ops : FloatOps F) (st : Scraped F)
    (hv : ∀ s ∈ st.samples ops, s.value.Exact) :
    (parsePrometheus u ops.toFloatFormat (st.prometheusText u ops)).map Row.reading =
        (st.samples ops).map (Sample.reading ops) ↔
      ∀ p ∈ st.peers, ∀ x ∈ p, x.IsPlain u := by
  obtain ⟨hok, hplain⟩ := lines_ok u ops st
  rw [← hplain]
  exact readings_eq_iff hok hv

theorem scrape_reads_back_simple :
    (parsePrometheus asciiTables wholeOps.toFloatFormat
        ((heardFrom "https://a:8000").prometheusText asciiTables wholeOps)).map Row.reading =
      ((heardFrom "https://a:8000").samples wholeOps).map (Sample.reading wholeOps) :=
  (scrape_reads_back_iff asciiTables wholeOps (heardFrom "https://a:8000") (by decide +kernel)).mpr
    (by decide +kernel)

/-- A peer that PEERS may name and whose row is lost: the labels end at the brace in it. -/
theorem brace_peer_not_read_back :
    parsePeers (.ofStr bracePeer.toList) [] = (heardFrom bracePeer).peers ∧
      (∀ s ∈ (heardFrom bracePeer).samples wholeOps, s.value.Exact) ∧
      (parsePrometheus asciiTables wholeOps.toFloatFormat
        ((heardFrom bracePeer).prometheusText asciiTables wholeOps)).map Row.reading ≠
        ((heardFrom bracePeer).samples wholeOps).map (Sample.reading wholeOps) := by
  have hexact : ∀ s ∈ (heardFrom bracePeer).samples wholeOps, s.value.Exact := by
    decide +kernel
  obtain ⟨hok, hplain⟩ := lines_ok asciiTables wholeOps (heardFrom bracePeer)
  have hbrace : ¬∀ p ∈ (heardFrom bracePeer).peers, ∀ x ∈ p, x.IsPlain asciiTables := by
    decide +kernel
  refine ⟨by decide +kernel, hexact, fun hread => hbrace ?_⟩
  exact hplain.mp ((readings_eq_iff hok hexact).mp hread)

end XetDcCache
