/-
The harvest of the pods' metrics (harvest/scrape.py, harvest/report.py, mechanisms/shim.py).

The scraper collects what the pods expose, scrape after scrape, and the report reads the last sample
of each pod.

* `rows_of_text` — a metric without labels is one row of each scrape, whatever the peers are called;
* `latest_items` — the rows that the report reads are those of the last scrape of each pod;
* `harvest_payoff` — so its totals are those of the last snapshots, and its ratios are ratios.
-/
import XetDcCache.HedgeCounters
import XetDcCache.Prometheus
import XetDcCache.Report

namespace XetDcCache

open Transition

/-! ### The scraper -/

/-- A row of the scraper's file. -/
structure MetricRow (F : Type*) extends Row F where
  pod : Str
  ts : F

/-- What a pod shows to a scrape. -/
structure PodScrape (F : Type*) where
  pod : Str
  ts : F
  st : Scraped F

/-- The rows that are collected, and those that are in the file. -/
structure Scraper (F : Type*) where
  buf : List (MetricRow F)
  file : List (MetricRow F)

/-- `flush` is the end of a cycle, or a signal. -/
inductive ScraperAct (F : Type*)
  | scraped (x : PodScrape F)
  | failed (pod : Str)
  | flush

def ScraperAct.scrape? {F : Type*} : ScraperAct F → Option (PodScrape F)
  | .scraped x => some x
  | _ => none

section Scraper

variable {F : Type*} (u : CharTables) (ops : FloatOps F)

def scrapeOnce (x : PodScrape F) : List (MetricRow F) :=
  (parsePrometheus u ops.toFloatFormat (x.st.prometheusText u ops)).map fun r => ⟨r, x.pod, x.ts⟩

namespace Scraper

def start : Scraper F := ⟨[], []⟩

def step (s : Scraper F) : ScraperAct F → Scraper F
  | .scraped x => { s with buf := s.buf ++ scrapeOnce u ops x }
  | .failed _ => s
  | .flush => if s.buf = [] then s else { s with file := s.buf }

def run (acts : List (ScraperAct F)) : Scraper F := acts.foldl (step u ops) start

end Scraper

end Scraper

/-! ### The report -/

/-- What the report does with the numbers. -/
structure PayoffOps (F : Type*) where
  zero : F
  add : F → F → F
  div : F → F → F

structure PeeringPayoff (F : Type*) where
  peerBytes : F
  wanBytes : F
  peerFraction : F
  hedgeWinRatio : F

section Payoff

variable {F : Type*} [LinearOrder F]

/-- What is newer takes the place of what a pod had. -/
def newer {α : Type*} (d : OrderedDict Str (F × α)) (pod : Str) (ts : F) (v : α) :
    OrderedDict Str (F × α) :=
  match d.get? pod with
  | none => d.set pod (ts, v)
  | some cur => if cur.1 < ts then d.set pod (ts, v) else d

/-- The sample of each pod that has the latest time, the first one of these. -/
def latest (rows : List (MetricRow F)) (name : Str) : OrderedDict Str (F × F) :=
  rows.foldl (fun d r =>
    if r.name ≠ name ∨ r.labels ≠ [] then d else newer d r.pod r.ts r.value) .empty

variable (ops : PayoffOps F)

def finalByPod (rows : List (MetricRow F)) (name : String) : F :=
  ((latest rows name.toList).items.map fun e => e.2.2).foldl ops.add ops.zero

def heapPeakBytes (rows : List (MetricRow F)) : F :=
  rows.foldl (fun peak r =>
    if r.name = "xet_heap_inuse_bytes".toList ∧ r.labels = [] ∧ peak < r.value then r.value
    else peak) ops.zero

def payoffOf (peer wan fired won : F) : PeeringPayoff F :=
  let total := ops.add peer wan
  { peerBytes := peer
    wanBytes := wan
    peerFraction := if total = ops.zero then ops.zero else ops.div peer total
    hedgeWinRatio := if fired = ops.zero then ops.zero else ops.div won fired }

def peeringPayoff (rows : List (MetricRow F)) : PeeringPayoff F :=
  payoffOf ops (finalByPod ops rows "xet_peer_bytes_total")
    (finalByPod ops rows "xet_wan_bytes_total")
    (finalByPod ops rows "xet_peer_hedge_fired_total")
    (finalByPod ops rows "xet_peer_hedge_peer_won_total")

/-- The effective hit rate and the bytes saved of a pod. -/
def podStats (rows : List (MetricRow F)) (pod : Str) : F × F :=
  let podRows := rows.filter fun r => r.pod = pod
  (finalByPod ops podRows "xet_effective_hit_rate", finalByPod ops podRows "xet_wan_bytes_saved")

end Payoff

/-! ### What is read of a text -/

section Reading

variable {F : Type*} {u : CharTables} {ops : FloatOps F}

/-- A sample is not read, or it is read with its name, and with labels if it has any. -/
theorem readLine_cases (u : CharTables) (ops : FloatOps F) {s : Sample F} (hs : s.Ok)
    (hv : s.value.Exact) :
    (readLine u ops (.sample s) = none ∧ s.labels ≠ []) ∨
      ∃ r, readLine u ops (.sample s) = some r ∧ (r.labels = [] ↔ s.labels = []) ∧
        (s.labels = [] → r = s.reading ops) := by
  have hval := isWritten_text ops s.value
  by_cases hbrace : ∃ l ∈ s.labels, GoChar.rune '}' ∈ l.2
  · obtain ⟨l, hl, hmem⟩ := hbrace
    have hkeys : ∀ l ∈ s.labels.map fun l => (l.1, escape u l.2), IsKey l.1 :=
      List.forall_mem_map.mpr hs.key
    have hcut := parseLine_cut u ops.toFloatFormat hs.name hkeys (List.mem_map_of_mem hl)
      ((brace_mem_escape u l.2).mpr hmem) hval
    exact Or.inl ⟨congrArg (Option.map Row.reading) hcut, List.ne_nil_of_mem hl⟩
  · have hquoted : ∀ l ∈ s.labels.map fun l => (l.1, escape u l.2), IsKey l.1 ∧ Quoted l.2 :=
      List.forall_mem_map.mpr fun l hl => ⟨hs.key l hl, quoted_escape u l.2⟩
    have hnot : ∀ l ∈ s.labels.map fun l => (l.1, escape u l.2), '}' ∉ l.2 :=
      List.forall_mem_map.mpr fun l hl hmem =>
        hbrace ⟨l, hl, (brace_mem_escape u l.2).mp hmem⟩
    have hkeys : ((s.labels.map fun l => (l.1, escape u l.2)).map Prod.fst).Nodup := by
      rw [List.map_map]
      exact hs.keys
    have hread := congrArg (Option.map Row.reading)
      (parseLine_render u hs.name hquoted hkeys hnot hval (float_text hv))
    refine Or.inr ⟨_, hread, by simp [Row.reading], fun hnil => ?_⟩
    rw [Row.reading, Sample.reading, hnil]
    rfl

/-- The readings without labels are those of the samples without labels. -/
theorem readings_plain (u : CharTables) (ops : FloatOps F) {samples : List (Sample F)}
    (hs : ∀ s ∈ samples, s.Ok ∧ s.value.Exact) :
    (samples.filterMap fun s => readLine u ops (.sample s)).filter (·.labels = []) =
      (samples.filter (·.labels = [])).map (Sample.reading ops) := by
  induction samples with
  | nil => rfl
  | cons s samples ih =>
    obtain ⟨⟨hok, hv⟩, hrest⟩ := List.forall_mem_cons.mp hs
    rcases readLine_cases u ops hok hv with ⟨hnone, hlabels⟩ | ⟨r, hr, hiff, heq⟩
    · simp only [List.filterMap_cons, hnone]
      rw [List.filter_cons_of_neg (by simpa using hlabels)]
      exact ih hrest
    · simp only [List.filterMap_cons, hr]
      by_cases hnil : s.labels = []
      · rw [List.filter_cons_of_pos (by simpa using hiff.mpr hnil),
          List.filter_cons_of_pos (by simpa using hnil), List.map_cons, ih hrest, heq hnil]
      · rw [List.filter_cons_of_neg (by simpa using mt hiff.mp hnil),
          List.filter_cons_of_neg (by simpa using hnil)]
        exact ih hrest

/-- The samples of the metrics without labels. -/
def Scraped.plainSamples (ops : FloatOps F) (st : Scraped F) : List (Sample F) :=
  (st.plainLines ops).filterMap Line.sample?

theorem labels_of_plain (ops : FloatOps F) (st : Scraped F) :
    ∀ s ∈ st.plainSamples ops, s.labels = [] := by
  have hmetric : ∀ (name typ help : String) (v : Value F), ∀ l ∈ promMetric name typ help v,
      ∀ s ∈ l.sample?, s.labels = [] := by
    intro name typ help v l hl s hs
    simp only [promMetric, header, List.cons_append, List.nil_append, List.mem_cons,
      List.not_mem_nil, or_false] at hl
    rcases hl with rfl | rfl | rfl
    · cases hs
    · cases hs
    · obtain rfl := Option.some.inj hs
      rfl
  have hlines : ∀ l ∈ st.plainLines ops, ∀ s ∈ l.sample?, s.labels = [] := by
    unfold Scraped.plainLines
    simp only [List.forall_mem_append]
    repeat' apply And.intro
    all_goals exact hmetric _ _ _ _
  intro s hs
  obtain ⟨l, hl, hsample⟩ := List.mem_filterMap.mp hs
  exact hlines l hl s hsample

theorem labels_of_peer (st : Scraped F) :
    ∀ s ∈ st.peerLines.filterMap Line.sample?, s.labels ≠ [] := by
  intro s hs
  obtain ⟨l, hl, hsample⟩ := List.mem_filterMap.mp hs
  unfold Scraped.peerLines at hl
  split at hl
  · cases hl
  · simp only [header, List.cons_append, List.nil_append, List.mem_cons, List.mem_map] at hl
    rcases hl with rfl | rfl | ⟨p, -, rfl⟩
    · cases hsample
    · cases hsample
    · obtain rfl := Option.some.inj hsample
      exact List.cons_ne_nil _ _

theorem labels_of_source {name src : Str} {h : HistogramSnapshot F} {l : Line F}
    (hl : l ∈ promSource ops name src h) : ∀ s ∈ l.sample?, s.labels ≠ [] := by
  intro s hs
  simp only [promSource, List.mem_append, List.mem_map, List.mem_cons, List.not_mem_nil,
    or_false] at hl
  rcases hl with ⟨b, -, rfl⟩ | rfl | rfl | rfl <;> obtain rfl := Option.some.inj hs <;>
    exact List.cons_ne_nil _ _

theorem labels_of_histogram (ops : FloatOps F) (name help : String)
    (hists : List (Source × HistogramSnapshot F)) :
    ∀ s ∈ (promHistogram ops name help hists).filterMap Line.sample?, s.labels ≠ [] := by
  intro s hs
  obtain ⟨l, hl, hsample⟩ := List.mem_filterMap.mp hs
  unfold promHistogram at hl
  split at hl
  · cases hl
  · rcases List.mem_append.mp hl with hl | hl
    · simp only [header, List.mem_cons, List.not_mem_nil, or_false] at hl
      rcases hl with rfl | rfl <;> cases hsample
    · obtain ⟨hist, -, hmem⟩ := List.mem_flatMap.mp hl
      exact labels_of_source hmem s hsample

/-- Only the peers and the latencies have labels. -/
theorem samples_plain (st : Scraped F) :
    (st.samples ops).filter (·.labels = []) = st.plainSamples ops := by
  have hplain := labels_of_plain ops st
  have hpeer := labels_of_peer st
  have hhist := labels_of_histogram ops "xet_xorb_latency_ms"
    "Served-range latency by source (hit|peer|cdn), milliseconds." (st.histograms ops)
  rw [Scraped.samples, Scraped.lines, List.filterMap_append, List.filterMap_append,
    List.filter_append, List.filter_append, ← Scraped.plainSamples,
    List.filter_eq_self.mpr fun s hs => decide_eq_true (hplain s hs),
    List.filter_eq_nil_iff.mpr fun s hs => by simpa using hpeer s hs,
    List.filter_eq_nil_iff.mpr fun s hs => by simpa using hhist s hs, List.append_nil,
    List.append_nil]

/-- The metrics without labels, in their order. -/
def plainNames : List String :=
  ["xet_hits_total", "xet_misses_total", "xet_wan_bytes_total", "xet_served_bytes_total",
    "xet_peer_hits_total", "xet_peer_misses_total", "xet_peer_bytes_total",
    "xet_peer_probe_timeouts_total", "xet_peer_hedge_fired_total", "xet_peer_hedge_peer_won_total",
    "xet_peer_hedge_cdn_won_total", "xet_peer_bytes_wasted_total", "xet_peer_hedge_cdn_bytes_total",
    "xet_wan_bytes_saved", "xet_hit_rate", "xet_effective_hit_rate", "xet_signed_urls_tracked",
    "xet_cache_bytes", "xet_heap_inuse_bytes", "xet_peer_throughput_bytes_per_ms"]

theorem filterMap_promMetric (name typ help : String) (v : Value F) (l : List (Line F)) :
    (promMetric name typ help v ++ l).filterMap Line.sample? =
      ⟨name.toList, [], v⟩ :: l.filterMap Line.sample? := rfl

theorem plain_names (st : Scraped F) :
    (st.plainSamples ops).map Sample.name = plainNames.map String.toList := by
  unfold Scraped.plainSamples Scraped.plainLines
  simp only [List.append_assoc]
  repeat rw [filterMap_promMetric, List.map_cons]
  rfl

/-- What the report reads is among them. -/
theorem plain_mem (st : Scraped F) :
    ⟨"xet_wan_bytes_total".toList, [], .int64 st.metrics.wanBytes⟩ ∈ st.plainSamples ops ∧
      ⟨"xet_peer_bytes_total".toList, [], .int64 st.metrics.peerBytes⟩ ∈ st.plainSamples ops ∧
      ⟨"xet_peer_hedge_fired_total".toList, [], .int64 st.metrics.peerHedgeFired⟩ ∈
        st.plainSamples ops ∧
      ⟨"xet_peer_hedge_peer_won_total".toList, [], .int64 st.metrics.peerHedgePeerWon⟩ ∈
        st.plainSamples ops ∧
      ⟨"xet_wan_bytes_saved".toList, [],
        .int64 (st.metrics.servedBytes - st.metrics.wanBytes)⟩ ∈ st.plainSamples ops ∧
      ⟨"xet_effective_hit_rate".toList, [], .float64 (st.effectiveHitRate ops)⟩ ∈
        st.plainSamples ops ∧
      ⟨"xet_heap_inuse_bytes".toList, [], .int64 st.heapInuse⟩ ∈ st.plainSamples ops := by
  unfold Scraped.plainSamples Scraped.plainLines
  simp only [List.append_assoc]
  repeat rw [filterMap_promMetric]
  refine ⟨?_, ?_, ?_, ?_, ?_, ?_, ?_⟩
  · exact List.mem_iff_getElem?.mpr ⟨2, rfl⟩
  · exact List.mem_iff_getElem?.mpr ⟨6, rfl⟩
  · exact List.mem_iff_getElem?.mpr ⟨8, rfl⟩
  · exact List.mem_iff_getElem?.mpr ⟨9, rfl⟩
  · exact List.mem_iff_getElem?.mpr ⟨13, rfl⟩
  · exact List.mem_iff_getElem?.mpr ⟨15, rfl⟩
  · exact List.mem_iff_getElem?.mpr ⟨18, rfl⟩

theorem filter_unique {α κ : Type*} [DecidableEq κ] {f : α → κ} {l : List α} {a : α}
    (hnd : (l.map f).Nodup) (ha : a ∈ l) : l.filter (f · = f a) = [a] := by
  induction l with
  | nil => cases ha
  | cons b l ih =>
    obtain ⟨hb, hrest⟩ := List.nodup_cons.mp hnd
    rcases List.mem_cons.mp ha with rfl | ha
    · have hother : ∀ c ∈ l, f c ≠ f a := fun c hc heq =>
        hb (List.mem_map.mpr ⟨c, hc, heq⟩)
      rw [List.filter_cons_of_pos (by simp),
        List.filter_eq_nil_iff.mpr fun c hc => by simpa using hother c hc]
    · have hne : f b ≠ f a := fun heq => hb (List.mem_map.mpr ⟨a, ha, heq.symm⟩)
      rw [List.filter_cons_of_neg (by simpa using hne)]
      exact ih hrest ha

theorem samples_ok (st : Scraped F) : ∀ s ∈ st.samples ops, s.Ok := by
  intro s hs
  obtain ⟨l, hl, hsample⟩ := List.mem_filterMap.mp hs
  have hline := (lines_ok asciiTables ops st).1 l hl
  cases l with
  | help name text => cases hsample
  | type name typ => cases hsample
  | sample s' => exact Option.some.inj hsample ▸ hline

/-- What a scrape has of a metric without labels, whatever else it has. -/
theorem rows_named (u : CharTables) {x : PodScrape F}
    (hv : ∀ s ∈ x.st.samples ops, s.value.Exact) {name : Str} {v : Value F}
    (hs : ⟨name, [], v⟩ ∈ x.st.plainSamples ops) :
    (scrapeOnce u ops x).filter (fun r => r.name = name ∧ r.labels = []) =
      [⟨⟨name, [], v.num ops⟩, x.pod, x.ts⟩] := by
  have hnd : ((x.st.plainSamples ops).map Sample.name).Nodup := by
    rw [plain_names]
    decide +kernel
  -- the readings that are left are those of the one sample
  have hread := readings_plain u ops fun s hs => ⟨samples_ok x.st s hs, hv s hs⟩
  have hparse : (parsePrometheus u ops.toFloatFormat (x.st.prometheusText u ops)).map Row.reading =
      (x.st.samples ops).filterMap fun s => readLine u ops (.sample s) :=
    parsePrometheus_lines (lines_ok u ops x.st).1
  rw [← hparse, samples_plain] at hread
  have hone : ((parsePrometheus u ops.toFloatFormat (x.st.prometheusText u ops)).filter
      fun r => r.name = name ∧ r.labels = []).map Row.reading = [⟨name, [], v.num ops⟩] := by
    have hfilter := congrArg (List.filter (·.name = name)) hread
    have hsample : ((x.st.plainSamples ops).map (Sample.reading ops)).filter (·.name = name) =
        [⟨name, [], v.num ops⟩] := by
      rw [List.filter_map]
      exact congrArg (List.map (Sample.reading ops)) (filter_unique hnd hs)
    rw [hsample, List.filter_filter, List.filter_map] at hfilter
    rw [← hfilter]
    refine congrArg (List.map Row.reading) (List.filter_congr fun r _ => ?_)
    rw [Bool.eq_iff_iff, decide_eq_true_iff, Function.comp_apply, Bool.and_eq_true]
    exact and_congr decide_eq_true_iff.symm (List.map_eq_nil_iff.symm.trans decide_eq_true_iff.symm)
  obtain ⟨r, hr, hreading⟩ := List.map_eq_singleton_iff.mp hone
  have hrow : r = ⟨name, [], v.num ops⟩ := by
    obtain ⟨hname, hlabels, hvalue⟩ := Reading.mk.inj hreading
    obtain ⟨rname, rlabels, rvalue⟩ := r
    obtain rfl := List.map_eq_nil_iff.mp hlabels
    exact congrArg₂ (fun n x => Row.mk n [] x) hname hvalue
  rw [scrapeOnce, List.filter_map]
  show ((parsePrometheus u ops.toFloatFormat (x.st.prometheusText u ops)).filter
    fun r => r.name = name ∧ r.labels = []).map _ = _
  rw [hr, hrow]
  rfl

/-- What a log of scrapes has of it. -/
theorem rows_of_log (u : CharTables) {log : List (PodScrape F)}
    (hv : ∀ x ∈ log, ∀ s ∈ x.st.samples ops, s.value.Exact) {name : Str}
    {value : Scraped F → Value F}
    (hmem : ∀ st : Scraped F, ⟨name, [], value st⟩ ∈ st.plainSamples ops) :
    (log.flatMap (scrapeOnce u ops)).filter (fun r => r.name = name ∧ r.labels = []) =
      log.map fun x => ⟨⟨name, [], (value x.st).num ops⟩, x.pod, x.ts⟩ := by
  induction log with
  | nil => rfl
  | cons x log ih =>
    obtain ⟨hx, hlog⟩ := List.forall_mem_cons.mp hv
    rw [List.flatMap_cons, List.filter_append, rows_named u hx (hmem x.st), ih hlog]
    rfl

/-! ### The last scrape of each pod -/

section Newest

/-- The values of a dictionary of the newest, through a map. -/
def MapsTo {α β : Type*} (f : α → β) (d : OrderedDict Str (F × α)) (d' : OrderedDict Str (F × β)) :
    Prop :=
  d'.items = d.items.map fun e => (e.1, e.2.1, f e.2.2)

theorem MapsTo.keys {α β : Type*} {f : α → β} {d : OrderedDict Str (F × α)}
    {d' : OrderedDict Str (F × β)} (h : MapsTo f d d') : d'.keys = d.keys := by
  rw [OrderedDict.keys, h, List.map_map]
  rfl

theorem MapsTo.get? {α β : Type*} {f : α → β} {d : OrderedDict Str (F × α)}
    {d' : OrderedDict Str (F × β)} (h : MapsTo f d d') (pod : Str) :
    d'.get? pod = (d.get? pod).map fun e => (e.1, f e.2) := by
  rw [OrderedDict.get?, h, List.find?_map, OrderedDict.get?, Option.map_map, Option.map_map]
  rfl

theorem MapsTo.set {α β : Type*} {f : α → β} {d : OrderedDict Str (F × α)}
    {d' : OrderedDict Str (F × β)} (h : MapsTo f d d') (pod : Str) (ts : F) (v : α) :
    MapsTo f (d.set pod (ts, v)) (d'.set pod (ts, f v)) := by
  by_cases hk : pod ∈ d.keys
  · rw [OrderedDict.set, OrderedDict.set, dif_pos hk, dif_pos (h.keys ▸ hk)]
    show OrderedDict.replaced d'.items _ _ = (OrderedDict.replaced d.items _ _).map _
    rw [h, OrderedDict.replaced, OrderedDict.replaced, List.map_map, List.map_map]
    refine List.map_congr_left fun e _ => ?_
    by_cases he : e.1 = pod
    · simp [he]
    · simp [he]
  · rw [MapsTo, OrderedDict.set_items_new hk, OrderedDict.set_items_new (h.keys ▸ hk), h,
      List.map_append]
    rfl

variable [LinearOrder F]

theorem MapsTo.newer {α β : Type*} {f : α → β} {d : OrderedDict Str (F × α)}
    {d' : OrderedDict Str (F × β)} (h : MapsTo f d d') (pod : Str) (ts : F) (v : α) :
    MapsTo f (newer d pod ts v) (XetDcCache.newer d' pod ts (f v)) := by
  unfold XetDcCache.newer
  rw [h.get?]
  cases d.get? pod with
  | none => exact h.set pod ts v
  | some cur =>
    show MapsTo f (if cur.1 < ts then _ else _) (if cur.1 < ts then _ else _)
    by_cases hlt : cur.1 < ts
    · rw [if_pos hlt, if_pos hlt]
      exact h.set pod ts v
    · rw [if_neg hlt, if_neg hlt]
      exact h

/-- The last scrape of each pod. -/
def newest (log : List (PodScrape F)) : OrderedDict Str (F × Scraped F) :=
  log.foldl (fun d x => newer d x.pod x.ts x.st) .empty

theorem latest_eq (rows : List (MetricRow F)) (name : Str) :
    latest rows name = (rows.filter fun r => r.name = name ∧ r.labels = []).foldl
      (fun d r => newer d r.pod r.ts r.value) .empty := by
  have hstep : (fun (d : OrderedDict Str (F × F)) (r : MetricRow F) =>
      if r.name ≠ name ∨ r.labels ≠ [] then d else newer d r.pod r.ts r.value) = fun d r =>
        if decide (r.name = name ∧ r.labels = []) then newer d r.pod r.ts r.value else d := by
    funext d r
    by_cases hr : r.name = name ∧ r.labels = []
    · rw [if_neg (by simp [hr]), if_pos (decide_eq_true hr)]
    · rw [if_pos (Decidable.not_and_iff_or_not.mp hr), if_neg (by simpa using hr)]
  rw [latest, List.foldl_filter, hstep]

/-- The rows that the report reads are those of the last scrapes. -/
theorem latest_rows (u : CharTables) {log : List (PodScrape F)}
    (hv : ∀ x ∈ log, ∀ s ∈ x.st.samples ops, s.value.Exact) {name : Str}
    {value : Scraped F → Value F}
    (hmem : ∀ st : Scraped F, ⟨name, [], value st⟩ ∈ st.plainSamples ops) :
    MapsTo (fun st => (value st).num ops) (newest log)
      (latest (log.flatMap (scrapeOnce u ops)) name) := by
  rw [latest_eq, rows_of_log u hv hmem, List.foldl_map]
  clear hv hmem
  induction log using List.reverseRecOn with
  | nil => rfl
  | append_singleton log x ih =>
    rw [newest, List.foldl_append, List.foldl_append, ← newest]
    exact ih.newer x.pod x.ts x.st

/-- The later of what a pod had and what there is now. -/
def later {α : Type*} (old : Option (F × α)) (new : F × α) : F × α :=
  old.elim new fun cur => if cur.1 < new.1 then new else cur

theorem later_spec {α : Type*} (old : Option (F × α)) (new : F × α) :
    (later old new = new ∨ old = some (later old new)) ∧ new.1 ≤ (later old new).1 ∧
      ∀ cur, old = some cur → cur.1 ≤ (later old new).1 := by
  cases old with
  | none =>
    refine ⟨.inl rfl, le_rfl, fun cur hcur => ?_⟩
    cases hcur
  | some cur =>
    by_cases hlt : cur.1 < new.1
    · have heq : later (some cur) new = new := if_pos hlt
      rw [heq]
      exact ⟨.inl rfl, le_rfl, fun c hc => Option.some.inj hc ▸ hlt.le⟩
    · have heq : later (some cur) new = cur := if_neg hlt
      rw [heq]
      exact ⟨.inr rfl, not_lt.mp hlt, fun c hc => (Option.some.inj hc ▸ le_rfl)⟩

theorem get?_newer {α : Type*} (d : OrderedDict Str (F × α)) (pod k : Str) (ts : F) (v : α) :
    (newer d pod ts v).get? k = if k = pod then some (later (d.get? pod) (ts, v)) else d.get? k := by
  unfold newer
  cases hget : d.get? pod with
  | none => exact OrderedDict.get?_set ..
  | some cur =>
    show (if cur.1 < ts then d.set pod (ts, v) else d).get? k =
      if k = pod then some (if cur.1 < ts then (ts, v) else cur) else d.get? k
    by_cases hlt : cur.1 < ts
    · rw [if_pos hlt, if_pos hlt, OrderedDict.get?_set]
    · rw [if_neg hlt, if_neg hlt]
      by_cases hk : k = pod
      · rw [if_pos hk, hk, hget]
      · rw [if_neg hk]

theorem get?_newest_append (log : List (PodScrape F)) (x : PodScrape F) (k : Str) :
    (newest (log ++ [x])).get? k =
      if k = x.pod then some (later ((newest log).get? x.pod) (x.ts, x.st))
      else (newest log).get? k := by
  rw [newest, List.foldl_append, ← newest]
  exact get?_newer (newest log) x.pod k x.ts x.st

/-- Every pod with a scrape of it that no other is later than. -/
structure LastScrapes (log : List (PodScrape F)) (d : OrderedDict Str (F × Scraped F)) : Prop where
  mem : ∀ pod e, d.get? pod = some e → ⟨pod, e.1, e.2⟩ ∈ log
  le : ∀ x ∈ log, ∃ e, d.get? x.pod = some e ∧ x.ts ≤ e.1

theorem newest_last (log : List (PodScrape F)) : LastScrapes log (newest log) := by
  induction log using List.reverseRecOn with
  | nil =>
    refine ⟨fun pod e he => ?_, fun x hx => absurd hx List.not_mem_nil⟩
    cases he
  | append_singleton log x ih =>
    obtain ⟨hcases, hnew, hold⟩ := later_spec ((newest log).get? x.pod) (x.ts, x.st)
    refine ⟨fun pod e he => ?_, fun y hy => ?_⟩
    · rw [get?_newest_append] at he
      by_cases hk : pod = x.pod
      · rw [if_pos hk, Option.some_inj] at he
        subst hk
        subst he
        rcases hcases with heq | heq
        · rw [heq]
          exact List.mem_append_right _ (List.mem_singleton_self x)
        · exact List.mem_append_left _ (ih.mem x.pod _ heq)
      · rw [if_neg hk] at he
        exact List.mem_append_left _ (ih.mem pod e he)
    · rw [get?_newest_append]
      by_cases hk : y.pod = x.pod
      · rw [if_pos hk]
        refine ⟨_, rfl, ?_⟩
        rcases List.mem_append.mp hy with hy | hy
        · obtain ⟨e, he, hle⟩ := ih.le y hy
          exact le_trans hle (hold e (hk ▸ he))
        · rw [List.mem_singleton.mp hy]
          exact hnew
      · rw [if_neg hk]
        rcases List.mem_append.mp hy with hy | hy
        · exact ih.le y hy
        · exact absurd (congrArg PodScrape.pod (List.mem_singleton.mp hy)) hk

/-- The scrapes of the other pods do not matter for a pod. -/
theorem get?_newest_filter (log : List (PodScrape F)) (pod : Str) :
    (newest (log.filter (·.pod = pod))).get? pod = (newest log).get? pod := by
  induction log using List.reverseRecOn with
  | nil => rfl
  | append_singleton log x ih =>
    rw [List.filter_append, get?_newest_append]
    by_cases hk : pod = x.pod
    · have hone : [x].filter (·.pod = pod) = [x] := by simp [hk]
      rw [hone, get?_newest_append, if_pos hk, if_pos hk, ← hk, ih]
    · have hnone : [x].filter (·.pod = pod) = [] := by simpa using Ne.symm hk
      rw [hnone, List.append_nil, if_neg hk, ih]

/-- So a pod on its own is the only one. -/
theorem newest_filter_items {log : List (PodScrape F)} {pod : Str} {e : F × Scraped F}
    (he : (newest log).get? pod = some e) :
    (newest (log.filter (·.pod = pod))).items = [(pod, e)] := by
  have hget := (get?_newest_filter log pod).trans he
  have hall : ∀ i ∈ (newest (log.filter (·.pod = pod))).items, i.1 = pod := by
    rintro ⟨k, v⟩ hi
    have hmem := (newest_last _).mem k v (OrderedDict.get?_eq_some.mpr hi)
    exact of_decide_eq_true (List.mem_filter.mp hmem).2
  rw [← OrderedDict.filter_eq_key (OrderedDict.get?_eq_some.mp hget)]
  exact (List.filter_eq_self.mpr fun i hi => decide_eq_true (hall i hi)).symm

end Newest

/-! ### A run of the scraper -/

theorem run_append (acts : List (ScraperAct F)) (a : ScraperAct F) :
    Scraper.run u ops (acts ++ [a]) = (Scraper.run u ops acts).step u ops a := by
  rw [Scraper.run, List.foldl_append]
  rfl

/-- Nothing that was scraped is dropped, and nothing is in the file that was not scraped. -/
theorem run_buf (u : CharTables) (ops : FloatOps F) (acts : List (ScraperAct F)) :
    (Scraper.run u ops acts).buf =
        (acts.filterMap ScraperAct.scrape?).flatMap (scrapeOnce u ops) ∧
      ((Scraper.run u ops acts).buf = [] → (Scraper.run u ops acts).file = []) := by
  induction acts using List.reverseRecOn with
  | nil => exact ⟨rfl, fun _ => rfl⟩
  | append_singleton acts a ih =>
    rw [run_append, List.filterMap_append, List.flatMap_append, ← ih.1]
    generalize Scraper.run u ops acts = s at ih ⊢
    cases a with
    | scraped x =>
      refine ⟨?_, fun hnil => ih.2 (List.append_eq_nil_iff.mp hnil).1⟩
      show s.buf ++ scrapeOnce u ops x = _
      rw [show [ScraperAct.scraped x].filterMap ScraperAct.scrape? = [x] from rfl,
        List.flatMap_singleton]
    | failed pod => exact ⟨(List.append_nil _).symm, ih.2⟩
    | flush =>
      have hbuf : (s.step u ops .flush).buf = s.buf := by
        show (if s.buf = [] then s else _).buf = s.buf
        split <;> rfl
      refine ⟨hbuf.trans (List.append_nil _).symm, fun hnil => ?_⟩
      have hempty : s.buf = [] := hbuf ▸ hnil
      show (if s.buf = [] then s else _).file = []
      rw [if_pos hempty]
      exact ih.2 hempty

/-- What is in the file is what was scraped before it was last written. -/
theorem run_file {pre post : List (ScraperAct F)} (hpost : .flush ∉ post) :
    (Scraper.run u ops (pre ++ .flush :: post)).file =
      (pre.filterMap ScraperAct.scrape?).flatMap (scrapeOnce u ops) := by
  induction post using List.reverseRecOn with
  | nil =>
    obtain ⟨hbuf, hfile⟩ := run_buf u ops pre
    rw [run_append, ← hbuf]
    show (if (Scraper.run u ops pre).buf = [] then Scraper.run u ops pre else _).file = _
    by_cases hnil : (Scraper.run u ops pre).buf = []
    · rw [if_pos hnil, hfile hnil, hnil]
    · rw [if_neg hnil]
  | append_singleton post a ih =>
    have ha : a ≠ .flush := fun h =>
      hpost (List.mem_append_right _ (List.mem_singleton.mpr h.symm))
    rw [← List.cons_append, ← List.append_assoc, run_append,
      ← ih fun h => hpost (List.mem_append_left _ h)]
    cases a with
    | scraped x => rfl
    | failed pod => rfl
    | flush => exact absurd rfl ha

end Reading

/-! ### What the report makes of it -/

/-- What floating point numbers keep of the order of the numbers they round. -/
structure PayoffOps.Lawful {F : Type*} [LinearOrder F] (pops : PayoffOps F) (ofInt : ℤ → F) :
    Prop where
  ofInt_zero : ofInt 0 = pops.zero
  ofInt_mono : ∀ m n, m ≤ n → ofInt m ≤ ofInt n
  zero_add : ∀ a, pops.add pops.zero a = a
  add_zero : ∀ a, pops.add a pops.zero = a
  add_mono : ∀ a a' b b', a ≤ a' → b ≤ b' → pops.add a b ≤ pops.add a' b'
  div_mem : ∀ a b, pops.zero ≤ a → a ≤ b → b ≠ pops.zero →
    pops.zero ≤ pops.div a b ∧ pops.div a b ≤ ofInt 1

section Report

variable {F : Type*} [LinearOrder F] {u : CharTables} {ops : FloatOps F} {pops : PayoffOps F}

/-- The total of what the pods have last shown. -/
def total (pops : PayoffOps F) (value : Scraped F → F) (d : OrderedDict Str (F × Scraped F)) : F :=
  (d.items.map fun e => value e.2.2).foldl pops.add pops.zero

theorem finalByPod_rows (pops : PayoffOps F) (u : CharTables) {log : List (PodScrape F)}
    (hv : ∀ x ∈ log, ∀ s ∈ x.st.samples ops, s.value.Exact) {name : String}
    {value : Scraped F → Value F}
    (hmem : ∀ st : Scraped F, ⟨name.toList, [], value st⟩ ∈ st.plainSamples ops) :
    finalByPod pops (log.flatMap (scrapeOnce u ops)) name =
      total pops (fun st => (value st).num ops) (newest log) := by
  rw [finalByPod, latest_rows u hv hmem, List.map_map, total]
  rfl

theorem foldl_add_mono (hlaws : pops.Lawful ops.ofInt) {α : Type*} {f g : α → F} {l : List α}
    (h : ∀ x ∈ l, f x ≤ g x) {a b : F} (hab : a ≤ b) :
    (l.map f).foldl pops.add a ≤ (l.map g).foldl pops.add b := by
  induction l generalizing a b with
  | nil => exact hab
  | cons x l ih =>
    obtain ⟨hx, hl⟩ := List.forall_mem_cons.mp h
    exact ih hl (hlaws.add_mono a b (f x) (g x) hab hx)

theorem foldl_add_zero (hlaws : pops.Lawful ops.ofInt) {α : Type*} (l : List α) :
    (l.map fun _ => pops.zero).foldl pops.add pops.zero = pops.zero := by
  induction l with
  | nil => rfl
  | cons x l ih =>
    rw [List.map_cons, List.foldl_cons, hlaws.add_zero]
    exact ih

theorem total_nonneg (hlaws : pops.Lawful ops.ofInt) {value : Scraped F → F}
    {d : OrderedDict Str (F × Scraped F)} (h : ∀ e ∈ d.items, pops.zero ≤ value e.2.2) :
    pops.zero ≤ total pops value d := by
  have hle := foldl_add_mono hlaws h (le_refl pops.zero)
  rw [foldl_add_zero hlaws] at hle
  exact hle

/-- A part of a whole, or nothing. -/
theorem ratio_mem (hlaws : pops.Lawful ops.ofInt) {a b : F} (ha : pops.zero ≤ a) (hab : a ≤ b) :
    pops.zero ≤ (if b = pops.zero then pops.zero else pops.div a b) ∧
      (if b = pops.zero then pops.zero else pops.div a b) ≤ ops.ofInt 1 := by
  by_cases hb : b = pops.zero
  · rw [if_pos hb]
    exact ⟨le_rfl, hlaws.ofInt_zero ▸ hlaws.ofInt_mono 0 1 (by decide)⟩
  · rw [if_neg hb]
    exact hlaws.div_mem a b ha hab hb

theorem payoffOf_ratios (hlaws : pops.Lawful ops.ofInt) {peer wan fired won : F}
    (hpeer : pops.zero ≤ peer) (hwan : pops.zero ≤ wan) (hwon : pops.zero ≤ won)
    (hle : won ≤ fired) :
    let payoff := payoffOf pops peer wan fired won
    (pops.zero ≤ payoff.peerFraction ∧ payoff.peerFraction ≤ ops.ofInt 1) ∧
      pops.zero ≤ payoff.hedgeWinRatio ∧ payoff.hedgeWinRatio ≤ ops.ofInt 1 := by
  have hpart := hlaws.add_mono peer peer pops.zero wan le_rfl hwan
  rw [hlaws.add_zero] at hpart
  exact ⟨ratio_mem hlaws hpeer hpart, ratio_mem hlaws hwon hle⟩

theorem foldl_peak (name : Str) (rows : List (MetricRow F)) (peak : F) :
    rows.foldl (fun peak r =>
      if r.name = name ∧ r.labels = [] ∧ peak < r.value then r.value else peak) peak =
      ((rows.filter fun r => r.name = name ∧ r.labels = []).map fun r => r.value).foldl max peak := by
  induction rows generalizing peak with
  | nil => rfl
  | cons r rows ih =>
    rw [List.foldl_cons, ih]
    by_cases hr : r.name = name ∧ r.labels = []
    · have hmax : (if r.name = name ∧ r.labels = [] ∧ peak < r.value then r.value else peak) =
          max peak r.value := by
        by_cases hlt : peak < r.value
        · rw [if_pos ⟨hr.1, hr.2, hlt⟩, max_eq_right hlt.le]
        · rw [if_neg fun h => hlt h.2.2, max_eq_left (not_lt.mp hlt)]
      rw [hmax, List.filter_cons, if_pos (decide_eq_true hr), List.map_cons, List.foldl_cons]
    · have hsame : (if r.name = name ∧ r.labels = [] ∧ peak < r.value then r.value else peak) =
          peak := if_neg fun h => hr ⟨h.1, h.2.1⟩
      rw [hsame, List.filter_cons, if_neg (by simpa using hr)]

/-- The peak of the heap is over all scrapes. -/
theorem heapPeakBytes_rows (u : CharTables) {log : List (PodScrape F)}
    (hv : ∀ x ∈ log, ∀ s ∈ x.st.samples ops, s.value.Exact) :
    heapPeakBytes pops (log.flatMap (scrapeOnce u ops)) =
      (log.map fun x => ops.ofInt x.st.heapInuse).foldl max pops.zero := by
  rw [heapPeakBytes, foldl_peak, rows_of_log u hv fun st => (plain_mem st).2.2.2.2.2.2,
    List.map_map]
  rfl

omit [LinearOrder F] in
theorem rows_of_pod (u : CharTables) (log : List (PodScrape F)) (pod : Str) :
    (log.flatMap (scrapeOnce u ops)).filter (·.pod = pod) =
      (log.filter (·.pod = pod)).flatMap (scrapeOnce u ops) := by
  induction log with
  | nil => rfl
  | cons x log ih =>
    have hrow : ∀ r ∈ scrapeOnce u ops x, r.pod = x.pod := by
      intro r hr
      obtain ⟨row, -, rfl⟩ := List.mem_map.mp hr
      rfl
    rw [List.flatMap_cons, List.filter_append, ih]
    by_cases hx : x.pod = pod
    · rw [List.filter_eq_self.mpr fun r hr => decide_eq_true ((hrow r hr).trans hx),
        List.filter_cons, if_pos (decide_eq_true hx), List.flatMap_cons]
    · rw [List.filter_eq_nil_iff.mpr fun r hr => by simpa [hrow r hr] using hx,
        List.filter_cons_of_neg (by simpa using hx), List.nil_append]

theorem podStats_rows (u : CharTables) (hlaws : pops.Lawful ops.ofInt) {log : List (PodScrape F)}
    (hv : ∀ x ∈ log, ∀ s ∈ x.st.samples ops, s.value.Exact) {pod : Str} {e : F × Scraped F}
    (he : (newest log).get? pod = some e) :
    podStats pops (log.flatMap (scrapeOnce u ops)) pod =
      (e.2.effectiveHitRate ops, ops.ofInt (e.2.metrics.servedBytes - e.2.metrics.wanBytes)) := by
  have hv' : ∀ x ∈ log.filter (·.pod = pod), ∀ s ∈ x.st.samples ops, s.value.Exact :=
    fun x hx => hv x (List.mem_of_mem_filter hx)
  have hone : ∀ value : Scraped F → F,
      total pops value (newest (log.filter (·.pod = pod))) = value e.2 := by
    intro value
    rw [total, newest_filter_items he]
    exact hlaws.zero_add _
  rw [podStats, rows_of_pod, finalByPod_rows pops u hv' fun st => (plain_mem st).2.2.2.2.2.1,
    finalByPod_rows pops u hv' fun st => (plain_mem st).2.2.2.2.1, hone, hone]
  rfl

end Report

/-- The counters of a shim's hedged races, at some point of a run of them. -/
def Scraped.Hedged {F : Type*} (st : Scraped F) : Prop :=
  ∃ (cfg : Config) (sem : Sem) (as : List RacesAct) (s : Races),
    exec (Races.step cfg) (.start sem) as = some s ∧
      st.metrics.peerHedgeFired = s.hub.metrics.peerHedgeFired ∧
      st.metrics.peerHedgePeerWon = s.hub.metrics.peerHedgePeerWon

/-- No more races are won than are fired, also while they are on. -/
theorem Scraped.Hedged.won_le {F : Type*} {st : Scraped F} (h : st.Hedged) :
    st.metrics.peerHedgePeerWon ≤ st.metrics.peerHedgeFired := by
  obtain ⟨cfg, sem, as, s, hrun, hfired, hwon⟩ := h
  have hinv : s.Inv := exec_always Races.Inv (fun hI hstep => (Races.Inv.step hI hstep).1)
    (Races.inv_start sem) hrun
  have hle := hinv.fired
  rw [hfired, hwon]
  rw [Metrics.won] at hle
  omega

/-- **What the report makes of the metrics** is about the last scrape of each pod.  Whenever the
file was last written, whatever was scraped or failed before or after, and whatever the peers are
called, its totals are those of the last scrapes that went into it, the bytes that came from peers
are a part of all and the races that peers won a part of those that were fired, the peak of the heap
is over all scrapes, and the row of a pod is about its own last scrape. -/
theorem harvest_payoff {F : Type*} [LinearOrder F] (u : CharTables) {ops : FloatOps F}
    {pops : PayoffOps F} (hlaws : pops.Lawful ops.ofInt) {pre post : List (ScraperAct F)}
    (hpost : .flush ∉ post) {log : List (PodScrape F)}
    (hlog : pre.filterMap ScraperAct.scrape? = log)
    (hv : ∀ x ∈ log, ∀ s ∈ x.st.samples ops, s.value.Exact) (hraces : ∀ x ∈ log, x.st.Hedged) :
    let file := (Scraper.run u ops (pre ++ .flush :: post)).file
    let payoff := peeringPayoff pops file
    let d := newest log
    LastScrapes log d ∧
      payoff.peerBytes = total pops (fun st => ops.ofInt st.metrics.peerBytes) d ∧
      payoff.wanBytes = total pops (fun st => ops.ofInt st.metrics.wanBytes) d ∧
      (pops.zero ≤ payoff.peerFraction ∧ payoff.peerFraction ≤ ops.ofInt 1) ∧
      (pops.zero ≤ payoff.hedgeWinRatio ∧ payoff.hedgeWinRatio ≤ ops.ofInt 1) ∧
      heapPeakBytes pops file = (log.map fun x => ops.ofInt x.st.heapInuse).foldl max pops.zero ∧
      ∀ pod e, d.get? pod = some e → podStats pops file pod =
        (e.2.effectiveHitRate ops, ops.ofInt (e.2.metrics.servedBytes - e.2.metrics.wanBytes)) := by
  intro file payoff d
  have hfile : file = log.flatMap (scrapeOnce u ops) := by rw [← hlog]; exact run_file hpost
  have hpeer := finalByPod_rows pops u hv fun st => (plain_mem st).2.1
  have hwan := finalByPod_rows pops u hv fun st => (plain_mem st).1
  have hfired := finalByPod_rows pops u hv fun st => (plain_mem st).2.2.1
  have hwon := finalByPod_rows pops u hv fun st => (plain_mem st).2.2.2.1
  have hlast := newest_last log
  have hnat : ∀ value : Scraped F → ℕ,
      pops.zero ≤ total pops (fun st => ops.ofInt (value st)) (newest log) := by
    intro value
    refine total_nonneg hlaws fun e _ => ?_
    rw [← hlaws.ofInt_zero]
    exact hlaws.ofInt_mono 0 _ (Int.natCast_nonneg _)
  have hwins : total pops (fun st => ops.ofInt st.metrics.peerHedgePeerWon) (newest log) ≤
      total pops (fun st => ops.ofInt st.metrics.peerHedgeFired) (newest log) := by
    refine foldl_add_mono hlaws (fun e he => hlaws.ofInt_mono _ _ ?_) le_rfl
    have hmem := hlast.mem e.1 e.2 (OrderedDict.get?_eq_some.mpr he)
    exact Int.ofNat_le.mpr (hraces _ hmem).won_le
  have hpayoff : payoff = payoffOf pops
      (total pops (fun st => ops.ofInt st.metrics.peerBytes) (newest log))
      (total pops (fun st => ops.ofInt st.metrics.wanBytes) (newest log))
      (total pops (fun st => ops.ofInt st.metrics.peerHedgeFired) (newest log))
      (total pops (fun st => ops.ofInt st.metrics.peerHedgePeerWon) (newest log)) := by
    show peeringPayoff pops file = _
    rw [peeringPayoff, hfile, hpeer, hwan, hfired, hwon]
    rfl
  obtain ⟨hfraction, hratio⟩ := payoffOf_ratios hlaws (hnat _) (hnat _) (hnat _) hwins
  refine ⟨hlast, ?_, ?_, ?_, ?_, ?_, fun pod e he => ?_⟩
  · rw [hpayoff]
    rfl
  · rw [hpayoff]
    rfl
  · rw [hpayoff]
    exact hfraction
  · rw [hpayoff]
    exact hratio
  · rw [hfile]
    exact heapPeakBytes_rows u hv
  · rw [hfile]
    exact podStats_rows u hlaws hv he

/-! ### A pod that is scraped twice -/

/-- A shim whose peers have sent `peerBytes`, and have won `won` of as many races. -/
def shimAt (peerBytes won heap : ℕ) : Scraped ℤ where
  metrics := { Metrics.zero with
    peerBytes := peerBytes, peerHedgeFired := won, peerHedgePeerWon := won }
  hist _ := none
  signedLen := 0
  totalBytes := 0
  heapInuse := heap
  stats := none

/-- A pod is scraped before and after a race, while another is not up. -/
def twoScrapes : List (ScraperAct ℤ) :=
  [.scraped ⟨['a'], 1, shimAt 500 0 8192⟩, .failed ['b'], .flush,
    .scraped ⟨['a'], 2, shimAt 1000 1 4096⟩, .failed ['b']]

def wholePayoff : PayoffOps ℤ := ⟨0, (· + ·), (· / ·)⟩

theorem wholePayoff_lawful : wholePayoff.Lawful wholeOps.ofInt where
  ofInt_zero := rfl
  ofInt_mono _ _ h := h
  zero_add := Int.zero_add
  add_zero := Int.add_zero
  add_mono _ _ _ _ := Int.add_le_add
  div_mem a b ha hab hb := by
    have hpos : 0 < b := lt_of_le_of_ne (le_trans ha hab) (Ne.symm hb)
    refine ⟨Int.ediv_nonneg ha hpos.le, ?_⟩
    exact Int.ediv_le_of_le_mul hpos (show a ≤ 1 * b by omega)

theorem harvest_payoff_twoScrapes :
    let file := (Scraper.run asciiTables wholeOps (twoScrapes ++ [.flush, .failed ['a']])).file
    (peeringPayoff wholePayoff file).peerBytes = 1000 ∧ heapPeakBytes wholePayoff file = 8192 := by
  obtain ⟨s, hs, hp⟩ := exec_of_any (Races.step .lone) (.start .empty) (peerWins 0)
    (fun s => s.hub.metrics.peerHedgeFired = 1 ∧ s.hub.metrics.peerHedgePeerWon = 1) (by decide)
  obtain ⟨hfired, hwon⟩ := of_decide_eq_true hp
  have hpost : .flush ∉ [ScraperAct.failed (F := ℤ) ['a']] := by simp
  have hlog : twoScrapes.filterMap ScraperAct.scrape? =
      [⟨['a'], 1, shimAt 500 0 8192⟩, ⟨['a'], 2, shimAt 1000 1 4096⟩] := rfl
  obtain ⟨-, hpeer, -, -, -, hheap, -⟩ := harvest_payoff asciiTables wholePayoff_lawful hpost hlog
    (by decide +kernel)
    (List.forall_mem_cons.mpr ⟨⟨.lone, .empty, [], .start .empty, rfl, rfl, rfl⟩,
      List.forall_mem_singleton.mpr ⟨.lone, .empty, peerWins 0, s, hs, hfired.symm, hwon.symm⟩⟩)
  exact ⟨hpeer, hheap⟩

end XetDcCache
