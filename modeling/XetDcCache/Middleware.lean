/-
The logging of requests (middleware.go).

`withLogging` hands the handler a `statusRecorder` around the server's writer and logs what it has
recorded.  The recorder embeds the interface `http.ResponseWriter`, so it has no `Flush`, and it
records every `WriteHeader`, the ones the server ignores too.

* `logging_transparent_iff` — which handlers cannot tell the recorder from the writer, and are
  logged as what goes out;
* `withLogging_never_flushes` — no handler ever flushes through it, a streamed hit neither.
-/
import XetDcCache.Reconstruction
import XetDcCache.ResponseWriter

namespace XetDcCache

open ResponseWriter

/-! ### The recorder -/

structure StatusRecorder (σ : Type) where
  responseWriter : σ
  status : ℤ
  bytes : Int64
deriving DecidableEq

/-- The methods of a `*statusRecorder`; the other three are those of the embedded interface. -/
def statusRecorder {σ : Type} (w : Writer Bytes Bytes UInt8 σ) :
    Writer Bytes Bytes UInt8 (StatusRecorder σ) where
  header r := w.header r.responseWriter
  addHeader k v r := { r with responseWriter := w.addHeader k v r.responseWriter }
  setHeader k v r := { r with responseWriter := w.setHeader k v r.responseWriter }
  writeHeader code r :=
    (w.writeHeader code r.responseWriter).map fun s =>
      { r with status := code, responseWriter := s }
  write b r :=
    let (s, n) := w.write b r.responseWriter
    ({ r with responseWriter := s, bytes := r.bytes + Int64.ofNat n }, n)
  flush := none

/-! ### The middleware -/

/-- What the log reads of a request. -/
structure LoggedRequest where
  method : Bytes
  path : Bytes
  isPeer : Bool
deriving DecidableEq

structure LogLine where
  method : Bytes
  path : Bytes
  status : ℤ
  xCache : Bytes
  bytes : Int64
  peer : Bool
deriving DecidableEq

/-- A response with the counter and the line it is logged under; a panic unwinds past both. -/
structure Logged (σ : Type) where
  run : Run σ
  counter : Option Bytes
  line : Option LogLine
deriving DecidableEq

def requestClass (p : Bytes) : Bytes :=
  if (lit "/cas/").isPrefixOf p then lit "reconstruction"
  else if (lit "/xorb/").isPrefixOf p then lit "xorb"
  else lit "hub"

def isOperationalPath (p : Bytes) : Bool :=
  p = lit "/healthz" || p = lit "/metrics" || (lit "/metrics/").isPrefixOf p

/-- `next` is what the handler does with the request. -/
def withLogging {σ : Type} (w : Writer Bytes Bytes UInt8 σ) (r : LoggedRequest)
    (next : List (WriterCall Bytes Bytes UInt8)) (s : σ) : Logged σ :=
  let served := (statusRecorder w).serve next ⟨s, 200, 0⟩
  { run := served.map StatusRecorder.responseWriter
    counter :=
      if served.panicked || isOperationalPath r.path then none
      else some (lit "req_" ++ requestClass r.path)
    line :=
      if served.panicked then none
      else
        let header := (statusRecorder w).header served.state
        some ⟨r.method, r.path, served.state.status,
          (Multimap.get toLower header (lit "X-Cache")).getD [], served.state.bytes, r.isPeer⟩ }

/-- The code of the last `WriteHeader`. -/
def lastCode (next : List (WriterCall Bytes Bytes UInt8)) (status : ℤ) : ℤ :=
  next.foldl (fun status c => match c with | .writeHeader code => code | _ => status) status

/-- The server's writer receives the same calls and returns or panics alike, and the line gives
the status that goes out and the number of the bytes accepted. -/
def Transparent (net : NetHttp Bytes Bytes UInt8) (r : LoggedRequest)
    (next : List (WriterCall Bytes Bytes UInt8)) : Prop :=
  let plain := net.writer.serve next .fresh
  let logged := withLogging net.writer r next .fresh
  logged.run.state.received = plain.state.received ∧ logged.run.panicked = plain.panicked ∧
    ∀ line ∈ logged.line, line.status = logged.run.state.status ∧
      line.bytes.toInt = logged.run.state.body.length

/-! ### What the recorder does to a run -/

section Recorder

variable {σ : Type} {w : Writer Bytes Bytes UInt8 σ}

variable (w) in
/-- Any call but a flush is passed on. -/
theorem statusRecorder_call {c : WriterCall Bytes Bytes UInt8} (hc : c ≠ .flush)
    (r : StatusRecorder σ) :
    ((statusRecorder w).call c r).map StatusRecorder.responseWriter =
      w.call c r.responseWriter := by
  cases c with
  | writeHeader code =>
    change ((w.writeHeader code r.responseWriter).map _).map _ = _
    rw [Option.map_map]
    exact congrFun Option.map_id _
  | flush => exact absurd rfl hc
  | _ => rfl

@[simp] theorem statusRecorder_flush (r : StatusRecorder σ) :
    (statusRecorder w).call .flush r = some r := rfl

/-- The status recorded is that of the last `WriteHeader`. -/
theorem statusRecorder_status (next : List (WriterCall Bytes Bytes UInt8)) :
    ∀ r, ((statusRecorder w).serve next r).panicked = false →
      ((statusRecorder w).serve next r).state.status = lastCode next r.status := by
  induction next with
  | nil => exact fun r _ => rfl
  | cons c next ih =>
    intro r hr
    cases hc : (statusRecorder w).call c r with
    | none =>
      rw [Writer.serve_cons_of_panic hc] at hr
      cases hr
    | some r' =>
      rw [Writer.serve_cons_of_call hc] at hr ⊢
      rw [ih r' hr, lastCode, lastCode, List.foldl_cons]
      congr 1
      cases c with
      | writeHeader code =>
        obtain ⟨s, -, rfl⟩ := Option.map_eq_some_iff.mp hc
        rfl
      | _ =>
        injection hc with hc
        exact hc ▸ rfl

end Recorder

section Server

variable {net : NetHttp Bytes Bytes UInt8}

/-- The recorder counts the bytes of the body in an `int64`. -/
theorem statusRecorder_bytes (next : List (WriterCall Bytes Bytes UInt8)) (status : ℤ) :
    let r := ((statusRecorder net.writer).serve next ⟨.fresh, status, 0⟩).state
    r.bytes = Int64.ofNat r.responseWriter.body.length := by
  refine Writer.serve_invariant
    (fun r : StatusRecorder (Wire Bytes Bytes UInt8) =>
      r.bytes = Int64.ofNat r.responseWriter.body.length)
    (fun c r r' hc hr => ?_) next _ rfl
  cases c with
  | writeHeader code =>
    obtain ⟨s, hs, rfl⟩ := Option.map_eq_some_iff.mp hc
    have hbody : s.body = r.responseWriter.body := NetHttp.writeHeader_body hs
    rw [hbody]
    exact hr
  | write b =>
    injection hc with hc
    subst hc
    change r.bytes + Int64.ofNat _ = Int64.ofNat (List.length (r.responseWriter.body ++ _))
    rw [List.length_append, Int64.ofNat_add, hr]
  | _ =>
    injection hc with hc
    exact hc ▸ hr

variable (net) in
/-- Through the recorder nothing is flushed. -/
theorem withLogging_never_flushes (r : LoggedRequest) (next : List (WriterCall Bytes Bytes UInt8)) :
    .flush ∉ (withLogging net.writer r next .fresh).run.state.received := by
  refine Writer.serve_invariant
    (fun t : StatusRecorder (Wire Bytes Bytes UInt8) => .flush ∉ t.responseWriter.received)
    (fun c t t' hc ht => ?_) next ⟨.fresh, 200, 0⟩ List.not_mem_nil
  by_cases hflush : c = .flush
  · subst hflush
    injection hc with hc
    exact hc ▸ ht
  · have hcall := statusRecorder_call net.writer hflush t
    rw [hc, Option.map_some] at hcall
    rcases NetHttp.call_received hcall.symm with hreceived | ⟨hc', -, -⟩
    · rw [hreceived, List.mem_append, List.mem_singleton]
      exact not_or.mpr ⟨ht, Ne.symm hflush⟩
    · exact absurd hc' hflush

/-- A handler that flushes nothing does with the recorder what it does without. -/
theorem statusRecorder_serve (next : List (WriterCall Bytes Bytes UInt8)) :
    ∀ r, .flush ∉ (net.writer.serve next r.responseWriter).state.received →
      ((statusRecorder net.writer).serve next r).map StatusRecorder.responseWriter =
        net.writer.serve next r.responseWriter := by
  induction next with
  | nil => exact fun r _ => rfl
  | cons c next ih =>
    intro r hr
    by_cases hflush : c = .flush
    · subst hflush
      obtain ⟨s, hs⟩ : ∃ s, net.writer.call .flush r.responseWriter = some s := ⟨_, rfl⟩
      rw [Writer.serve_cons_of_call hs] at hr ⊢
      rw [Writer.serve_cons_of_call (statusRecorder_flush r)]
      rcases NetHttp.call_received hs with hreceived | ⟨-, -, rfl⟩
      · -- a writer that has `Flush` has received this one, and keeps it in its record
        have hmem : .flush ∈ s.received := by simp [hreceived]
        exact absurd ((NetHttp.received_prefix next s).subset hmem) hr
      · exact ih r hr
    · have hcall := statusRecorder_call net.writer hflush r
      cases hc : (statusRecorder net.writer).call c r with
      | none =>
        rw [hc, Option.map_none] at hcall
        rw [Writer.serve_cons_of_panic hc, Writer.serve_cons_of_panic hcall.symm]
        rfl
      | some r' =>
        rw [hc, Option.map_some] at hcall
        rw [Writer.serve_cons_of_call hcall.symm] at hr ⊢
        rw [Writer.serve_cons_of_call hc]
        exact ih r' hr

end Server

/-! ### Transparency -/

theorem toInt_ofNat_eq_iff (n : ℕ) : (Int64.ofNat n).toInt = n ↔ n < 2 ^ 63 := by
  constructor
  · intro h
    have := (Int64.ofNat n).toInt_lt
    omega
  · exact Int64.toInt_ofNat_of_lt

section Line

variable {net : NetHttp Bytes Bytes UInt8} (r : LoggedRequest)
  (next : List (WriterCall Bytes Bytes UInt8))

theorem withLogging_line_of_panic
    (h : (withLogging net.writer r next .fresh).run.panicked = true) :
    (withLogging net.writer r next .fresh).line = none :=
  if_pos h

/-- A handler that returns is logged with its last code and the bytes of the body. -/
theorem withLogging_line (h : (withLogging net.writer r next .fresh).run.panicked = false) :
    ∃ line, (withLogging net.writer r next .fresh).line = some line ∧
      line.status = lastCode next 200 ∧
      line.bytes =
        Int64.ofNat (withLogging net.writer r next .fresh).run.state.body.length := by
  have hp : ((statusRecorder net.writer).serve next ⟨.fresh, 200, 0⟩).panicked = false := h
  have hline : ¬ ((statusRecorder net.writer).serve next ⟨.fresh, 200, 0⟩).panicked = true := by
    simp [hp]
  exact ⟨_, if_neg hline, statusRecorder_status next _ hp, statusRecorder_bytes next 200⟩

end Line

/-- Logging is transparent exactly for a handler that, on the bare writer, flushes nothing and
either panics or ends with the status that went out and less than 2^63 bytes. -/
theorem logging_transparent_iff (net : NetHttp Bytes Bytes UInt8) (r : LoggedRequest)
    (next : List (WriterCall Bytes Bytes UInt8)) :
    Transparent net r next ↔
      .flush ∉ (net.writer.serve next .fresh).state.received ∧
      ((net.writer.serve next .fresh).panicked = true ∨
        lastCode next 200 = (net.writer.serve next .fresh).state.status ∧
        (net.writer.serve next .fresh).state.body.length < 2 ^ 63) := by
  -- without a flush the two runs are one
  have hserve (hflush : .flush ∉ (net.writer.serve next .fresh).state.received) :
      (withLogging net.writer r next .fresh).run = net.writer.serve next .fresh :=
    statusRecorder_serve next ⟨.fresh, 200, 0⟩ hflush
  constructor
  · rintro ⟨hreceived, -, hlogged⟩
    have hflush : .flush ∉ (net.writer.serve next .fresh).state.received :=
      hreceived ▸ withLogging_never_flushes net r next
    refine ⟨hflush, ?_⟩
    rw [← hserve hflush]
    cases hp : (withLogging net.writer r next .fresh).run.panicked with
    | true => exact .inl rfl
    | false =>
      obtain ⟨line, hline, hstatus, hbytes⟩ := withLogging_line r next hp
      have hline := hlogged line hline
      rw [hstatus, hbytes, toInt_ofNat_eq_iff] at hline
      exact .inr hline
  · rintro ⟨hflush, hends⟩
    rw [Transparent, hserve hflush]
    refine ⟨rfl, rfl, fun line hline => ?_⟩
    rw [← hserve hflush] at hends ⊢
    cases hp : (withLogging net.writer r next .fresh).run.panicked with
    | true =>
      rw [withLogging_line_of_panic r next hp] at hline
      cases hline
    | false =>
      obtain ⟨line', hline', hstatus, hbytes⟩ := withLogging_line r next hp
      rw [hp] at hends
      obtain h | h := hends
      · cases h
      · obtain rfl : line' = line := Option.some.inj (hline'.symm.trans hline)
        rw [hstatus, hbytes, toInt_ofNat_eq_iff]
        exact h

/-! ### The streamed hit -/

/-- `writeXorbStream` (xorb.go); `io.Copy` writes the file in chunks. -/
def xorbStreamCalls (contentRange : Bytes) (n : Int64) (chunks : List Bytes) :
    List (WriterCall Bytes Bytes UInt8) :=
  (setXorbHeaders (lit "HIT") contentRange n).map (fun e => .setHeader e.1 e.2) ++
    [.writeHeader 206, .flush] ++ chunks.map .write

theorem streamed_hit_unflushed :
    ¬ ∀ (net : NetHttp Bytes Bytes UInt8) (r : LoggedRequest)
      (next : List (WriterCall Bytes Bytes UInt8)), Transparent net r next := by
  intro h
  obtain ⟨hreceived, -, -⟩ := h (.healthy toLower)
    ⟨lit "GET", lit "/xorb/xorbs/default/h", false⟩ (xorbStreamCalls [] 1 [[0]])
  have hflush := withLogging_never_flushes (.healthy toLower)
    ⟨lit "GET", lit "/xorb/xorbs/default/h", false⟩ (xorbStreamCalls [] 1 [[0]])
  rw [hreceived] at hflush
  revert hflush
  decide +kernel

end XetDcCache
