/-
Handlers of net/http over a response writer.

A handler is the list of the calls it makes.  `Writer.serve` makes them, up to the first that
panics, and `NetHttp.writer` is the server's own writer, as net/http documents it.

* `serve_invariant` — what every call keeps holds when the handler is through;
* `NetHttp.received_prefix` — the server's writer keeps a record of what it has received;
* `NetHttp.serve_edits`, `NetHttp.serve_reply` — a handler that fills in the header and replies.
-/
import Mathlib.Data.List.Infix
import XetDcCache.Multimap

namespace ResponseWriter

/-! ### Writers -/

/-- A call on a writer or on the map its `Header` returns. -/
inductive WriterCall (κ ν β : Type)
  | addHeader (k : κ) (v : ν)
  | setHeader (k : κ) (v : ν)
  | writeHeader (code : ℤ)
  | write (b : List β)
  | flush
deriving DecidableEq

/-- A writer with the states `σ`.  `writeHeader` may panic, `write` returns the number of bytes it
accepts, and `flush` is there if the writer has the method. -/
structure Writer (κ ν β σ : Type) where
  header : σ → List (κ × ν)
  addHeader : κ → ν → σ → σ
  setHeader : κ → ν → σ → σ
  writeHeader : ℤ → σ → Option σ
  write : List β → σ → σ × ℕ
  flush : Option (σ → σ)

/-- A writer after a handler. -/
structure Run (σ : Type) where
  state : σ
  panicked : Bool
deriving DecidableEq

def Run.map {σ τ : Type} (f : σ → τ) (run : Run σ) : Run τ := ⟨f run.state, run.panicked⟩

namespace Writer

variable {κ ν β σ : Type} (w : Writer κ ν β σ)

/-- `none` is a panic; a handler flushes if it finds the method. -/
def call : WriterCall κ ν β → σ → Option σ
  | .addHeader k v, s => some (w.addHeader k v s)
  | .setHeader k v, s => some (w.setHeader k v s)
  | .writeHeader code, s => w.writeHeader code s
  | .write b, s => some (w.write b s).1
  | .flush, s => some ((w.flush.map fun f => f s).getD s)

def serve : List (WriterCall κ ν β) → σ → Run σ
  | [], s => ⟨s, false⟩
  | c :: cs, s =>
    match w.call c s with
    | some s' => serve cs s'
    | none => ⟨s, true⟩

@[simp] theorem serve_nil (s : σ) : w.serve [] s = ⟨s, false⟩ := rfl

variable {w}

theorem serve_cons_of_call {c : WriterCall κ ν β} {s s' : σ} (h : w.call c s = some s')
    (cs : List (WriterCall κ ν β)) : w.serve (c :: cs) s = w.serve cs s' := by
  rw [serve, h]

theorem serve_cons_of_panic {c : WriterCall κ ν β} {s : σ} (h : w.call c s = none)
    (cs : List (WriterCall κ ν β)) : w.serve (c :: cs) s = ⟨s, true⟩ := by
  rw [serve, h]

/-- What every call keeps holds when the handler is through, also by a panic. -/
theorem serve_invariant (P : σ → Prop)
    (hcall : ∀ c s s', w.call c s = some s' → P s → P s') (cs : List (WriterCall κ ν β)) :
    ∀ s, P s → P (w.serve cs s).state := by
  induction cs with
  | nil => exact fun s hs => hs
  | cons c cs ih =>
    intro s hs
    cases hc : w.call c s with
    | none => rwa [serve_cons_of_panic hc]
    | some s' =>
      rw [serve_cons_of_call hc]
      exact ih s' (hcall c s s' hc hs)

end Writer

/-! ### The server's writer -/

/-- A response of the server: the live header map, the final status with the header sent with it,
the body, and the calls so far. -/
structure Wire (κ ν β : Type) where
  header : List (κ × ν)
  sent : Option (ℤ × List (κ × ν))
  body : List β
  received : List (WriterCall κ ν β)
deriving DecidableEq

namespace Wire

variable {κ ν β : Type}

/-- The response a handler starts with. -/
def fresh : Wire κ ν β := ⟨[], none, [], []⟩

def receive (s : Wire κ ν β) (c : WriterCall κ ν β) : Wire κ ν β :=
  { s with received := s.received ++ [c] }

/-- The first bytes and the first flush send the header with a 200, unless it is sent. -/
def implicitOK (s : Wire κ ν β) : Wire κ ν β :=
  { s with sent := s.sent.or (some (200, s.header)) }

/-- The status that goes out: a handler that sends none sends a 200. -/
def status (s : Wire κ ν β) : ℤ := (s.sent.map Prod.fst).getD 200

theorem status_of_sent {s : Wire κ ν β} {code : ℤ} {header : List (κ × ν)}
    (h : s.sent = some (code, header)) : s.status = code := by
  rw [status, h]
  rfl

@[simp] theorem receive_received (s : Wire κ ν β) (c : WriterCall κ ν β) :
    (s.receive c).received = s.received ++ [c] := rfl

@[simp] theorem implicitOK_received (s : Wire κ ν β) : s.implicitOK.received = s.received := rfl

end Wire

/-- A server: when keys are one, whether its writers have `Flush`, and how many of the bytes it is
given it takes, whatever that depends on. -/
structure NetHttp (κ ν β : Type) where
  canon : κ → κ
  flusher : Bool
  accept : Wire κ ν β → List β → ℕ

/-- A server that takes all it is given, with writers that flush. -/
def NetHttp.healthy {κ ν β : Type} (canon : κ → κ) : NetHttp κ ν β :=
  ⟨canon, true, fun _ b => b.length⟩

/-- A status that is followed by another: 1xx but `101 Switching Protocols`. -/
def informational (code : ℤ) : Bool := 100 ≤ code && code ≤ 199 && code ≠ 101

namespace NetHttp

variable {κ ν β : Type} [DecidableEq κ] (net : NetHttp κ ν β)

/-- `WriteHeader`: ignored once the header is sent, else a code that has no three digits
panics. -/
def writeHeader (code : ℤ) (s : Wire κ ν β) : Option (Wire κ ν β) :=
  if s.sent.isSome then some (s.receive (.writeHeader code))
  else if code < 100 ∨ 999 < code then none
  else if informational code then some (s.receive (.writeHeader code))
  else some { s.receive (.writeHeader code) with sent := some (code, s.header) }

def write (b : List β) (s : Wire κ ν β) : Wire κ ν β × ℕ :=
  let taken := b.take (net.accept s.implicitOK b)
  ({ s.implicitOK.receive (.write b) with body := s.body ++ taken }, taken.length)

def writer : Writer κ ν β (Wire κ ν β) where
  header s := s.header
  addHeader k v s := { s.receive (.addHeader k v) with header := Multimap.add s.header k v }
  setHeader k v s :=
    { s.receive (.setHeader k v) with header := Multimap.set net.canon s.header k v }
  writeHeader code s := writeHeader code s
  write b s := net.write b s
  flush := if net.flusher then some fun s => s.implicitOK.receive .flush else none

variable {net}

omit [DecidableEq κ] in
theorem writeHeader_received {code : ℤ} {s s' : Wire κ ν β} (h : writeHeader code s = some s') :
    s'.received = s.received ++ [.writeHeader code] := by
  unfold writeHeader at h
  split_ifs at h <;> · injection h with h; subst h; rfl

omit [DecidableEq κ] in
theorem writeHeader_body {code : ℤ} {s s' : Wire κ ν β} (h : writeHeader code s = some s') :
    s'.body = s.body := by
  unfold writeHeader at h
  split_ifs at h <;> · injection h with h; subst h; rfl

/-- A call is received, except for a flush that the writer does not have. -/
theorem call_received {c : WriterCall κ ν β} {s s' : Wire κ ν β}
    (h : net.writer.call c s = some s') :
    s'.received = s.received ++ [c] ∨ (c = .flush ∧ net.flusher = false ∧ s' = s) := by
  cases c with
  | writeHeader code => exact .inl (writeHeader_received h)
  | flush =>
    by_cases hf : net.flusher
    · simp only [Writer.call, writer, hf, if_true, Option.map_some, Option.getD_some,
        Option.some.injEq] at h
      subst h
      exact .inl rfl
    · simp only [Writer.call, writer, hf, Bool.false_eq_true, if_false, Option.map_none,
        Option.getD_none, Option.some.injEq] at h
      exact .inr ⟨rfl, by simpa using hf, h.symm⟩
  | _ =>
    injection h with h
    subst h
    exact .inl rfl

/-- What has been received stays so. -/
theorem received_prefix (cs : List (WriterCall κ ν β)) (s : Wire κ ν β) :
    s.received <+: (net.writer.serve cs s).state.received := by
  refine Writer.serve_invariant (fun s' => s.received <+: s'.received) (fun c t t' hc ht => ?_)
    cs s List.prefix_rfl
  rcases call_received hc with hr | ⟨-, -, rfl⟩
  · exact hr ▸ ht.trans (List.prefix_append _ _)
  · exact ht

/-! ### Replies -/

/-- What a call makes of the header. -/
def edit (net : NetHttp κ ν β) : List (κ × ν) → WriterCall κ ν β → List (κ × ν)
  | h, .addHeader k v => Multimap.add h k v
  | h, .setHeader k v => Multimap.set net.canon h k v
  | h, _ => h

/-- A call on the header alone. -/
def isEdit : WriterCall κ ν β → Bool
  | .addHeader .. => true
  | .setHeader .. => true
  | _ => false

/-- Calls on the header change nothing else. -/
theorem serve_edits (edits : List (WriterCall κ ν β)) (hedits : ∀ c ∈ edits, isEdit c)
    (cs : List (WriterCall κ ν β)) (s : Wire κ ν β) :
    ∃ s', net.writer.serve (edits ++ cs) s = net.writer.serve cs s' ∧
      s'.header = edits.foldl net.edit s.header ∧ s'.sent = s.sent ∧ s'.body = s.body := by
  induction edits generalizing s with
  | nil => exact ⟨s, rfl, rfl, rfl, rfl⟩
  | cons c edits ih =>
    have hedit : ∃ s', net.writer.call c s = some s' ∧
        s'.header = net.edit s.header c ∧ s'.sent = s.sent ∧ s'.body = s.body := by
      have hc := hedits c List.mem_cons_self
      cases c with
      | addHeader k v => exact ⟨_, rfl, rfl, rfl, rfl⟩
      | setHeader k v => exact ⟨_, rfl, rfl, rfl, rfl⟩
      | _ => cases hc
    obtain ⟨t, ht, hheader, hsent, hbody⟩ := hedit
    obtain ⟨s', hserve, hheader', hsent', hbody'⟩ :=
      ih (fun c hc => hedits c (List.mem_cons_of_mem _ hc)) t
    refine ⟨s', ?_, ?_, hsent'.trans hsent, hbody'.trans hbody⟩
    · rw [List.cons_append, Writer.serve_cons_of_call ht, hserve]
    · rw [hheader', hheader, List.foldl_cons]

/-- Entries added one by one are appended. -/
theorem foldl_edit_addHeader (es h : List (κ × ν)) :
    (es.map fun e => WriterCall.addHeader e.1 e.2).foldl net.edit h = h ++ es := by
  induction es generalizing h with
  | nil => exact (List.append_nil h).symm
  | cons e es ih =>
    rw [List.map_cons, List.foldl_cons, ih, edit, Multimap.add, List.append_assoc,
      List.singleton_append]

/-- A code that `WriteHeader` takes for the status. -/
def finalCode (code : ℤ) : Prop := code = 101 ∨ 200 ≤ code ∧ code ≤ 999

instance (code : ℤ) : Decidable (finalCode code) :=
  inferInstanceAs (Decidable (code = 101 ∨ 200 ≤ code ∧ code ≤ 999))

variable (net) in
/-- A reply goes out as it is, if its code is a final one. -/
theorem serve_reply {s : Wire κ ν β} (hsent : s.sent = none) {code : ℤ} (hcode : finalCode code)
    (b : List β) :
    ∃ s', net.writer.serve [.writeHeader code, .write b] s = ⟨s', false⟩ ∧
      s'.sent = some (code, s.header) ∧
      s'.body = s.body ++ b.take (net.accept
        { s.receive (.writeHeader code) with sent := some (code, s.header) } b) := by
  have hunsent : ¬ s.sent.isSome = true := by simp [hsent]
  have hvalid : ¬ (code < 100 ∨ 999 < code) := by
    unfold finalCode at hcode
    omega
  have hinfo : ¬ informational code = true := by
    simp only [informational, Bool.and_eq_true, decide_eq_true_eq]
    unfold finalCode at hcode
    omega
  have hcall : net.writer.call (.writeHeader code) s =
      some { s.receive (.writeHeader code) with sent := some (code, s.header) } := by
    change writeHeader code s = _
    rw [writeHeader, if_neg hunsent, if_neg hvalid, if_neg hinfo]
  rw [Writer.serve_cons_of_call hcall]
  exact ⟨_, rfl, rfl, rfl⟩

variable (net) in
/-- What a handler has sent that fills in the header of a fresh response and replies. -/
theorem serve_edits_reply (edits : List (WriterCall κ ν β)) (hedits : ∀ c ∈ edits, isEdit c)
    {code : ℤ} (hcode : finalCode code) (b : List β) (hall : ∀ s, net.accept s b = b.length) :
    ∃ s', net.writer.serve (edits ++ [.writeHeader code, .write b]) .fresh = ⟨s', false⟩ ∧
      s'.sent = some (code, edits.foldl net.edit []) ∧ s'.body = b := by
  obtain ⟨s, hserve, hheader, hsent, hbody⟩ :=
    serve_edits edits hedits [.writeHeader code, .write b] (.fresh : Wire κ ν β)
  obtain ⟨s', hreply, hsent', hbody'⟩ := net.serve_reply hsent hcode b
  refine ⟨s', hserve.trans hreply, ?_, ?_⟩
  · rw [hsent', hheader]
    rfl
  · rw [hbody', hbody, hall, List.take_length]
    rfl

/-- Another code panics, or is not the status that goes out. -/
theorem serve_reply_lost {s : Wire κ ν β} (hsent : s.sent = none) {code : ℤ}
    (hcode : ¬ finalCode code) (b : List β) :
    (net.writer.serve [.writeHeader code, .write b] s).panicked = true ∨
      (net.writer.serve [.writeHeader code, .write b] s).state.status ≠ code := by
  have hunsent : ¬ s.sent.isSome = true := by simp [hsent]
  by_cases hvalid : code < 100 ∨ 999 < code
  · refine .inl ?_
    have hcall : net.writer.call (.writeHeader code) s = none := by
      change writeHeader code s = _
      rw [writeHeader, if_neg hunsent, if_pos hvalid]
    rw [Writer.serve_cons_of_panic hcall]
  · refine .inr ?_
    have hinfo : informational code = true := by
      simp only [informational, Bool.and_eq_true, decide_eq_true_eq]
      unfold finalCode at hcode
      omega
    have hcall : net.writer.call (.writeHeader code) s = some (s.receive (.writeHeader code)) := by
      change writeHeader code s = _
      rw [writeHeader, if_neg hunsent, if_neg hvalid, if_pos hinfo]
    rw [Writer.serve_cons_of_call hcall]
    -- the body sends the header, with a 200
    have hstatus : (net.writer.serve [.write b] (s.receive (.writeHeader code))).state.status =
        200 := by
      change ((s.sent.or (some (200, s.header))).map Prod.fst).getD 200 = 200
      rw [hsent]
      rfl
    rw [hstatus]
    unfold finalCode at hcode
    omega

variable (net) in
/-- With another code it is lost, the header or not. -/
theorem serve_edits_reply_lost (edits : List (WriterCall κ ν β)) (hedits : ∀ c ∈ edits, isEdit c)
    {code : ℤ} (hcode : ¬ finalCode code) (b : List β) :
    (net.writer.serve (edits ++ [.writeHeader code, .write b]) .fresh).panicked = true ∨
      (net.writer.serve (edits ++ [.writeHeader code, .write b]) .fresh).state.status ≠ code := by
  obtain ⟨s, hserve, -, hsent, -⟩ :=
    serve_edits edits hedits [.writeHeader code, .write b] (.fresh : Wire κ ν β)
  rw [hserve]
  exact serve_reply_lost hsent hcode b

end NetHttp

end ResponseWriter
