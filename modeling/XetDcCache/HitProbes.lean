/-
The three looks at the cache path (xorb.go).

A HEAD stats the path, a buffered GET reads the whole file, and a streamed GET opens it and sends
what it reads after its headers.  `PathState` is what can be at the path, `getXorbFront` is
`getXorb` up to the miss path.

* `streamed_eq_buffered_iff` — the two GETs agree unless something opens that cannot be read;
* `hit_probes_agree` — where they do, what they answer, and what the HEAD does.
-/
import XetDcCache.GetXorb

namespace XetDcCache

/-! ### The path -/

/-- A file whose size is an `int64`. -/
structure RegularFile where
  bytes : Bytes
  fits : bytes.length < 2 ^ 63

/-- What is at the cache path.  `unreadable` opens and has a size, but a read fails once `read`
has been returned. -/
inductive PathState
  | absent
  | file (f : RegularFile)
  | dir (size : Int64)
  | unopenable
  | unreadable (size : Int64) (read : Bytes)

/-- An open file: what `Stat` says of its size, and what reading it to its end yields. -/
structure Opened where
  size : Option Int64
  contents : BodyRead

namespace PathState

/-- `os.Stat` succeeds. -/
def stat : PathState → Bool
  | .absent => false
  | _ => true

/-- `os.Open`: a directory opens, and a read of it fails. -/
def openFile : PathState → Option Opened
  | .absent => none
  | .file f => some ⟨some (Int64.ofNat f.bytes.length), .full f.bytes⟩
  | .dir size => some ⟨some size, .broken [] (lit "is a directory")⟩
  | .unopenable => none
  | .unreadable size read => some ⟨some size, .broken read (lit "input/output error")⟩

/-- `os.ReadFile`. -/
def readFile (st : PathState) : Option Bytes :=
  match st.openFile with
  | some ⟨_, .full bytes⟩ => some bytes
  | _ => none

/-- What opens can be read. -/
def Whole : PathState → Prop
  | .absent | .file _ | .unopenable => True
  | .dir _ | .unreadable _ _ => False

end PathState

/-! ### The handler -/

/-- What was read, whether or not the read failed: `io.Copy` has sent it. -/
def BodyRead.sent : BodyRead → Bytes
  | .full body => body
  | .broken body _ => body

/-- `getXorb` up to the miss path: it has answered, or it has served a hit and booked `served`
bytes, or it goes on to the miss path with nothing written. -/
inductive Front
  | answered (resp : Response)
  | hit (resp : Response) (served : Int64)
  | miss
deriving DecidableEq

/-- `serveStreamHit`: `none` is false, with nothing served. -/
def serveStreamHit (byteRange : Bytes) (st : PathState) : Option (Response × Int64) :=
  match st.openFile with
  | none => none
  | some f =>
    match f.size with
    | none => none
    | some n => some (writeXorbStream f.contents.sent (contentRangeForHit byteRange n) n, n)

def getXorbFront (streamHits : Bool) (method : Method) (byteRange : Bytes) (st : PathState) :
    Front :=
  if byteRange = [] then .answered (httpErrWrite rangeRequired)
  else
    match method with
    | .head => .answered (if st.stat then headFound else notFound)
    | .get =>
      if streamHits then
        match serveStreamHit byteRange st with
        | some (resp, n) => .hit resp n
        | none => .miss
      else
        match st.readFile with
        | some body =>
          let n := Int64.ofNat body.length
          .hit (writeXorbBytes body (lit "HIT") (contentRangeForHit byteRange n)) n
        | none => .miss

/-- A hit. -/
def Front.Hit : Front → Prop
  | .hit _ _ => True
  | _ => False

/-- A HEAD that finds the range. -/
def Front.Found : Front → Prop
  | .answered resp => resp.status = 200
  | _ => False

/-! ### What the probes say -/

section Probes

variable {byteRange : Bytes} {st : PathState}

/-- The response to a hit on a regular file. -/
def fileHit (byteRange : Bytes) (f : RegularFile) : Response :=
  let n := Int64.ofNat f.bytes.length
  writeXorbBytes f.bytes (lit "HIT") (contentRangeForHit byteRange n)

/-- It is the response of a node. -/
theorem fileHit_eq (cfg : Config) (byteRange : Bytes) (f : RegularFile) :
    fileHit byteRange f = serveHit cfg byteRange f.bytes := by
  rw [serveHit]
  split <;> rfl

/-- Its length is exactly the length of its body. -/
theorem fileHit_contentLength (byteRange : Bytes) (f : RegularFile) :
    (fileHit byteRange f).headers.lookup (lit "Content-Length") =
      some (lit (toString (fileHit byteRange f).body.length)) :=
  congrArg some (formatInt_ofNat f.fits)

/-- Reading the whole file hits exactly the regular files. -/
theorem buffered_eq (hrange : byteRange ≠ []) : getXorbFront false .get byteRange st =
    match st with
    | .file f => .hit (fileHit byteRange f) (Int64.ofNat f.bytes.length)
    | _ => .miss := by
  rw [getXorbFront, if_neg hrange]
  cases st <;> rfl

theorem streamed_file (hrange : byteRange ≠ []) (f : RegularFile) :
    getXorbFront true .get byteRange (.file f) =
      .hit (fileHit byteRange f) (Int64.ofNat f.bytes.length) := by
  rw [getXorbFront, if_neg hrange]
  rfl

/-- Streaming the file comes to the same as reading it exactly if what opens can be read. -/
theorem streamed_eq_buffered_iff (hrange : byteRange ≠ []) :
    getXorbFront true .get byteRange st = getXorbFront false .get byteRange st ↔ st.Whole := by
  rw [buffered_eq hrange]
  cases st with
  | absent =>
    refine iff_of_true ?_ trivial
    rw [getXorbFront, if_neg hrange]
    rfl
  | file f => exact iff_of_true (streamed_file hrange f) trivial
  | unopenable =>
    refine iff_of_true ?_ trivial
    rw [getXorbFront, if_neg hrange]
    rfl
  | dir size =>
    -- the headers are out before the first read fails
    refine iff_of_false (fun h => ?_) id
    rw [getXorbFront, if_neg hrange] at h
    cases h
  | unreadable size read =>
    refine iff_of_false (fun h => ?_) id
    rw [getXorbFront, if_neg hrange] at h
    cases h

theorem head_found_iff (hrange : byteRange ≠ []) (streamHits : Bool) :
    (getXorbFront streamHits .head byteRange st).Found ↔ st ≠ .absent := by
  rw [getXorbFront, if_neg hrange]
  cases st <;> simp [Front.Found, PathState.stat, headFound, notFound]

/-- A GET that hits has found something at the path. -/
theorem hit_present (hrange : byteRange ≠ []) (streamHits : Bool)
    (h : (getXorbFront streamHits .get byteRange st).Hit) : st ≠ .absent := by
  rintro rfl
  rw [getXorbFront, if_neg hrange] at h
  cases streamHits <;> exact h

end Probes

/-- **Streamed hit, buffered hit and HEAD probe.**  Unless the path opens but cannot be read, the
streamed and the buffered GET make the same decision: they serve a regular file with the same
response, whose `Content-Length` is that of its body, and otherwise go on to the miss path.  The
buffered GET hits exactly the regular files.  A HEAD answers 200 exactly if something is at the
path, and so where either GET is a hit. -/
theorem hit_probes_agree {byteRange : Bytes} (hrange : byteRange ≠ []) (st : PathState) :
    (st.Whole → getXorbFront true .get byteRange st = getXorbFront false .get byteRange st) ∧
      ((∃ f, st = .file f ∧
          getXorbFront false .get byteRange st =
            .hit (fileHit byteRange f) (Int64.ofNat f.bytes.length) ∧
          (fileHit byteRange f).headers.lookup (lit "Content-Length") =
            some (lit (toString (fileHit byteRange f).body.length))) ∨
        (∀ f, st ≠ .file f) ∧ getXorbFront false .get byteRange st = .miss) ∧
      (∀ streamHits, (getXorbFront streamHits .head byteRange st).Found ↔ st ≠ .absent) ∧
      ∀ streamHits, (getXorbFront streamHits .get byteRange st).Hit →
        (getXorbFront streamHits .head byteRange st).Found := by
  refine ⟨(streamed_eq_buffered_iff hrange).mpr, ?_, head_found_iff hrange,
    fun s h => (head_found_iff hrange s).mpr (hit_present hrange s h)⟩
  rw [buffered_eq hrange]
  cases st with
  | file f => exact Or.inl ⟨f, rfl, rfl, fileHit_contentLength byteRange f⟩
  | _ => exact Or.inr ⟨nofun, rfl⟩

/-- An empty file is a hit of length 0. -/
theorem hit_probes_agree_empty :
    ∃ resp, getXorbFront true .get (lit "bytes=0-3") (.file ⟨[], by decide⟩) = .hit resp 0 ∧
      resp.headers.lookup (lit "Content-Length") = some (lit "0") := by
  obtain ⟨hsame, hfile, -, -⟩ := @hit_probes_agree (lit "bytes=0-3") (by decide)
    (.file ⟨[], by decide⟩)
  obtain ⟨f, hf, hhit, hlen⟩ | ⟨hno, -⟩ := hfile
  · cases hf
    exact ⟨_, (hsame trivial).trans hhit, hlen⟩
  · exact absurd rfl (hno _)

/-- A directory at the path: streamed it is a hit whose body ends before its length, buffered a
miss, and the HEAD finds it; and a HEAD finds what no GET can open. -/
theorem hit_probes_disagree :
    (∃ resp, getXorbFront true .get (lit "bytes=0-3") (.dir 4096) = .hit resp 4096 ∧
        resp.headers.lookup (lit "Content-Length") = some (lit "4096") ∧ resp.body = []) ∧
      getXorbFront false .get (lit "bytes=0-3") (.dir 4096) = .miss ∧
      (getXorbFront true .head (lit "bytes=0-3") .unopenable).Found ∧
      getXorbFront true .get (lit "bytes=0-3") .unopenable = .miss ∧
      getXorbFront false .get (lit "bytes=0-3") .unopenable = .miss := by
  refine ⟨⟨_, rfl, by decide, rfl⟩, rfl, rfl, rfl, rfl⟩

end XetDcCache
