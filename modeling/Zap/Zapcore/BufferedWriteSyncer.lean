import Zap.Data.Bufio

/-!
# The buffered write syncer

`BufferedWriteSyncer` as the state its mutex protects, with one function for each critical
section. `Write`, `Sync` and the flush of a tick are one section each. `Stop` is two: the one
that marks the syncer as stopped, and the `Sync` after the flush loop has ended.

The channels and the goroutines that wait for them are not here; the sections only say what
happens while the lock is held.
-/

set_option autoImplicit false

namespace Zap.Zapcore

open Data

/-- A `WriteSyncer` with states `σ`. -/
structure WriteSyncer (σ : Type) extends Bufio.Device σ where
  sync : σ → Option Bytes × σ

/-- The fields of a `BufferedWriteSyncer`, with the destination `WS` as a port. There is no
`writer` until `initialize` has run. -/
structure BufferedWriteSyncer (σ : Type) where
  size : Int
  port : Bufio.Port σ
  writer : Option Bufio.Writer
  stopped : Bool

namespace BufferedWriteSyncer

variable {σ : Type}

def defaultBufferSize : Int := 256 * 1024

/-- `&BufferedWriteSyncer{WS: ws, Size: size}`, for a destination in some state. -/
def new (size : Int) (dev : σ) : BufferedWriteSyncer σ := ⟨size, ⟨dev, []⟩, none, false⟩

variable (ws : WriteSyncer σ) (s : BufferedWriteSyncer σ)

/-- The buffer that `initialize` makes. -/
def initializeWriter : Bufio.Writer :=
  Bufio.newWriterSize (if s.size = 0 then defaultBufferSize else s.size)

/-- The buffer and the destination; the buffer is made if it is not there. -/
def bufio : Bufio.State σ := ⟨s.writer.getD s.initializeWriter, s.port⟩

/-- The syncer with another state of its buffer and its destination. -/
def put (b : Bufio.State σ) : BufferedWriteSyncer σ := { s with writer := b.writer, port := b.port }

/-- `Write`: what does not fit behind the data in the buffer is written after a flush. -/
def write (bs : Bytes) : (Nat × Option Bytes) × BufferedWriteSyncer σ :=
  let b := s.bufio
  if b.available < bs.length ∧ 0 < b.writer.buf.length then
    match b.flush ws.toDevice with
    | (some err, b) => ((0, some err), s.put b)
    | (none, b) =>
      let (r, b) := b.write ws.toDevice bs
      (r, s.put b)
  else
    let (r, b) := b.write ws.toDevice bs
    (r, s.put b)

/-- `Sync`, with the errors that `multierr` combines. -/
def sync : List Bytes × BufferedWriteSyncer σ :=
  let (err, s) :=
    match s.writer with
    | none => (none, s)
    | some _ =>
      let (err, b) := s.bufio.flush ws.toDevice
      (err, s.put b)
  let (syncErr, dev) := ws.sync s.port.dev
  (err.toList ++ syncErr.toList, { s with port := { s.port with dev } })

/-- The first section of `Stop`: whether this call is the one that stops the syncer. -/
def markStopped : Bool × BufferedWriteSyncer σ :=
  match s.writer with
  | none => (false, s)
  | some _ => if s.stopped then (false, s) else (true, { s with stopped := true })

end BufferedWriteSyncer

/-- A critical section. -/
inductive Section where
  | write (bs : Bytes)
  | sync
  | tick
  | stop

/-- What a section returns. The flush of a tick drops its errors. -/
inductive Answer where
  | wrote (n : Nat) (err : Option Bytes)
  | synced (errs : List Bytes)
  | ticked
  | marked (first : Bool)

namespace BufferedWriteSyncer

variable {σ : Type} (ws : WriteSyncer σ)

/-- Run a section. -/
def step (s : BufferedWriteSyncer σ) : Section → Answer × BufferedWriteSyncer σ
  | .write bs =>
    let (r, s) := s.write ws bs
    (.wrote r.1 r.2, s)
  | .sync =>
    let (errs, s) := s.sync ws
    (.synced errs, s)
  | .tick => (.ticked, (s.sync ws).2)
  | .stop =>
    let (first, s) := s.markStopped
    (.marked first, s)

/-- Run sections in the order in which they get the lock, and note what they return. -/
def run : List Section → BufferedWriteSyncer σ → List (Section × Answer) × BufferedWriteSyncer σ
  | [], s => ([], s)
  | c :: cs, s =>
    let (a, s) := s.step ws c
    let (rest, s) := run cs s
    ((c, a) :: rest, s)

end BufferedWriteSyncer

/-- The bytes that a section acknowledges: of the argument of `Write`, as many as it returns. -/
def Section.acknowledged : Section → Answer → Bytes
  | .write bs, .wrote n _ => bs.take n
  | _, _ => []

/-- The argument of a `Write`. -/
def Section.argument : Section → List Bytes
  | .write bs => [bs]
  | _ => []

end Zap.Zapcore
