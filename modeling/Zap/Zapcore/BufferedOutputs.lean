import Zap.Data.History
import Zap.Zapcore.BufferedWriteSyncer
import Zap.Zapcore.Core

/-!
# Cores over buffered write syncers

A process in which each destination of a core is a `BufferedWriteSyncer`. What a destination answers
follows from what went to it before, so its state is computed from the trace: every call of `Write`
or `Sync` is a critical section, and between two calls the flush loop may run any number of times.
-/

set_option autoImplicit false

namespace Zap.Zapcore

open Data

/-- The destinations of a process: what each of them writes to and the size of its buffer, when the
flush loop of a destination runs, and the text of a report. Hooks answer what they like. -/
structure BufferedOutputs (σ E F : Type) where
  ws : Nat → WriteSyncer σ
  dev : Nat → σ
  size : Nat → Int
  ticks : Nat → List (Event E F) → Nat
  text : Report → Bytes
  hook : List (Event E F) → Nat → Entry → Option Bytes

namespace BufferedOutputs

variable {σ E F : Type} (p : BufferedOutputs σ E F) (out : Nat)

/-- The calls of a destination that an event stands for. A report is printed to the error output. -/
def calls : Event E F → List Section
  | .output o buf => if o = out then [.write buf] else []
  | .report o r => if o = out then [.write (p.text r)] else []
  | .sync o => if o = out then [.sync] else []
  | _ => []

/-- The runs of the flush loop before the next event. -/
def flushes (before : List (Event E F)) : List Section := List.replicate (p.ticks out before) .tick

/-- The critical sections of a destination. -/
def sections (trace : List (Event E F)) : List Section :=
  history (fun before e => p.flushes out before ++ p.calls out e) trace

/-- A destination after some events. -/
def state (trace : List (Event E F)) : BufferedWriteSyncer σ :=
  (BufferedWriteSyncer.run (p.ws out) (p.sections out trace) (.new (p.size out) (p.dev out))).2

/-- A destination after some events, when it gets its next call. -/
def ready (trace : List (Event E F)) : BufferedWriteSyncer σ :=
  (BufferedWriteSyncer.run (p.ws out) (p.flushes out trace) (p.state out trace)).2

/-- The bytes that a destination was given. -/
def written (trace : List (Event E F)) : Bytes :=
  ((trace.flatMap (p.calls out)).flatMap Section.argument).flatten

/-- The answers of the destinations. -/
@[reducible]
def environment : Environment E F where
  write trace out buf := ((p.ready out trace).write (p.ws out) buf).1.2
  sync trace out :=
    let errs := ((p.ready out trace).sync (p.ws out)).1
    if errs = [] then none else some ((utf8 "; ").intercalate errs)
  hook := p.hook

end BufferedOutputs

end Zap.Zapcore
