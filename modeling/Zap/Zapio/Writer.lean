import Zap.Logger

/-!
# A writer that logs lines

`Writer` of `zapio/writer.go`: an `io.Writer` that splits what it is given into lines and logs
them. A line that has not ended yet is kept in a buffer.

A message at some levels ends with a terminal hook. If the hook panics, or ends the goroutine or the
process, then the call that logged the message does not return, and nor do its callers: an outcome
is an `Except`, whose error is what is left behind then.
-/

set_option autoImplicit false

namespace Zap.Zapcore

/-- Whether a hook of the user comes back from `OnWrite`. -/
class UserHooks where
  returns : Nat → Bool

/-- Whether `OnWrite` returns. -/
def CheckWriteHook.returns [UserHooks] : CheckWriteHook → Bool
  | .noop => true
  | .goexit => false
  | .panic => false
  | .fatal => false
  | .custom id => UserHooks.returns id

end Zap.Zapcore

namespace Zap.Zapio

open Data Zapcore

/-- A `Writer`. The field `Log` is `logger` here. -/
structure Writer (E F : Type) where
  logger : Logger E F
  level : Level
  buff : Bytes

variable {E F : Type}

/-- A call of a method returns, or leaves the writer and the world to whoever recovers. -/
abbrev Outcome (E F α : Type) := Except (Writer E F × World E F) α

namespace Writer

variable [Encoder E F] [Environment E F] [Process E F] [UserHooks]

/-- `log`. -/
def log (w : Writer E F) (b : Bytes) (world : World E F) : Outcome E F (World E F) :=
  match w.logger.check w.level b world with
  | (none, world) => .ok world
  | (some ce, world) =>
    let world := CheckedEntry.write (some ce) [] world
    if (ce.after.map CheckWriteHook.returns).getD true then .ok world else .error (w, world)

/-- `flush`. -/
def flush (w : Writer E F) (allowEmpty : Bool) (world : World E F) :
    Outcome E F (Writer E F × World E F) :=
  if allowEmpty ∨ 0 < w.buff.length then do
    let world ← w.log w.buff world
    .ok ({ w with buff := [] }, world)
  else .ok ({ w with buff := [] }, world)

/-- `writeLine`: log one line and return the bytes behind it, or buffer them all. -/
def writeLine (w : Writer E F) (line : Bytes) (world : World E F) :
    Outcome E F (Bytes × Writer E F × World E F) :=
  match line.idxOf? 0x0A with
  | none => .ok ([], { w with buff := w.buff ++ line }, world)
  | some idx =>
    let remaining := line.drop (idx + 1)
    let line := line.take idx
    -- nothing is buffered, so the line need not go through the buffer
    if w.buff.length = 0 then do
      let world ← w.log line world
      .ok (remaining, w, world)
    else do
      let (w, world) ← flush { w with buff := w.buff ++ line } true world
      .ok (remaining, w, world)

/-- The loop of `Write`. Each turn uses up a byte at least, so as many turns as there are bytes are
enough. -/
def writeLines : Nat → Writer E F → Bytes → World E F → Outcome E F (Writer E F × World E F)
  | 0, w, _, world => .ok (w, world)
  | fuel + 1, w, bs, world =>
    if bs = [] then .ok (w, world)
    else do
      let (bs, w, world) ← w.writeLine bs world
      writeLines fuel w bs world

/-- `Write`: the number of bytes, and no error. -/
def write (w : Writer E F) (bs : Bytes) (world : World E F) :
    Outcome E F ((Nat × Option Bytes) × Writer E F × World E F) :=
  if !w.logger.core.enabled w.level then .ok ((bs.length, none), w, world)
  else do
    let (w, world) ← writeLines bs.length w bs world
    .ok ((bs.length, none), w, world)

/-- `Sync`, which returns no error. -/
def sync (w : Writer E F) (world : World E F) :
    Outcome E F (Option Bytes × Writer E F × World E F) := do
  let (w, world) ← w.flush false world
  .ok (none, w, world)

/-- `Close`. -/
def close (w : Writer E F) (world : World E F) :
    Outcome E F (Option Bytes × Writer E F × World E F) :=
  w.sync world

end Writer

/-- A call of a method of a writer. -/
inductive Call where
  | write (bs : Bytes)
  | sync
  | close

/-- What a call returns: a count, if it is one of `Write`, and an error. -/
abbrev Answer := Option Nat × Option Bytes

namespace Writer

variable [Encoder E F] [Environment E F] [Process E F] [UserHooks]

/-- Make a call. -/
def call (w : Writer E F) (world : World E F) :
    Call → Outcome E F (Answer × Writer E F × World E F)
  | .write bs => do
    let ((n, err), w, world) ← w.write bs world
    .ok ((some n, err), w, world)
  | .sync => do
    let (err, w, world) ← w.sync world
    .ok ((none, err), w, world)
  | .close => do
    let (err, w, world) ← w.close world
    .ok ((none, err), w, world)

/-- Make calls, one after the other. -/
def calls (w : Writer E F) (world : World E F) :
    List Call → Outcome E F (List Answer × Writer E F × World E F)
  | [] => .ok ([], w, world)
  | c :: cs => do
    let (answer, w, world) ← w.call world c
    let (answers, w, world) ← w.calls world cs
    .ok (answer :: answers, w, world)

end Writer

end Zap.Zapio
