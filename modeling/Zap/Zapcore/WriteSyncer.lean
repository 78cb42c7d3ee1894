import Zap.Data.Bytes

/-!
# Write syncers

`zapcore/write_syncer.go`. A `WriteSyncer` of the user is a device, known by a number; the others
are made of such by this package. What a device answers is the affair of `Devices` and may depend
on everything that happened to devices before.

One goroutine is at work here, so the mutex of a locked syncer has nothing to do.
-/

set_option autoImplicit false

namespace Zap.Zapcore

open Data

/-- A call that reaches a device. A sink, which is a device that can be closed, comes out of
`newSink`, with a path, unless that fails. -/
inductive DeviceEvent where
  | write (device : Nat) (p : Bytes)
  | sync (device : Nat)
  | newSink (path : Bytes) (outcome : Except Bytes Nat)
  | close (device : Nat)

/-- What devices answer to `Write`, a count and an error, and to `Sync`. -/
class Devices where
  write : List DeviceEvent → Nat → Bytes → Int × Option Bytes
  sync : List DeviceEvent → Nat → Option Bytes

/-- A `WriteSyncer`, as this package puts them together. A `writerWrapper` is around a device that
has no `Sync`. -/
inductive Syncer where
  | device (id : Nat)
  | writerWrapper (id : Nat)
  | locked (ws : Syncer)
  | multi (ws : List Syncer)

/-- An `io.Writer`: a `WriteSyncer`, or a device that has no `Sync`. -/
inductive IoWriter where
  | syncer (ws : Syncer)
  | plain (id : Nat)

/-- `AddSync`. -/
def addSync : IoWriter → Syncer
  | .syncer ws => ws
  | .plain id => .writerWrapper id

/-- `Lock`, which does not lock twice. -/
def lock : Syncer → Syncer
  | .locked ws => .locked ws
  | ws => .locked ws

/-- `NewMultiWriteSyncer`. -/
def newMultiWriteSyncer : List Syncer → Syncer
  | [w] => w
  | ws => .multi ws

/-- What a `Write` returns: the number of bytes, and the errors that `multierr` combines. -/
abbrev Written := Int × List Bytes

/-- The running count of `multiWriteSyncer.Write` after a writer that has answered `n`. -/
def countWritten (nWritten n : Int) : Int :=
  if nWritten = 0 ∧ n ≠ 0 then n else if n < nWritten then n else nWritten

namespace Syncer

variable [Devices]

mutual
/-- `Write`. -/
def write : Syncer → Bytes → List DeviceEvent → Written × List DeviceEvent
  | .device id, p, tr =>
    let (n, err) := Devices.write tr id p
    ((n, err.toList), tr ++ [.write id p])
  | .writerWrapper id, p, tr =>
    let (n, err) := Devices.write tr id p
    ((n, err.toList), tr ++ [.write id p])
  | .locked ws, p, tr => ws.write p tr
  | .multi ws, p, tr => writeAll ws p 0 [] tr
/-- The loop of `multiWriteSyncer.Write`. -/
def writeAll : List Syncer → Bytes → Int → List Bytes → List DeviceEvent →
    Written × List DeviceEvent
  | [], _, nWritten, writeErr, tr => ((nWritten, writeErr), tr)
  | w :: ws, p, nWritten, writeErr, tr =>
    let ((n, err), tr) := w.write p tr
    writeAll ws p (countWritten nWritten n) (writeErr ++ err) tr
end

mutual
/-- `Sync`. -/
def sync : Syncer → List DeviceEvent → List Bytes × List DeviceEvent
  | .device id, tr => ((Devices.sync tr id).toList, tr ++ [.sync id])
  | .writerWrapper _, tr => ([], tr)
  | .locked ws, tr => ws.sync tr
  | .multi ws, tr => syncAll ws [] tr
/-- The loop of `multiWriteSyncer.Sync`. -/
def syncAll : List Syncer → List Bytes → List DeviceEvent → List Bytes × List DeviceEvent
  | [], errs, tr => (errs, tr)
  | w :: ws, errs, tr =>
    let (err, tr) := w.sync tr
    syncAll ws (errs ++ err) tr
end

end Syncer

end Zap.Zapcore
