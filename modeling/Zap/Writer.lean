import Zap.Zapcore.WriteSyncer

/-!
# Opening outputs

`writer.go`: `Open` turns paths into sinks and combines them. What `newSink` makes of a path is the
affair of `Sinks`. The function that closes the sinks is known by the list that it goes through.
-/

set_option autoImplicit false

namespace Zap

open Data Zapcore

/-- The sink registry: what comes of `newSink`, given what happened before. `quote` is how `%q`
prints a string, and `discard` is `io.Discard`. -/
class Sinks where
  newSink : List DeviceEvent → Bytes → Except Bytes Nat
  quote : Bytes → Bytes
  discard : Nat

variable [Sinks]

/-- `closeAll`. Errors of `Close` are dropped. -/
def closeAll (closers : List Nat) (tr : List DeviceEvent) : List DeviceEvent :=
  closers.foldl (fun tr c => tr ++ [.close c]) tr

/-- `fmt.Errorf("open sink %q: %w", path, err)`. -/
def openSinkError (path err : Bytes) : Bytes :=
  utf8 "open sink " ++ Sinks.quote path ++ utf8 ": " ++ err

/-- What the loop of `open` has so far. -/
structure Opening where
  writers : List Syncer
  closers : List Nat
  openErr : List Bytes

/-- The loop of `open`. A path that fails does not end it. -/
def openLoop : List Bytes → Opening → List DeviceEvent → Opening × List DeviceEvent
  | [], o, tr => (o, tr)
  | path :: paths, o, tr =>
    let outcome := Sinks.newSink tr path
    let tr := tr ++ [.newSink path outcome]
    match outcome with
    | .error err => openLoop paths { o with openErr := o.openErr ++ [openSinkError path err] } tr
    | .ok sink =>
      openLoop paths { o with writers := o.writers ++ [.device sink], closers := o.closers ++ [sink] } tr

/-- `open`: the writers and the list of `closeAll`, or all errors. -/
def openPaths (paths : List Bytes) (tr : List DeviceEvent) :
    Except (List Bytes) (List Syncer × List Nat) × List DeviceEvent :=
  let (o, tr) := openLoop paths ⟨[], [], []⟩ tr
  if o.openErr ≠ [] then (.error o.openErr, closeAll o.closers tr)
  else (.ok (o.writers, o.closers), tr)

/-- `CombineWriteSyncers`. -/
def combineWriteSyncers (writers : List Syncer) : Syncer :=
  if writers.length = 0 then addSync (.plain Sinks.discard) else lock (newMultiWriteSyncer writers)

/-- `Open`. -/
def openWriters (paths : List Bytes) (tr : List DeviceEvent) :
    Except (List Bytes) (Syncer × List Nat) × List DeviceEvent :=
  match openPaths paths tr with
  | (.error err, tr) => (.error err, tr)
  | (.ok (writers, closers), tr) => (.ok (combineWriteSyncers writers, closers), tr)

end Zap
