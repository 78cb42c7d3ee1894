import Zap.Logger
import Zap.Writer
import Zap.Zapcore.Encoder

/-!
# Configurations

`Config` of `config.go`, and `newEncoder` of `encoder.go`. `Build` looks for its encoder and its
level before it opens any output, and makes a logger once all outputs are open.

A core knows a destination by a number; which number stands for a write syncer, how an encoder is
constructed and how a value becomes a field is left to `Setup`. The values of `InitialFields`, and
what users put into a sampling hook, stay what they are.
-/

set_option autoImplicit false

namespace Zap

open Data Zapcore

/-- `SamplingConfig`. -/
structure SamplingConfig where
  initial : Int64
  thereafter : Int64
  hook : Option Nat

/-- `Config`. A `Level` that was never made is `none`. A map has each key once; its order is not
known. -/
structure Config (V : Type) where
  level : Option LevelEnabler
  development : Bool
  disableCaller : Bool
  disableStacktrace : Bool
  sampling : Option SamplingConfig
  encoding : Bytes
  encoderConfig : EncoderConfig
  outputPaths : List Bytes
  errorOutputPaths : List Bytes
  initialFields : List (Bytes × V)

/-- The constructors of encoders by their names, `Any`, and the numbers of write syncers. -/
class Setup (E F : Type) (V : outParam Type) where
  constructor : Bytes → Option (EncoderConfig → Except Bytes E)
  any : Bytes → V → F
  destination : Syncer → Nat

variable {E F V : Type} [Sinks] [Setup E F V]

/-- `newEncoder`. -/
def newEncoder (name : Bytes) (encoderConfig : EncoderConfig) : Except Bytes E :=
  if encoderConfig.timeKey ≠ [] ∧ encoderConfig.encodeTime.isNone then
    .error (utf8 "missing EncodeTime in EncoderConfig")
  else if name = [] then .error (utf8 "no encoder name specified")
  else
    match Setup.constructor F name with
    | none => .error (utf8 "no encoder registered for name " ++ Sinks.quote name)
    | some constructor => constructor encoderConfig

namespace Config

/-- `openSinks`. -/
def openSinks (cfg : Config V) (tr : List DeviceEvent) :
    Except (List Bytes) (Syncer × Syncer) × List DeviceEvent :=
  match openWriters cfg.outputPaths tr with
  | (.error err, tr) => (.error err, tr)
  | (.ok (sink, closeOut), tr) =>
    match openWriters cfg.errorOutputPaths tr with
    | (.error err, tr) => (.error err, closeAll closeOut tr)
    | (.ok (errSink, _), tr) => (.ok (sink, errSink), tr)

/-- The level at which `buildOptions` has stack traces taken. -/
def stackLevel (cfg : Config V) : Level := if cfg.development then Level.warn else Level.error

/-- The sampling core of `buildOptions`: one second is a window. -/
def sampled (scfg : SamplingConfig) : LoggerOption E F :=
  .wrapCore fun core w =>
    newSamplerWithOptions core 1000000000 scfg.initial scfg.thereafter scfg.hook w

/-- The initial fields, in the order of their keys. -/
def initial (cfg : Config V) : List F :=
  (cfg.initialFields.mergeSort fun a b => decide (a.1 ≤ b.1)).map fun kv => Setup.any E kv.1 kv.2

/-- `buildOptions`. -/
def buildOptions (cfg : Config V) (errSink : Syncer) : List (LoggerOption E F) :=
  [.errorOutput (Setup.destination E F errSink)] ++
    (if cfg.development then [.development] else []) ++
    (if !cfg.disableCaller then [.withCaller true] else []) ++
    (if !cfg.disableStacktrace then [.addStacktrace (.level cfg.stackLevel)] else []) ++
    (cfg.sampling.map sampled).toList ++
    (if cfg.initialFields.length > 0 then [.fields (cfg.initial (E := E))] else [])

/-- `Build`: the logger or an error, and what became of the outputs. -/
def build [Encoder E F] [Process E F] (cfg : Config V) (opts : List (LoggerOption E F))
    (w : World E F) (tr : List DeviceEvent) :
    Except (List Bytes) (Logger E F × World E F) × List DeviceEvent :=
  match newEncoder (E := E) (F := F) cfg.encoding cfg.encoderConfig with
  | .error err => (.error [err], tr)
  | .ok enc =>
    match cfg.level with
    | none => (.error [utf8 "missing Level"], tr)
    | some level =>
      match cfg.openSinks tr with
      | (.error err, tr) => (.error err, tr)
      | (.ok (sink, errSink), tr) =>
        let (log, w) := Logger.new (some (newCore enc (Setup.destination E F sink) level))
          (cfg.buildOptions errSink) w
        (.ok (if opts.length > 0 then log.withOptions opts w else (log, w)), tr)

end Config

end Zap
