import Zap.Zapcore.Entry
import Zap.Zapcore.Field

/-!
# Encoder configuration

`zapcore/encoder.go` and `zapcore/reflected_encoder.go`: the configuration both encoders share,
and the encoding functions the package supplies for levels, times, durations, callers and
logger names; and the two stock configurations of `config.go`. An encoding function is known by the `Append` calls it makes on the
`PrimitiveArrayEncoder` it is given. `encodeTimeLayout` asks that encoder for its own
`AppendTimeLayout`, so a time function may also make that call.
-/

set_option autoImplicit false

namespace Zap.Zapcore

open Data

/-- A call of a time encoding function. -/
inductive AppendCall where
  | prim (p : Prim)
  | timeLayout (t : Time) (layout : Time.Layout)

abbrev LevelEncoder := Level → List Prim

abbrev TimeEncoder := Time → List AppendCall

abbrev DurationEncoder := Duration → List Prim

abbrev CallerEncoder := EntryCaller → List Prim

abbrev NameEncoder := Bytes → List Prim

/-- A `ReflectedEncoder`: what `Encode` writes, or its error. What it wrote before an error is
never read. -/
abbrev ReflectedEncoder := Reflected → Except Bytes Bytes

/-! ## Encoding functions of the package -/

/-- `LowercaseLevelEncoder`. -/
def lowercaseLevelEncoder : LevelEncoder := fun l => [.string (Level.string l)]

/-- `LowercaseColorLevelEncoder`. -/
def lowercaseColorLevelEncoder : LevelEncoder :=
  fun l => [.string ((Level.color l).add (Level.string l))]

/-- `CapitalLevelEncoder`. -/
def capitalLevelEncoder : LevelEncoder := fun l => [.string (Level.capitalString l)]

/-- `CapitalColorLevelEncoder`. -/
def capitalColorLevelEncoder : LevelEncoder :=
  fun l => [.string ((Level.color l).add (Level.capitalString l))]

/-- `float64(nanos) / float64(unit)`. -/
def floatQuotient (nanos : Int64) (unit : Int) : Binary64 :=
  Binary64.div (Binary64.ofInt nanos.toInt) (Binary64.ofInt unit)

/-- `EpochTimeEncoder`. -/
def epochTimeEncoder : TimeEncoder :=
  fun t => [.prim (.float64 (floatQuotient t.unixNano 1000000000))]

/-- `EpochMillisTimeEncoder`. -/
def epochMillisTimeEncoder : TimeEncoder :=
  fun t => [.prim (.float64 (floatQuotient t.unixNano 1000000))]

/-- `EpochNanosTimeEncoder`. -/
def epochNanosTimeEncoder : TimeEncoder := fun t => [.prim (.int .int64 t.unixNano)]

/-- `TimeEncoderOfLayout`. -/
def timeEncoderOfLayout (layout : Time.Layout) : TimeEncoder := fun t => [.timeLayout t layout]

/-- `ISO8601TimeEncoder`. -/
def iso8601TimeEncoder : TimeEncoder := timeEncoderOfLayout Time.iso8601

/-- `RFC3339TimeEncoder`. -/
def rfc3339TimeEncoder : TimeEncoder := timeEncoderOfLayout Time.rfc3339

/-- `RFC3339NanoTimeEncoder`. -/
def rfc3339NanoTimeEncoder : TimeEncoder := timeEncoderOfLayout Time.rfc3339Nano

/-- `SecondsDurationEncoder`. -/
def secondsDurationEncoder : DurationEncoder := fun d => [.float64 (floatQuotient d 1000000000)]

/-- `NanosDurationEncoder`. -/
def nanosDurationEncoder : DurationEncoder := fun d => [.int .int64 d]

/-- `MillisDurationEncoder`. -/
def millisDurationEncoder : DurationEncoder := fun d => [.int .int64 (d / 1000000)]

/-- `StringDurationEncoder`. -/
def stringDurationEncoder : DurationEncoder := fun d => [.string (Duration.string d)]

/-- `FullCallerEncoder`. -/
def fullCallerEncoder : CallerEncoder := fun ec => [.string ec.fullPath]

/-- `ShortCallerEncoder`. -/
def shortCallerEncoder : CallerEncoder := fun ec => [.string ec.trimmedPath]

/-- `FullNameEncoder`. -/
def fullNameEncoder : NameEncoder := fun name => [.string name]

/-- `defaultReflectedEncoder`: the standard library's encoder, HTML escaping off. -/
def defaultReflectedEncoder : ReflectedEncoder := fun v => v.json

/-! ## The configuration -/

/-- `EncoderConfig`. A nil function is `none`. -/
structure EncoderConfig where
  messageKey : Bytes
  levelKey : Bytes
  timeKey : Bytes
  nameKey : Bytes
  callerKey : Bytes
  functionKey : Bytes
  stacktraceKey : Bytes
  skipLineEnding : Bool
  lineEnding : Bytes
  encodeLevel : Option LevelEncoder
  encodeTime : Option TimeEncoder
  encodeDuration : Option DurationEncoder
  encodeCaller : Option CallerEncoder
  encodeName : Option NameEncoder
  newReflectedEncoder : Option ReflectedEncoder
  consoleSeparator : Bytes

namespace EncoderConfig

/-- `DefaultLineEnding`. -/
def defaultLineEnding : Bytes := [0x0A]

/-- The line ending that both constructors settle on. -/
def effectiveLineEnding (cfg : EncoderConfig) : Bytes :=
  if cfg.skipLineEnding then []
  else if cfg.lineEnding = [] then defaultLineEnding
  else cfg.lineEnding

/-- The encoder for reflected values that both constructors settle on. -/
def reflectedEncoder (cfg : EncoderConfig) : ReflectedEncoder :=
  cfg.newReflectedEncoder.getD defaultReflectedEncoder

/-- The name encoder `EncodeEntry` uses. -/
def nameEncoder (cfg : EncoderConfig) : NameEncoder := cfg.encodeName.getD fullNameEncoder

/-- The calls that encode a duration. -/
def durationCalls (cfg : EncoderConfig) (d : Duration) : List AppendCall :=
  match cfg.encodeDuration with
  | some e => (e d).map .prim
  | none => []

/-- The calls that encode a time. -/
def timeCalls (cfg : EncoderConfig) (t : Time) : List AppendCall :=
  match cfg.encodeTime with
  | some e => e t
  | none => []

end EncoderConfig

/-- `NewProductionEncoderConfig`. -/
def newProductionEncoderConfig : EncoderConfig where
  messageKey := utf8 "msg"
  levelKey := utf8 "level"
  timeKey := utf8 "ts"
  nameKey := utf8 "logger"
  callerKey := utf8 "caller"
  functionKey := []
  stacktraceKey := utf8 "stacktrace"
  skipLineEnding := false
  lineEnding := EncoderConfig.defaultLineEnding
  encodeLevel := some lowercaseLevelEncoder
  encodeTime := some epochTimeEncoder
  encodeDuration := some secondsDurationEncoder
  encodeCaller := some shortCallerEncoder
  encodeName := none
  newReflectedEncoder := none
  consoleSeparator := []

/-- `NewDevelopmentEncoderConfig`. -/
def newDevelopmentEncoderConfig : EncoderConfig where
  messageKey := utf8 "M"
  levelKey := utf8 "L"
  timeKey := utf8 "T"
  nameKey := utf8 "N"
  callerKey := utf8 "C"
  functionKey := []
  stacktraceKey := utf8 "S"
  skipLineEnding := false
  lineEnding := EncoderConfig.defaultLineEnding
  encodeLevel := some capitalLevelEncoder
  encodeTime := some iso8601TimeEncoder
  encodeDuration := some stringDurationEncoder
  encodeCaller := some shortCallerEncoder
  encodeName := none
  newReflectedEncoder := none
  consoleSeparator := []

end Zap.Zapcore
