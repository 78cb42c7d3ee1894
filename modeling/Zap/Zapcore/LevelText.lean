import Zap.Data.Casing
import Zap.Zapcore.Entry

/-!
# Levels from text

The parsing half of `zapcore/level.go`. A level that a method changes through its pointer is the
last component of what the method returns; a nil pointer is `none`.
-/

set_option autoImplicit false

namespace Zap.Zapcore.Level

open Data

/-- `l.unmarshalText`: whether the text is a name, and the level. -/
def tryUnmarshalText (l : Level) (text : Bytes) : Bool × Level :=
  if text = utf8 "debug" then (true, debug)
  -- make the zero value useful
  else if text = utf8 "info" ∨ text = utf8 "" then (true, info)
  else if text = utf8 "warn" ∨ text = utf8 "warning" then (true, warn)
  else if text = utf8 "error" then (true, error)
  else if text = utf8 "dpanic" then (true, dpanic)
  else if text = utf8 "panic" then (true, panic)
  else if text = utf8 "fatal" then (true, fatal)
  else (false, l)

/-- The errors of `UnmarshalText`. -/
inductive TextError where
  | unmarshalNilLevel
  | unrecognized (text : Bytes)
  deriving DecidableEq

/-- The text of an error; `quote` is how `%q` prints the text. -/
def TextError.text (quote : Bytes → Bytes) : TextError → Bytes
  | .unmarshalNilLevel => utf8 "can't unmarshal a nil *Level"
  | .unrecognized text => utf8 "unrecognized level: " ++ quote text

variable [Casing]

/-- `l.UnmarshalText`. -/
def unmarshalText (l : Option Level) (text : Bytes) : Option TextError × Option Level :=
  match l with
  | none => (some .unmarshalNilLevel, none)
  | some l =>
    match l.tryUnmarshalText text with
    | (true, l) => (none, some l)
    | (false, l) =>
      match l.tryUnmarshalText (toLower text) with
      | (true, l) => (none, some l)
      | (false, l) => (some (.unrecognized text), some l)

/-- `ParseLevel`, with the error last. -/
def parseLevel (text : Bytes) : Level × Option TextError :=
  let (err, level) := unmarshalText (some 0) text
  (level.getD 0, err)

end Zap.Zapcore.Level
