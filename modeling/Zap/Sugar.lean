import Zap.Logger
import Zap.Zapcore.Field

/-!
# Sugared loggers

`SugaredLogger` of `sugar.go`: methods that format their message in the manner of `Sprint`,
`Sprintf` or `Sprintln`, or take loosely typed fields. Each level has four of them, and so has
`Log`.

An argument is whatever the type switches of `sweetenFields` can tell apart. The `fmt` package and
the making of fields out of values are parameters (`Format`).
-/

set_option autoImplicit false

namespace Zap

open Data Zapcore

/-- An argument of a method: a `Field`, an `error`, a `string`, or something else. -/
inductive Arg (F V : Type) where
  | field (f : F)
  | error (err : V)
  | string (s : Bytes)
  | other (v : V)

/-- Functions of the `fmt` package, and fields made out of arguments: `Any`, `Error` and the array
of `invalidPairs`, each of which has the position of its key. -/
class Format (F : Type) (V : outParam Type) where
  sprint : List (Arg F V) → Bytes
  sprintf : Bytes → List (Arg F V) → Bytes
  sprintln : List (Arg F V) → Bytes
  any : Bytes → Arg F V → F
  error : V → F
  invalid : List (Nat × Arg F V × Arg F V) → F

/-- A `SugaredLogger`. -/
structure SugaredLogger (E F : Type) where
  base : Logger E F

variable {E F V : Type}

/-- `Sugar`. -/
def Logger.sugar (log : Logger E F) : SugaredLogger E F :=
  ⟨{ log with callerSkip := log.callerSkip + 2 }⟩

/-- `Desugar`. -/
def SugaredLogger.desugar (s : SugaredLogger E F) : Logger E F :=
  { s.base with callerSkip := s.base.callerSkip - 2 }

/-! ## Messages -/

section

variable [Format F V]

/-- `getMessage`. -/
def getMessage (template : Bytes) (fmtArgs : List (Arg F V)) : Bytes :=
  if fmtArgs = [] then template
  else if template ≠ [] then Format.sprintf template fmtArgs
  else
    match fmtArgs with
    | [.string s] => s
    | _ => Format.sprint fmtArgs

/-- `getMessageln`, which takes off the newline at the end. -/
def getMessageln (fmtArgs : List (Arg F V)) : Bytes := (Format.sprintln fmtArgs).dropLast

end

/-! ## Fields -/

def oddNumberErrMsg : Bytes := utf8 "Ignored key without a value."
def nonStringKeyErrMsg : Bytes := utf8 "Ignored key-value pairs with non-string keys."
def multipleErrMsg : Bytes := utf8 "Multiple errors without a key."

/-! ### Pairs whose keys are not strings

How the field looks that `Format.invalid` stands for, where fields are those of `zapcore`
(`Format.ofFields`). -/

section

variable [Host] (any : Bytes → Arg Zapcore.Field V → Zapcore.Field)

/-- `invalidPair.MarshalLogObject`. -/
def marshalInvalidPair (p : Nat × Arg Zapcore.Field V × Arg Zapcore.Field V) : ObjectMarshaler :=
  .add (utf8 "position") (.prim (.int .int64 (Int64.ofNat p.1)))
    ((any (utf8 "key") p.2.1).addTo.andThen fun _ =>
      (any (utf8 "value") p.2.2).addTo.andThen fun _ => .done none)

/-- `multierr.Append`, by the text of its result. -/
def appendError : Option Bytes → Option Bytes → Option Bytes
  | none, right => right
  | some left, none => some left
  | some left, some right => some (left ++ utf8 "; " ++ right)

/-- The loop of `invalidPairs.MarshalLogArray`. -/
def marshalInvalidPairs : List (Nat × Arg Zapcore.Field V × Arg Zapcore.Field V) →
    Option Bytes → ArrayMarshaler
  | [], err => .done err
  | p :: ps, err =>
    .appendObject (marshalInvalidPair any p) fun e => marshalInvalidPairs ps (appendError err e)

/-- `Array("invalid", invalid)`. -/
def invalidField (invalid : List (Nat × Arg Zapcore.Field V × Arg Zapcore.Field V)) :
    Zapcore.Field where
  key := utf8 "invalid"
  type := .arrayMarshaler
  integer := 0
  string := []
  interface := .array (marshalInvalidPairs any invalid none)

/-- Fields of `zapcore`. The `fmt` package is still a parameter, and so are `Any` and `Error`. -/
abbrev Format.ofFields (sprint sprintln : List (Arg Zapcore.Field V) → Bytes)
    (sprintf : Bytes → List (Arg Zapcore.Field V) → Bytes) (error : V → Zapcore.Field) :
    Format Zapcore.Field V :=
  ⟨sprint, sprintf, sprintln, any, error, invalidField any⟩

end

namespace SugaredLogger

section

variable [Encoder E F] [Environment E F] [Process E F] [Format F V]

/-- The loop of `sweetenFields` from an argument on, which has the index `i`. -/
def sweeten (s : SugaredLogger E F) : List (Arg F V) → Nat → Bool → List F →
    List (Nat × Arg F V × Arg F V) → World E F → List F × List (Nat × Arg F V × Arg F V) × World E F
  | [], _, _, fields, invalid, w => (fields, invalid, w)
  | .field f :: args, i, seenError, fields, invalid, w =>
    s.sweeten args (i + 1) seenError (fields ++ [f]) invalid w
  | .error err :: args, i, seenError, fields, invalid, w =>
    if !seenError then s.sweeten args (i + 1) true (fields ++ [Format.error err]) invalid w
    else
      s.sweeten args (i + 1) seenError fields invalid
        (s.base.log .error multipleErrMsg [Format.error err] w)
  | [arg], _, _, fields, invalid, w =>
    (fields, invalid, s.base.log .error oddNumberErrMsg [Format.any (utf8 "ignored") arg] w)
  | .string key :: val :: args, i, seenError, fields, invalid, w =>
    s.sweeten args (i + 2) seenError (fields ++ [Format.any key val]) invalid w
  | key :: val :: args, i, seenError, fields, invalid, w =>
    s.sweeten args (i + 2) seenError fields (invalid ++ [(i, key, val)]) w

/-- `sweetenFields`. -/
def sweetenFields (s : SugaredLogger E F) (args : List (Arg F V)) (w : World E F) :
    List F × World E F :=
  let (fields, invalid, w) := s.sweeten args 0 false [] [] w
  if invalid = [] then (fields, w)
  else (fields, s.base.log .error nonStringKeyErrMsg [Format.invalid invalid] w)

/-- `With`. -/
def withFields (s : SugaredLogger E F) (args : List (Arg F V)) (w : World E F) :
    SugaredLogger E F × World E F :=
  let (fields, w) := s.sweetenFields args w
  let (base, w) := s.base.withFields fields w
  (⟨base⟩, w)

/-- `log` and `logln` after their early return: a message is checked, and only then are the fields
made that are written with it. -/
def write (s : SugaredLogger E F) (lvl : Level) (msg : Bytes) (context : List (Arg F V))
    (w : World E F) : World E F :=
  match s.base.check lvl msg w with
  | (none, w) => w
  | (some ce, w) =>
    let (fields, w) := s.sweetenFields context w
    CheckedEntry.write (some ce) fields w

/-- `log`. -/
def log (s : SugaredLogger E F) (lvl : Level) (template : Bytes) (fmtArgs context : List (Arg F V))
    (w : World E F) : World E F :=
  if lvl < Level.dpanic && !s.base.core.enabled lvl then w
  else s.write lvl (getMessage template fmtArgs) context w

/-- `logln`. -/
def logln (s : SugaredLogger E F) (lvl : Level) (fmtArgs context : List (Arg F V))
    (w : World E F) : World E F :=
  if lvl < Level.dpanic && !s.base.core.enabled lvl then w
  else s.write lvl (getMessageln fmtArgs) context w

/-- `Debug`, …, `Fatal` and `Log`. -/
def print (s : SugaredLogger E F) (method : Method) (args : List (Arg F V)) (w : World E F) :
    World E F :=
  s.log method.level [] args [] w

/-- `Debugf`, …, `Fatalf` and `Logf`. -/
def printf (s : SugaredLogger E F) (method : Method) (template : Bytes) (args : List (Arg F V))
    (w : World E F) : World E F :=
  s.log method.level template args [] w

/-- `Debugw`, …, `Fatalw` and `Logw`. -/
def printw (s : SugaredLogger E F) (method : Method) (msg : Bytes) (keysAndValues : List (Arg F V))
    (w : World E F) : World E F :=
  s.log method.level msg [] keysAndValues w

/-- `Debugln`, …, `Fatalln` and `Logln`. -/
def println (s : SugaredLogger E F) (method : Method) (args : List (Arg F V)) (w : World E F) :
    World E F :=
  s.logln method.level args [] w

end

end SugaredLogger

end Zap
