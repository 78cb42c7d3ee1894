import Zap.Sugar
import Zap.Zapcore.Unwinding

/-!
# Loggers whose encoders panic

The methods of `Logger` and `SugaredLogger` that log, for encoders that may panic. Nothing in
`logger.go` and `sugar.go` recovers, so a panic of an encoder ends the method, and with it the message:
`CheckedEntry.Write` does not get to the hook that a fatal message is to end with.
-/

set_option autoImplicit false

namespace Zap

open Data Zapcore

variable {E F V : Type}

namespace Logger

section

variable [Environment E F] [Process E F]

/-- `check` behind `Check` of the core. -/
def conclude (log : Logger E F) (ent : Entry) (ce : Option (CheckedEntry E F)) (w : World E F) :
    Option (CheckedEntry E F) × World E F :=
  let willWrite := ce.isSome
  match log.terminate ent ce with
  | none => (none, w)
  | some ce =>
    if !willWrite then (some ce, w)
    else
      let (ce, w) := log.annotate ent ce w
      (some ce, w)

end

variable [Encoder E F] [Panics E F] [Environment E F] [Process E F]

/-- `check` after its early return. -/
def checkCore? (log : Logger E F) (lvl : Level) (msg : Bytes) (w : World E F) :
    Attempt (World E F) (Option (CheckedEntry E F)) :=
  let ent := log.entry lvl msg w
  (log.core.check? ent none w).bind fun ce w => .of (log.conclude ent ce w)

/-- `check`. -/
def check? (log : Logger E F) (lvl : Level) (msg : Bytes) (w : World E F) :
    Attempt (World E F) (Option (CheckedEntry E F)) :=
  if lvl < Level.dpanic && !log.core.enabled lvl then (some none, w) else log.checkCore? lvl msg w

/-- `Debug`, …, `Fatal` and `Log`. -/
def log? (log : Logger E F) (method : Method) (msg : Bytes) (fields : List F) (w : World E F) :
    Attempt (World E F) Unit :=
  (log.check? method.level msg w).bind fun ce w => CheckedEntry.write? ce fields w

end Logger

namespace SugaredLogger

variable [Encoder E F] [Panics E F] [Environment E F] [Process E F] [Format F V]

/-- The loop of `sweetenFields` from an argument on, which has the index `i`. -/
def sweeten? (s : SugaredLogger E F) : List (Arg F V) → Nat → Bool → List F →
    List (Nat × Arg F V × Arg F V) → World E F →
    Attempt (World E F) (List F × List (Nat × Arg F V × Arg F V))
  | [], _, _, fields, invalid, w => (some (fields, invalid), w)
  | .field f :: args, i, seenError, fields, invalid, w =>
    s.sweeten? args (i + 1) seenError (fields ++ [f]) invalid w
  | .error err :: args, i, seenError, fields, invalid, w =>
    if !seenError then s.sweeten? args (i + 1) true (fields ++ [Format.error err]) invalid w
    else
      (s.base.log? .error multipleErrMsg [Format.error err] w).bind fun _ w =>
        s.sweeten? args (i + 1) seenError fields invalid w
  | [arg], _, _, fields, invalid, w =>
    (s.base.log? .error oddNumberErrMsg [Format.any (utf8 "ignored") arg] w).bind fun _ w =>
      (some (fields, invalid), w)
  | .string key :: val :: args, i, seenError, fields, invalid, w =>
    s.sweeten? args (i + 2) seenError (fields ++ [Format.any key val]) invalid w
  | key :: val :: args, i, seenError, fields, invalid, w =>
    s.sweeten? args (i + 2) seenError fields (invalid ++ [(i, key, val)]) w

/-- `sweetenFields`. -/
def sweetenFields? (s : SugaredLogger E F) (args : List (Arg F V)) (w : World E F) :
    Attempt (World E F) (List F) :=
  (s.sweeten? args 0 false [] [] w).bind fun p w =>
    if p.2 = [] then (some p.1, w)
    else
      (s.base.log? .error nonStringKeyErrMsg [Format.invalid p.2] w).bind fun _ w => (some p.1, w)

/-- `log` and `logln` after their early return. -/
def write? (s : SugaredLogger E F) (lvl : Level) (msg : Bytes) (context : List (Arg F V))
    (w : World E F) : Attempt (World E F) Unit :=
  (s.base.check? lvl msg w).bind fun ce w =>
    match ce with
    | none => (some (), w)
    | some ce =>
      (s.sweetenFields? context w).bind fun fields w => CheckedEntry.write? (some ce) fields w

/-- `log`. -/
def log? (s : SugaredLogger E F) (lvl : Level) (template : Bytes) (fmtArgs context : List (Arg F V))
    (w : World E F) : Attempt (World E F) Unit :=
  if lvl < Level.dpanic && !s.base.core.enabled lvl then (some (), w)
  else s.write? lvl (getMessage template fmtArgs) context w

/-- `logln`. -/
def logln? (s : SugaredLogger E F) (lvl : Level) (fmtArgs context : List (Arg F V))
    (w : World E F) : Attempt (World E F) Unit :=
  if lvl < Level.dpanic && !s.base.core.enabled lvl then (some (), w)
  else s.write? lvl (getMessageln fmtArgs) context w

/-- `Debug`, …, `Fatal` and `Log`. -/
def print? (s : SugaredLogger E F) (method : Method) (args : List (Arg F V)) (w : World E F) :
    Attempt (World E F) Unit :=
  s.log? method.level [] args [] w

/-- `Debugf`, …, `Fatalf` and `Logf`. -/
def printf? (s : SugaredLogger E F) (method : Method) (template : Bytes) (args : List (Arg F V))
    (w : World E F) : Attempt (World E F) Unit :=
  s.log? method.level template args [] w

/-- `Debugw`, …, `Fatalw` and `Logw`. -/
def printw? (s : SugaredLogger E F) (method : Method) (msg : Bytes)
    (keysAndValues : List (Arg F V)) (w : World E F) : Attempt (World E F) Unit :=
  s.log? method.level msg [] keysAndValues w

/-- `Debugln`, …, `Fatalln` and `Logln`. -/
def println? (s : SugaredLogger E F) (method : Method) (args : List (Arg F V)) (w : World E F) :
    Attempt (World E F) Unit :=
  s.logln? method.level args [] w

end SugaredLogger

end Zap
