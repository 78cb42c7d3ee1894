import Zap.Data.TrimSpace
import Zap.Logger

/-!
# The standard library's logger

`global.go` as far as it is about package `log`: `NewStdLog`, `NewStdLogAt`, `RedirectStdLog` and
`RedirectStdLogAt`. A `log.Logger` has flags, a prefix and an output. The package has one that is
global, which is the state that a redirect changes and that the function it returns restores.
-/

set_option autoImplicit false

namespace Zap

open Data Zapcore

variable {E F : Type}

/-- `_stdLogDefaultDepth`. -/
def stdLogDefaultDepth : Int := 1

/-- `_loggerWriterDepth`. -/
def loggerWriterDepth : Int := 2

/-- Where a `log.Logger` writes to: a `loggerWriter`, or a destination that zap has no part in. -/
inductive StdOutput (E F : Type) where
  | destination (out : Nat)
  | loggerWriter (logger : Logger E F) (logFunc : Method)

/-- What is written before each message: the flags say what about time and file, and the prefix is
written as it is. -/
structure StdHeader where
  flags : Int64
  text : Bytes
  deriving DecidableEq

/-- A `log.Logger`. -/
structure StdLog (E F : Type) where
  header : StdHeader
  output : StdOutput E F

/-- `os.Stderr`. -/
def StdOutput.stderr [Process E F] : StdOutput E F := .destination (Process.stderr E F)

namespace StdHeader

/-- No flags and no prefix. -/
def blank : StdHeader := ⟨0, []⟩

/-- `log.Lmsgprefix`: the prefix comes right before the message. -/
def lmsgprefix : Int64 := 64

/-- `log.Ldate`, `Ltime`, `Lmicroseconds`, `Llongfile` and `Lshortfile`. -/
def lannotations : Int64 := 31

/-- `formatHeader`; `annotations` are the time and the file, in the format of the flags. -/
def format (annotations : Int64 → Bytes) (h : StdHeader) : Bytes :=
  (if h.flags &&& lmsgprefix = 0 then h.text else []) ++
    (if h.flags &&& lannotations = 0 then [] else annotations h.flags) ++
      (if h.flags &&& lmsgprefix = 0 then [] else h.text)

end StdHeader

section Writing

variable [Encoder E F] [Environment E F] [Process E F]

/-- `loggerWriter.Write`. It says that it has written what is left of the bytes. -/
def loggerWriterWrite (logger : Logger E F) (logFunc : Method) (p : Bytes) (w : World E F) :
    Nat × World E F :=
  let p := trimSpace p
  (p.length, logger.log logFunc p [] w)

def StdOutput.write (p : Bytes) (w : World E F) : StdOutput E F → World E F
  | .destination out => (w.output out p).2
  | .loggerWriter logger logFunc => (loggerWriterWrite logger logFunc p w).2

/-- `Print` of a `log.Logger` and the like, which end a message with a newline. -/
def StdLog.print (annotations : Int64 → Bytes) (std : StdLog E F) (msg : Bytes) (w : World E F) :
    World E F :=
  let buf := std.header.format annotations ++ msg
  std.output.write (if buf.getLast? = some 0x0A then buf else buf ++ [0x0A]) w

end Writing

/-! ## Redirecting -/

/-- The error for a level that has no method. `%q` puts the level's name into quotes. -/
def unrecognizedLevel (lvl : Level) : Bytes :=
  utf8 "unrecognized level: \"" ++ lvl.string ++ utf8 "\""

/-- `levelToFunc`: the method of a logger that logs at a level. -/
def levelToFunc (lvl : Level) : Except Bytes Method :=
  if lvl = Level.debug then .ok .debug
  else if lvl = Level.info then .ok .info
  else if lvl = Level.warn then .ok .warn
  else if lvl = Level.error then .ok .error
  else if lvl = Level.dpanic then .ok .dpanic
  else if lvl = Level.panic then .ok .panic
  else if lvl = Level.fatal then .ok .fatal
  else .error (unrecognizedLevel lvl)

namespace Logger

/-- `l.WithOptions(AddCallerSkip(_stdLogDefaultDepth + _loggerWriterDepth))`. -/
def skipStdLog (l : Logger E F) : Logger E F :=
  { l with callerSkip := l.callerSkip + (stdLogDefaultDepth + loggerWriterDepth) }

/-- `NewStdLog`. -/
def newStdLog (l : Logger E F) : StdLog E F := ⟨.blank, .loggerWriter l.skipStdLog .info⟩

/-- `NewStdLogAt`. -/
def newStdLogAt (l : Logger E F) (lvl : Level) : Except Bytes (StdLog E F) := do
  let logFunc ← levelToFunc lvl
  return ⟨.blank, .loggerWriter l.skipStdLog logFunc⟩

end Logger

/-- The function that a redirect returns, by the variables that it has captured. -/
structure Restore where
  header : StdHeader

/-- What the function does. -/
def Restore.call [Process E F] (f : Restore) (_ : StdLog E F) : StdLog E F := ⟨f.header, .stderr⟩

/-- `redirectStdLogAt`, which `RedirectStdLogAt` calls. The flags and the prefix are changed before
the level is looked at. -/
def redirectStdLogAt (l : Logger E F) (lvl : Level) (std : StdLog E F) :
    Except Bytes Restore × StdLog E F :=
  let header := std.header
  let std := { std with header := .blank }
  match levelToFunc lvl with
  | .error err => (.error err, std)
  | .ok logFunc => (.ok ⟨header⟩, { std with output := .loggerWriter l.skipStdLog logFunc })

/-- `RedirectStdLog`; `none` is its panic. -/
def redirectStdLog (l : Logger E F) (std : StdLog E F) : Option Restore × StdLog E F :=
  match redirectStdLogAt l Level.info std with
  | (.error _, std) => (none, std)
  | (.ok f, std) => (some f, std)

/-! ## Sequences of redirects -/

/-- A redirect, or a call of the function that the last redirect returned among those whose function
was not called yet. -/
inductive RedirectCall (E F : Type) where
  | redirect (l : Logger E F) (lvl : Level)
  | restore

/-- The global logger, and the functions that are still to be called, the last one first. -/
structure Redirected (E F : Type) where
  std : StdLog E F
  restores : List Restore

/-- One call; `none` if there is no function to call. -/
def RedirectCall.run [Process E F] : RedirectCall E F → Redirected E F → Option (Redirected E F)
  | .redirect l lvl, s =>
    match redirectStdLogAt l lvl s.std with
    | (.error _, std) => some { s with std }
    | (.ok f, std) => some ⟨std, f :: s.restores⟩
  | .restore, s =>
    match s.restores with
    | [] => none
    | f :: restores => some ⟨f.call s.std, restores⟩

/-- Calls in order. -/
def Redirected.run [Process E F] (s : Redirected E F) : List (RedirectCall E F) →
    Option (Redirected E F)
  | [] => some s
  | call :: calls => (call.run s).bind fun s => s.run calls

end Zap
