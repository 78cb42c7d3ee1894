import Zap.Zapcore.LevelOf

/-!
# Loggers

`Logger` of `logger.go`, with the options of `options.go`. A logger is a core with settings; what
it logs, it logs through `check`, which makes a `CheckedEntry` and sets up what panics and fatal
messages do in the end.

The clock, the error output and the call stack lie outside. A clock is a number like a
destination, and `Process` says what clocks and the runtime answer.
-/

set_option autoImplicit false

namespace Zap

open Data Zapcore

/-- A `runtime.Frame`. -/
structure Frame where
  pc : Nat
  file : Bytes
  line : Int
  function : Bytes

/-- What a logger asks of its process: the time by a clock, and the frames that
`stacktrace.Capture` finds when it skips some, all of them or the first only. The answers may
depend on what happened before. -/
class Process (E F : Type) where
  now : List (Event E F) → Nat → Time
  capture : List (Event E F) → Int → Bool → List Frame
  stderr : Nat
  discard : Nat
  defaultClock : Nat

structure Logger (E F : Type) where
  core : Core E F true
  development : Bool
  addCaller : Bool
  onPanic : Option CheckWriteHook
  onFatal : Option CheckWriteHook
  name : Bytes
  errorOutput : Nat
  addStack : LevelEnabler
  callerSkip : Int
  clock : Nat

/-- An `Option`. -/
inductive LoggerOption (E F : Type) where
  | wrapCore (f : Core E F true → World E F → Core E F true × World E F)
  | hooks (funcs : List Nat)
  | fields (fs : List F)
  | errorOutput (w : Nat)
  | development
  | withCaller (enabled : Bool)
  | addCallerSkip (skip : Int)
  | addStacktrace (lvl : LevelEnabler)
  | increaseLevel (lvl : LevelEnabler)
  | withPanicHook (hook : Option CheckWriteHook)
  | withFatalHook (hook : Option CheckWriteHook)
  | withClock (clock : Nat)

variable {E F : Type}

/-- `apply`. A level that cannot be increased is reported and changes nothing. -/
def LoggerOption.apply [Encoder E F] (opt : LoggerOption E F) (log : Logger E F) (w : World E F) :
    Logger E F × World E F :=
  match opt with
  | .wrapCore f =>
    let (core, w) := f log.core w
    ({ log with core }, w)
  | .hooks funcs => ({ log with core := registerHooks log.core funcs }, w)
  | .fields fs =>
    let (core, w) := log.core.withFields fs w
    ({ log with core := core.lift }, w)
  | .errorOutput out => ({ log with errorOutput := out }, w)
  | .development => ({ log with development := true }, w)
  | .withCaller enabled => ({ log with addCaller := enabled }, w)
  | .addCallerSkip skip => ({ log with callerSkip := log.callerSkip + skip }, w)
  | .addStacktrace lvl => ({ log with addStack := lvl }, w)
  | .increaseLevel lvl =>
    match newIncreaseLevelCore log.core lvl with
    | some core => ({ log with core }, w)
    | none =>
      let refused := Level.supported.reverse.find? fun l => !log.core.enabled l && lvl.enabled l
      (log, w.emit (.report log.errorOutput (.increaseLevel (refused.getD Level.invalid))))
  | .withPanicHook hook => ({ log with onPanic := hook }, w)
  | .withFatalHook hook => ({ log with onFatal := hook }, w)
  | .withClock clock => ({ log with clock }, w)

/-- The text of a stack trace: all frames but the last one, which belongs to the runtime, unless it
is the only one. -/
def formatStack (frame : Frame) (rest : List Frame) : Bytes :=
  (utf8 "\n").intercalate ((frame :: rest.dropLast).map fun frame =>
    frame.function ++ utf8 "\n\t" ++ frame.file ++ utf8 ":" ++ intDecimal frame.line)

/-- The methods that log: one for each level, and `Log`, which is told the level. -/
inductive Method where
  | debug
  | info
  | warn
  | error
  | dpanic
  | panic
  | fatal
  | log (lvl : Level)

/-- The level that a method logs at. -/
def Method.level : Method → Level
  | .debug => Level.debug
  | .info => Level.info
  | .warn => Level.warn
  | .error => Level.error
  | .dpanic => Level.dpanic
  | .panic => Level.panic
  | .fatal => Level.fatal
  | .log lvl => lvl

/-- `terminalHookOverride`. -/
def terminalHookOverride (defaultHook : CheckWriteHook) (override : Option CheckWriteHook) :
    CheckWriteHook :=
  match override with
  | none => defaultHook
  | some .noop => defaultHook
  | some hook => hook

namespace Logger

/-! ## Making loggers -/

/-- `WithOptions`. -/
def withOptions [Encoder E F] (log : Logger E F) : List (LoggerOption E F) → World E F →
    Logger E F × World E F
  | [], w => (log, w)
  | opt :: opts, w =>
    let (log, w) := opt.apply log w
    log.withOptions opts w

section

variable [Process E F]

/-- `NewNop`. -/
def newNop : Logger E F where
  core := newNopCore
  development := false
  addCaller := false
  onPanic := none
  onFatal := none
  name := []
  errorOutput := Process.discard E F
  addStack := .level (Level.fatal + 1)
  callerSkip := 0
  clock := Process.defaultClock E F

/-- `New`, which makes a no-op logger of `nil`. -/
def new [Encoder E F] (core : Option (Core E F true)) (options : List (LoggerOption E F))
    (w : World E F) : Logger E F × World E F :=
  match core with
  | none => (newNop, w)
  | some core =>
    withOptions { (newNop : Logger E F) with core, errorOutput := Process.stderr E F } options w

end

/-- `Named`. -/
def named (log : Logger E F) (s : Bytes) : Logger E F :=
  if s = [] then log
  else if log.name = [] then { log with name := s }
  else { log with name := log.name ++ utf8 "." ++ s }

/-- `With`. -/
def withFields [Encoder E F] (log : Logger E F) (fields : List F) (w : World E F) :
    Logger E F × World E F :=
  if fields = [] then (log, w)
  else
    let (core, w) := log.core.withFields fields w
    ({ log with core := core.lift }, w)

/-- The end of `check`, for an entry that will be written: the error output, the caller and the
stack. -/
def annotate [Environment E F] [Process E F] (log : Logger E F) (ent : Entry) (ce : CheckedEntry E F)
    (w : World E F) : CheckedEntry E F × World E F :=
  let ce := { ce with errorOutput := some log.errorOutput }
  let addStack := log.addStack.enabled ce.entry.level
  if !log.addCaller && !addStack then (ce, w)
  else
    match Process.capture w.trace (log.callerSkip + 2) addStack with
    | [] =>
      if log.addCaller then
        let w := w.emit (.report log.errorOutput (.noCaller { ent.time with loc := Location.utc }))
        (ce, (w.sync log.errorOutput).2)
      else (ce, w)
    | frame :: rest =>
      let caller : EntryCaller :=
        if log.addCaller then ⟨frame.pc != 0, frame.file, frame.line, frame.function⟩
        else ce.entry.caller
      let stack := if addStack then formatStack frame rest else ce.entry.stack
      ({ ce with entry := { ce.entry with caller, stack } }, w)

/-- What panics and fatal messages do in the end: the `switch` of `check`. -/
def terminate (log : Logger E F) (ent : Entry) (ce : Option (CheckedEntry E F)) :
    Option (CheckedEntry E F) :=
  if ent.level = Level.panic then
    some (CheckedEntry.setAfter ce ent (terminalHookOverride .panic log.onPanic))
  else if ent.level = Level.fatal then
    some (CheckedEntry.setAfter ce ent (terminalHookOverride .fatal log.onFatal))
  else if ent.level = Level.dpanic then
    if log.development then
      some (CheckedEntry.setAfter ce ent (terminalHookOverride .panic log.onPanic))
    else ce
  else ce

section

variable [Encoder E F] [Environment E F] [Process E F]

/-- The entry that `check` begins with. -/
def entry (log : Logger E F) (lvl : Level) (msg : Bytes) (w : World E F) : Entry where
  level := lvl
  time := Process.now w.trace log.clock
  loggerName := log.name
  message := msg
  caller := ⟨false, [], 0, []⟩
  stack := []

/-- `check` after its early return. -/
def checkCore (log : Logger E F) (lvl : Level) (msg : Bytes) (w : World E F) :
    Option (CheckedEntry E F) × World E F :=
  let ent := log.entry lvl msg w
  let (ce, w) := log.core.check ent none w
  let willWrite := ce.isSome
  match log.terminate ent ce with
  | none => (none, w)
  | some ce =>
    if !willWrite then (some ce, w)
    else
      let (ce, w) := log.annotate ent ce w
      (some ce, w)

/-- `check`. -/
def check (log : Logger E F) (lvl : Level) (msg : Bytes) (w : World E F) :
    Option (CheckedEntry E F) × World E F :=
  if lvl < Level.dpanic && !log.core.enabled lvl then (none, w) else log.checkCore lvl msg w

/-- `Debug`, …, `Fatal` and `Log`. -/
def log (log : Logger E F) (method : Method) (msg : Bytes) (fields : List F) (w : World E F) :
    World E F :=
  let (ce, w) := log.check method.level msg w
  CheckedEntry.write ce fields w

end

end Logger

end Zap
