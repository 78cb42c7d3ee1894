import Zap.Field
import Zap.Logger

/-!
# The handler for `log/slog`

`exp/zapslog/handler.go` and `options.go`. A `Handler` turns the attributes of `slog` into fields
of a core. The names given to `WithGroup` wait in `groups` until there is a field to be put under
them; then they become namespaces.

What `slog` and the runtime supply is data: a `LogValuer` is known by the value that `Resolve`
makes of it, a program counter by its frame. A handler does not change: `WithGroup` copies the
list of names, and `WithAttrs` lets go of it.
-/

set_option autoImplicit false

namespace Zap.Zapslog

open Data Zapcore

/-! ## Attributes -/

mutual
/-- A `slog.Attr`. -/
inductive Attr where
  | mk (key : Bytes) (value : Value)
/-- A `slog.Value`, by its kind. -/
inductive Value where
  | bool (b : Bool)
  | duration (d : Duration)
  | float64 (f : Binary64)
  | int64 (i : Int64)
  | string (s : Bytes)
  | time (t : Time)
  | uint64 (u : UInt64)
  | group (attrs : List Attr)
  | logValuer (resolved : Value)
  | any (v : AnyValue)
end

/-- Is it the zero `Value`? -/
def Value.isZero : Value → Bool
  | .any .nil => true
  | _ => false

section

variable [Host]

mutual
/-- `convertAttrToField` for an attribute with the key. An attribute that equals the zero `Attr` is
ignored. -/
def convertValue (key : Bytes) (value : Value) : Zapcore.Field :=
  if key = [] ∧ value.isZero then skipField
  else
    match value with
    | .bool b => primField key (.bool b)
    | .duration d => durationField key d
    | .float64 f => primField key (.float64 f)
    | .int64 i => primField key (.int .int64 i)
    | .string s => primField key (.string s)
    | .time t => timeField key t
    | .uint64 u => primField key (.uint .uint64 u)
    | .group attrs =>
      if key = [] then inlineField (groupObject attrs) else objectField key (groupObject attrs)
    | .logValuer resolved => convertValue key resolved
    | .any v => anyField key v
/-- `groupObject.MarshalLogObject`. -/
def groupObject : List Attr → ObjectMarshaler
  | [] => .done none
  | .mk key value :: attrs => (convertValue key value).addTo.andThen fun _ => groupObject attrs
end

/-- `convertAttrToField`. -/
def convertAttrToField : Attr → Zapcore.Field
  | .mk key value => convertValue key value

end

/-- Is it the zero value of an interface? -/
def isNil : Zapcore.Dynamic → Bool
  | .nil => true
  | _ => false

/-- `f == zap.Skip()`. -/
def isSkip (f : Zapcore.Field) : Bool :=
  f.key == [] && f.type == .skip && f.integer == 0 && f.string == [] && isNil f.interface

/-! ## Levels -/

/-- A `slog.Level`. -/
abbrev SlogLevel := Int

def levelInfo : SlogLevel := 0
def levelWarn : SlogLevel := 4
def levelError : SlogLevel := 8

/-- `convertSlogLevel`. -/
def convertSlogLevel (l : SlogLevel) : Level :=
  if l ≥ levelError then Level.error
  else if l ≥ levelWarn then Level.warn
  else if l ≥ levelInfo then Level.info
  else Level.debug

/-! ## Handlers -/

/-- A `slog.Record`. -/
structure Record where
  time : Time
  message : Bytes
  level : SlogLevel
  pc : Nat
  attrs : List Attr

/-- What the handler asks of the runtime: the frame of a program counter, and the frames that
`stacktrace.Capture` finds when it skips some. -/
class Callers where
  frame : Nat → Frame
  capture : Int → List Frame

structure Handler (E : Type) where
  core : Core E Zapcore.Field true
  name : Bytes
  addCaller : Bool
  addStackAt : SlogLevel
  callerSkip : Int
  groups : List Bytes

/-- A `HandlerOption`. -/
inductive HandlerOption where
  | withName (name : Bytes)
  | withCaller (enabled : Bool)
  | withCallerSkip (skip : Int)
  | addStacktraceAt (lvl : SlogLevel)

variable {E : Type}

def HandlerOption.apply (h : Handler E) : HandlerOption → Handler E
  | .withName name => { h with name }
  | .withCaller enabled => { h with addCaller := enabled }
  | .withCallerSkip skip => { h with callerSkip := h.callerSkip + skip }
  | .addStacktraceAt lvl => { h with addStackAt := lvl }

/-- `NewHandler`. -/
def newHandler (core : Core E Zapcore.Field true) (opts : List HandlerOption) : Handler E :=
  opts.foldl HandlerOption.apply ⟨core, [], false, levelError, 0, []⟩

/-- `stacktrace.Take`: all frames but the last one, which belongs to the runtime. -/
def takeStack [Callers] (skip : Int) : Bytes :=
  (utf8 "\n").intercalate ((Callers.capture (skip + 1)).dropLast.map fun frame =>
    frame.function ++ utf8 "\n\t" ++ frame.file ++ utf8 ":" ++ intDecimal frame.line)

namespace Handler

variable (h : Handler E)

/-- `Enabled`. -/
def enabled (level : SlogLevel) : Bool := h.core.enabled (convertSlogLevel level)

/-- `appendGroups`. -/
def appendGroups (fields : List Zapcore.Field) : List Zapcore.Field :=
  fields ++ h.groups.map namespaceField

/-- The loop over attributes, of `Handle` and of `WithAttrs`: the fields, and whether the groups
were added. -/
def addAttrs [Host] : List Attr → List Zapcore.Field → Bool → List Zapcore.Field × Bool
  | [], fields, addedNamespace => (fields, addedNamespace)
  | attr :: attrs, fields, addedNamespace =>
    let f := convertAttrToField attr
    if !addedNamespace && decide (h.groups.length > 0) && !isSkip f then
      addAttrs attrs (h.appendGroups fields ++ [f]) true
    else addAttrs attrs (fields ++ [f]) addedNamespace

/-- The entry that `Handle` asks the core about. -/
def entry (record : Record) : Entry where
  level := convertSlogLevel record.level
  time := record.time
  loggerName := h.name
  message := record.message
  caller := ⟨false, [], 0, []⟩
  stack := []

/-- The caller and the stack that `Handle` adds to an entry. -/
def annotate [Callers] (record : Record) (ent : Entry) : Entry :=
  let frame := Callers.frame record.pc
  let caller : EntryCaller :=
    if h.addCaller && record.pc != 0 && frame.pc != 0 then
      ⟨true, frame.file, frame.line, frame.function⟩
    else ent.caller
  let stack := if record.level ≥ h.addStackAt then takeStack (3 + h.callerSkip) else ent.stack
  { ent with caller, stack }

section

variable [Host] [Encoder E Zapcore.Field]

/-- `Handle`, which always returns nil. -/
def handle [Callers] [Environment E Zapcore.Field] (record : Record) (w : World E Zapcore.Field) :
    World E Zapcore.Field :=
  match h.core.check (h.entry record) none w with
  | (none, w) => w
  | (some ce, w) =>
    let ce := { ce with entry := h.annotate record ce.entry }
    CheckedEntry.write (some ce) (h.addAttrs record.attrs [] false).1 w

/-- `WithAttrs`. -/
def withAttrs (attrs : List Attr) (w : World E Zapcore.Field) : Handler E × World E Zapcore.Field :=
  let (fields, addedNamespace) := h.addAttrs attrs [] false
  let (core, w) := h.core.withFields fields w
  ({ h with core := core.lift, groups := if addedNamespace then [] else h.groups }, w)

end

/-- `WithGroup`. -/
def withGroup (group : Bytes) : Handler E :=
  if group = [] then h else { h with groups := h.groups ++ [group] }

end Handler

end Zap.Zapslog
