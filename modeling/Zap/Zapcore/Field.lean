import Zap.Data.Ieee
import Zap.Time

/-!
# Fields and marshalers

`zapcore/field.go`, `zapcore/error.go` and `zapcore/marshaler.go`, with `dictObject` of
`field.go`.

`Field.AddTo` and every marshaler are code over the interfaces `ObjectEncoder` and
`ArrayEncoder`: what such code does is which methods it calls, in which order, and what it goes
on with after a method returned an error. A `Marshaler` is exactly that, a program of method
calls whose continuation may depend on the errors returned. It ends by returning an error or
nil, or by a Go panic. Each encoder interprets the programs in its own way.

An error is represented by the text of its `Error` method, and `none` is nil.
-/

set_option autoImplicit false

namespace Zap.Zapcore

open Data

/-! ## Method calls -/

/-- The signed integer methods `AppendInt`, `AppendInt64`, … and `AddInt`, `AddInt64`, … -/
inductive IntKind where
  | int
  | int64
  | int32
  | int16
  | int8

/-- The unsigned integer methods. -/
inductive UintKind where
  | uint
  | uint64
  | uint32
  | uint16
  | uint8
  | uintptr

/-- The argument of a method of `PrimitiveArrayEncoder`, or of the `Add` method of the same
name. An integer of a smaller kind is kept as its conversion to 64 bits. -/
inductive Prim where
  | bool (b : Bool)
  | byteString (bs : Bytes)
  | complex128 (re im : Binary64)
  | complex64 (re im : Binary32)
  | float64 (f : Binary64)
  | float32 (f : Binary32)
  | int (kind : IntKind) (i : Int64)
  | string (s : Bytes)
  | uint (kind : UintKind) (u : UInt64)

/-- What both interfaces take besides arrays, objects and reflected values. -/
inductive Scalar where
  | prim (p : Prim)
  | duration (d : Duration)
  | time (t : Time)

/-- A value that is encoded by reflection, known by what the standard library's JSON encoder
makes of it: one line that holds a JSON value without line breaks, or an error. -/
structure Reflected where
  id : Nat
  json : Except Bytes Bytes
  json_line : ∀ text, json = .ok text → ∃ v j, text = v ++ [0x0A] ∧ Json.Derives .value v j ∧
    ∀ b ∈ v, 0x20 ≤ b

/-- The two interfaces a marshaler can be given. -/
inductive Interface where
  | object
  | array

/-- A program over an `ObjectEncoder` or an `ArrayEncoder`. -/
inductive Marshaler : Interface → Type where
  | done {i : Interface} (err : Option Bytes) : Marshaler i
  | panic {i : Interface} : Marshaler i
  | add (key : Bytes) (s : Scalar) (next : Marshaler .object) : Marshaler .object
  | addBinary (key : Bytes) (val : Bytes) (next : Marshaler .object) : Marshaler .object
  | addReflected (key : Bytes) (val : Option Reflected)
      (next : Option Bytes → Marshaler .object) : Marshaler .object
  | addArray (key : Bytes) (arr : Marshaler .array)
      (next : Option Bytes → Marshaler .object) : Marshaler .object
  | addObject (key : Bytes) (obj : Marshaler .object)
      (next : Option Bytes → Marshaler .object) : Marshaler .object
  | openNamespace (key : Bytes) (next : Marshaler .object) : Marshaler .object
  | append (s : Scalar) (next : Marshaler .array) : Marshaler .array
  | appendReflected (val : Option Reflected) (next : Option Bytes → Marshaler .array) :
      Marshaler .array
  | appendArray (arr : Marshaler .array) (next : Option Bytes → Marshaler .array) :
      Marshaler .array
  | appendObject (obj : Marshaler .object) (next : Option Bytes → Marshaler .array) :
      Marshaler .array

/-- An `ObjectMarshaler`, by its `MarshalLogObject` method. -/
abbrev ObjectMarshaler := Marshaler .object

/-- An `ArrayMarshaler`, by its `MarshalLogArray` method. -/
abbrev ArrayMarshaler := Marshaler .array

/-- Run one program and go on with its result. -/
def Marshaler.andThen : {i : Interface} → Marshaler i → (Option Bytes → Marshaler i) → Marshaler i
  | _, .done err, k => k err
  | _, .panic, _ => .panic
  | _, .add key s next, k => .add key s (next.andThen k)
  | _, .addBinary key val next, k => .addBinary key val (next.andThen k)
  | _, .addReflected key val next, k => .addReflected key val fun err => (next err).andThen k
  | _, .addArray key arr next, k => .addArray key arr fun err => (next err).andThen k
  | _, .addObject key obj next, k => .addObject key obj fun err => (next err).andThen k
  | _, .openNamespace key next, k => .openNamespace key (next.andThen k)
  | _, .append s next, k => .append s (next.andThen k)
  | _, .appendReflected val next, k => .appendReflected val fun err => (next err).andThen k
  | _, .appendArray arr next, k => .appendArray arr fun err => (next err).andThen k
  | _, .appendObject obj next, k => .appendObject obj fun err => (next err).andThen k

/-- `enc.AddString(key, val)`. -/
def addString (key val : Bytes) (next : ObjectMarshaler) : ObjectMarshaler :=
  .add key (.prim (.string val)) next

/-! ## Errors -/

/-- A call of a user's method: it returns, or panics with a value that prints as `v`. -/
inductive Call (α : Type) where
  | returns (a : α)
  | panics (v : Bytes)

/-- A Go `error`. `nilPointer` says that the interface holds a nil pointer, `text` is the
`Error` method. A group has an `Errors` method, which may itself panic; a formatter prints
`verbose` with `%+v`. -/
inductive GoError where
  | nil
  | plain (nilPointer : Bool) (text : Call Bytes)
  | formatter (nilPointer : Bool) (text : Call Bytes) (verbose : Bytes)
  | group (nilPointer : Bool) (text : Call Bytes) (errors : List GoError)
  | panickingGroup (nilPointer : Bool) (text : Call Bytes) (v : Bytes)

/-- The deferred function of `encodeError` and `encodeStringer` after a panic with `v`. -/
def recovered (nilPointer : Bool) (key v : Bytes) : ObjectMarshaler :=
  if nilPointer then addString key (utf8 "<nil>") (.done none)
  else .done (some (utf8 "PANIC=" ++ v))

/-- `basic := err.Error(); enc.AddString(key, basic)`, and what follows it. -/
def encodeText (nilPointer : Bool) (key : Bytes) (text : Call Bytes)
    (next : Bytes → ObjectMarshaler) : ObjectMarshaler :=
  match text with
  | .returns basic => addString key basic (next basic)
  | .panics v => recovered nilPointer key v

mutual

/-- `encodeError`. -/
def encodeError (key : Bytes) : GoError → ObjectMarshaler
  | .nil =>
    recovered false key
      (utf8 "runtime error: invalid memory address or nil pointer dereference")
  | .plain np text => encodeText np key text fun _ => .done none
  | .formatter np text verbose =>
    encodeText np key text fun basic =>
      if verbose = basic then .done none
      else addString (key ++ utf8 "Verbose") verbose (.done none)
  | .group np text errors =>
    encodeText np key text fun _ => .addArray (key ++ utf8 "Causes") (errArray errors) .done
  | .panickingGroup np text v => encodeText np key text fun _ => recovered np key v

/-- `errArray.MarshalLogArray`: one object for each error that is not nil, until one fails. -/
def errArray : List GoError → ArrayMarshaler
  | [] => .done none
  | .nil :: errs => errArray errs
  | err :: errs =>
    .appendObject (encodeError (utf8 "error") err) fun e =>
      match e with
      | some msg => .done (some msg)
      | none => errArray errs

end

/-! ## Fields -/

/-- `FieldType`. -/
inductive FieldType where
  | unknown
  | arrayMarshaler
  | objectMarshaler
  | binary
  | bool
  | byteString
  | complex128
  | complex64
  | duration
  | float64
  | float32
  | int64
  | int32
  | int16
  | int8
  | string
  | time
  | timeFull
  | uint64
  | uint32
  | uint16
  | uint8
  | uintptr
  | reflect
  | namespace
  | stringer
  | error
  | skip
  | inlineMarshaler
  deriving DecidableEq

/-- The dynamic value of a field's `Interface`, by the assertions `AddTo` makes on it. -/
inductive Dynamic where
  | nil
  | array (m : ArrayMarshaler)
  | object (m : ObjectMarshaler)
  | bytes (bs : Bytes)
  | complex128 (re im : Binary64)
  | complex64 (re im : Binary32)
  | location (loc : Location)
  | time (t : Time)
  | stringer (nilPointer : Bool) (text : Call Bytes)
  | error (e : GoError)
  | reflected (v : Reflected)

/-- The union struct `Field`. -/
structure Field where
  key : Bytes
  type : FieldType
  integer : Int64
  string : Bytes
  interface : Dynamic

/-- The end of `AddTo`: a failed marshaling is reported under `<key>Error`. -/
def reportError (key : Bytes) : Option Bytes → ObjectMarshaler
  | none => .done none
  | some msg => addString (key ++ utf8 "Error") msg (.done none)

/-- `encodeStringer`. -/
def encodeStringer (key : Bytes) : Dynamic → ObjectMarshaler
  | .stringer np text => encodeText np key text fun _ => .done none
  | _ => recovered false key (utf8 "interface conversion: interface is nil, not fmt.Stringer")

namespace Field

/-- An `Add` call of a scalar, after which `AddTo` has no error to report. -/
def addScalar (f : Field) (s : Scalar) : ObjectMarshaler := .add f.key s (.done none)

/-- `f.AddTo(enc)`. A failed type assertion and an unknown type panic. -/
def addTo [Host] (f : Field) : ObjectMarshaler :=
  match f.type, f.interface with
  | .arrayMarshaler, .array m => .addArray f.key m (reportError f.key)
  | .objectMarshaler, .object m => .addObject f.key m (reportError f.key)
  | .inlineMarshaler, .object m => m.andThen (reportError f.key)
  | .binary, .bytes bs => .addBinary f.key bs (.done none)
  | .bool, _ => f.addScalar (.prim (.bool (f.integer == 1)))
  | .byteString, .bytes bs => f.addScalar (.prim (.byteString bs))
  | .complex128, .complex128 re im => f.addScalar (.prim (.complex128 re im))
  | .complex64, .complex64 re im => f.addScalar (.prim (.complex64 re im))
  | .duration, _ => f.addScalar (.duration f.integer)
  | .float64, _ => f.addScalar (.prim (.float64 f.integer.toUInt64))
  | .float32, _ => f.addScalar (.prim (.float32 f.integer.toUInt64.toUInt32))
  | .int64, _ => f.addScalar (.prim (.int .int64 f.integer))
  | .int32, _ => f.addScalar (.prim (.int .int32 f.integer.toInt32.toInt64))
  | .int16, _ => f.addScalar (.prim (.int .int16 f.integer.toInt16.toInt64))
  | .int8, _ => f.addScalar (.prim (.int .int8 f.integer.toInt8.toInt64))
  | .string, _ => f.addScalar (.prim (.string f.string))
  | .time, .location loc => f.addScalar (.time (Time.ofUnixNano f.integer.toInt loc))
  -- a nil location: `time.Unix` answers a time in `time.Local`
  | .time, .nil => f.addScalar (.time (Time.ofUnixNano f.integer.toInt Host.localLocation))
  | .timeFull, .time t => f.addScalar (.time t)
  | .uint64, _ => f.addScalar (.prim (.uint .uint64 f.integer.toUInt64))
  | .uint32, _ => f.addScalar (.prim (.uint .uint32 f.integer.toUInt64.toUInt32.toUInt64))
  | .uint16, _ => f.addScalar (.prim (.uint .uint16 f.integer.toUInt64.toUInt16.toUInt64))
  | .uint8, _ => f.addScalar (.prim (.uint .uint8 f.integer.toUInt64.toUInt8.toUInt64))
  | .uintptr, _ => f.addScalar (.prim (.uint .uintptr f.integer.toUInt64))
  | .reflect, .nil => .addReflected f.key none (reportError f.key)
  | .reflect, .reflected v => .addReflected f.key (some v) (reportError f.key)
  | .namespace, _ => .openNamespace f.key (.done none)
  | .stringer, v => (encodeStringer f.key v).andThen (reportError f.key)
  | .error, .error .nil => .panic
  | .error, .error e => (encodeError f.key e).andThen (reportError f.key)
  | .skip, _ => .done none
  | _, _ => .panic

end Field

/-- `addFields`, and the method `MarshalLogObject` of `dictObject`. -/
def addFields [Host] : List Field → ObjectMarshaler
  | [] => .done none
  | f :: fs => f.addTo.andThen fun _ => addFields fs

end Zap.Zapcore
