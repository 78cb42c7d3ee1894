import Zap.Field
import Zap.Zapcore.FieldEquals

/-!
# Constructors of fields, from Go values

The constructors of `field.go`, `array.go` and `error.go` once more, for arguments that have an
identity: an interface is a value with its dynamic type, a pointer and a slice are references into
the heap. The constructors of pointers to primitive values differ in the type only, and so do those
of slices, each of which converts its argument to a slice type of its own.
-/

set_option autoImplicit false

namespace Zap

open Data Zapcore

/-! ## Primitive values -/

/-- A `time.Time`: an instant, perhaps a reading of the monotonic clock, and a pointer to a location,
which is nil for UTC. -/
structure ClockTime where
  time : Time
  monotonic : Option Int
  loc : Option Nat

/-- A value of a primitive type that has a constructor. -/
inductive Atom where
  | bool (b : Bool)
  | int (kind : IntKind) (i : Int64)
  | uint (kind : UintKind) (u : UInt64)
  | float64 (f : Binary64)
  | float32 (f : Binary32)
  | complex128 (re im : Binary64)
  | complex64 (re im : Binary32)
  | string (s : Bytes)
  | duration (d : Duration)
  | time (t : ClockTime)

/-- The dynamic type of a signed integer. -/
def intType : IntKind → Nat
  | .int => 1
  | .int64 => 2
  | .int32 => 3
  | .int16 => 4
  | .int8 => 5

/-- The dynamic type of an unsigned integer. -/
def uintType : UintKind → Nat
  | .uint => 6
  | .uint64 => 7
  | .uint32 => 8
  | .uint16 => 9
  | .uint8 => uint8Type
  | .uintptr => 10

/-- The dynamic types `bool` and `time.Duration`. -/
def boolType : Nat := 11

def durationType : Nat := 12

/-- The type of the struct `time.Time`, with the instant and the clock reading that `wall` and `ext`
encode together. -/
def timeType : Go.Ty :=
  .struct 0 (.field (.int 13) (.field (.int 13) (.field (.int 13) (.field (.int 13)
    (.field (.pointer 0) .unit)))))

namespace ClockTime

/-- The struct. -/
def value (t : ClockTime) : Go.Value timeType :=
  .struct (.field (.int t.time.sec) (.field (.int t.time.nsec)
    (.field (.int (if t.monotonic.isSome then 1 else 0)) (.field (.int (t.monotonic.getD 0))
      (.field (.pointer t.loc) .unit)))))

/-- `t.Location()`; the reference 0 is `time.UTC`. -/
def location (t : ClockTime) : Go.Value (.pointer 0) := .pointer (some (t.loc.getD 0))

/-- Does `Time` keep the time as it is? -/
def outOfRange (t : ClockTime) : Bool :=
  let nanos := t.time.sec * 1000000000 + t.time.nsec
  nanos < -2 ^ 63 ∨ 2 ^ 63 - 1 < nanos

end ClockTime

namespace Atom

/-- The dynamic type of the argument. -/
def type : Atom → Go.Ty
  | .bool _ => .int boolType
  | .int kind _ => .int (intType kind)
  | .uint kind _ => .int (uintType kind)
  | .float64 _ => .float64 0
  | .float32 _ => .float32 0
  | .complex128 _ _ => .complex128 0
  | .complex64 _ _ => .complex64 0
  | .string _ => .string 0
  | .duration _ => .int durationType
  | .time _ => timeType

/-- The argument. -/
def typed : (a : Atom) → Go.Value a.type
  | .bool b => .int (if b then 1 else 0)
  | .int _ i => .int i.toInt
  | .uint _ u => .int u.toNat
  | .float64 f => .float64 f
  | .float32 f => .float32 f
  | .complex128 re im => .complex128 re im
  | .complex64 re im => .complex64 re im
  | .string s => .string s
  | .duration d => .int d.toInt
  | .time t => t.value

/-- The argument as an interface. -/
def value (a : Atom) : Go.Value .interface := .boxed a.typed

/-- What the constructor puts into the interface of the field. -/
def interface : Atom → Go.Value .interface
  | .complex128 re im => .boxed (t := .complex128 0) (.complex128 re im)
  | .complex64 re im => .boxed (t := .complex64 0) (.complex64 re im)
  | .time t => if t.outOfRange then .boxed t.value else .boxed t.location
  | _ => .nil

/-- The argument for the constructors of `Zap.Field`. -/
def scalar : Atom → Scalar
  | .bool b => .prim (.bool b)
  | .int kind i => .prim (.int kind i)
  | .uint kind u => .prim (.uint kind u)
  | .float64 f => .prim (.float64 f)
  | .float32 f => .prim (.float32 f)
  | .complex128 re im => .prim (.complex128 re im)
  | .complex64 re im => .prim (.complex64 re im)
  | .string s => .prim (.string s)
  | .duration d => .duration d
  | .time t => .time t.time

/-- `Bool`, `Int`, …, `Duration` and `Time`. -/
def field (key : Bytes) (a : Atom) : StoredField :=
  let f := scalarField key a.scalar
  ⟨f.key, f.type, f.integer, f.string, a.interface⟩

end Atom

/-! ## Arguments -/

section Arguments

variable (heap : Nat → Go.Object)

/-- A pointer to a primitive value. -/
structure AtomPointer where
  ref : Nat
  atom : Atom
  stored : heap ref = .cell atom.value

/-- A `[]byte`. -/
structure ByteSlice where
  ref : Option Nat
  bytes : Bytes
  empty : ref = none → bytes = []
  stored : ∀ r, ref = some r → heap r = .elems (bytes.map byteValue)

/-- A constructor and its arguments. -/
inductive Argument where
  | skip
  | openNamespace (key : Bytes)
  -- `Stack` and `StackSkip`, with the trace that was taken
  | stack (key trace : Bytes)
  -- `Bool`, …, `Time`
  | atom (key : Bytes) (val : Atom)
  -- `Boolp`, …, `Timep`, by the type of the pointer
  | atomp (key : Bytes) (type : Nat) (val : Option (AtomPointer heap))
  | binary (key : Bytes) (val : ByteSlice heap)
  | byteString (key : Bytes) (val : ByteSlice heap)
  | reflect (key : Bytes) (val : Go.Value .interface)
  | stringer (key : Bytes) (val : Go.Value .interface)
  | array (key : Bytes) (val : Go.Value .interface)
  -- `Bools`, …, `ByteStrings`, `Objects`, `ObjectValues`, `Stringers` and `Errors`, by the type that
  -- the slice is converted to
  | slice (key : Bytes) (type : Nat) (val : Option Nat)
  | object (key : Bytes) (val : Go.Value .interface)
  | inline (val : Go.Value .interface)
  | dict (key : Bytes) (val : Option Nat)
  | namedError (key : Bytes) (err : Go.Value .interface)

/-- An argument of `Any`, as its type switch tells them apart. -/
inductive AnyOperand where
  | nil
  | objectMarshaler (val : Go.Value .interface)
  | arrayMarshaler (val : Go.Value .interface)
  | fields (val : Option Nat)
  | atom (val : Atom)
  | pointer (type : Nat) (val : Option (AtomPointer heap))
  | slice (type : Nat) (val : Option Nat)
  | bytes (val : ByteSlice heap)
  | error (err : Go.Value .interface)
  | stringer (val : Go.Value .interface)
  | other (val : Go.Value .interface)

/-- A field that was made: by a constructor, or by `Any`. -/
inductive Made where
  | direct (arg : Argument heap)
  | any (key : Bytes) (arg : AnyOperand heap)

end Arguments

/-- The dynamic type `dictObject`. -/
def dictObject : Nat := 1

variable {heap : Nat → Go.Object}

/-- `Skip`. -/
def skipStored : StoredField := ⟨[], .skip, 0, [], .nil⟩

/-- `Reflect`. -/
def reflectStored (key : Bytes) (val : Go.Value .interface) : StoredField := ⟨key, .reflect, 0, [], val⟩

/-- `Array`. -/
def arrayStored (key : Bytes) (val : Go.Value .interface) : StoredField :=
  ⟨key, .arrayMarshaler, 0, [], val⟩

/-- `Object`. -/
def objectStored (key : Bytes) : Go.Value .interface → StoredField
  | .nil => reflectStored key .nil
  | val => ⟨key, .objectMarshaler, 0, [], val⟩

/-- `NamedError`. -/
def namedErrorStored (key : Bytes) : Go.Value .interface → StoredField
  | .nil => skipStored
  | err => ⟨key, .error, 0, [], err⟩

/-- The field that is made. -/
def Argument.field : Argument heap → StoredField
  | .skip => skipStored
  | .openNamespace key => ⟨key, .namespace, 0, [], .nil⟩
  | .stack key trace => (Atom.string trace).field key
  | .atom key val => val.field key
  | .atomp key _ none => reflectStored key .nil
  | .atomp key _ (some p) => p.atom.field key
  | .binary key val => ⟨key, .binary, 0, [], .boxed (t := .slice byteSlice) (.slice val.ref)⟩
  | .byteString key val => ⟨key, .byteString, 0, [], .boxed (t := .slice byteSlice) (.slice val.ref)⟩
  | .reflect key val => reflectStored key val
  | .stringer key val => ⟨key, .stringer, 0, [], val⟩
  | .array key val => arrayStored key val
  | .slice key type val => arrayStored key (.boxed (t := .slice type) (.slice val))
  | .object key val => objectStored key val
  | .inline val => ⟨[], .inlineMarshaler, 0, [], val⟩
  | .dict key val => objectStored key (.boxed (t := .slice dictObject) (.slice val))
  | .namedError key err => namedErrorStored key err

/-- The constructor that `Any` calls. -/
def AnyOperand.argument (key : Bytes) : AnyOperand heap → Argument heap
  | .nil => .reflect key .nil
  | .objectMarshaler val => .object key val
  | .arrayMarshaler val => .array key val
  | .fields val => .dict key val
  | .atom val => .atom key val
  | .pointer type val => .atomp key type val
  | .slice type val => .slice key type val
  | .bytes val => .binary key val
  | .error err => .namedError key err
  | .stringer val => .stringer key val
  | .other val => .reflect key val

def Made.argument : Made heap → Argument heap
  | .direct arg => arg
  | .any key arg => arg.argument key

def Made.field (m : Made heap) : StoredField := m.argument.field

end Zap
