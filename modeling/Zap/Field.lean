import Zap.Zapcore.Field

/-!
# Constructors of fields

Functions of `field.go`, `array.go` and `error.go` that make fields, and `Any`, which chooses one of
them by the dynamic type of its argument. The constructors of pointers to scalars are all made in one
way from those of scalars (`pointerField`), and so are those of slices of scalars (`sliceField`). As
everywhere, an integer of a smaller type is given by its conversion to 64 bits.
-/

set_option autoImplicit false

namespace Zap

open Data Zapcore

/-- `Skip`. -/
def skipField : Zapcore.Field := ⟨[], .skip, 0, [], .nil⟩

/-- `Reflect`. -/
def reflectField (key : Bytes) : Option Reflected → Zapcore.Field
  | none => ⟨key, .reflect, 0, [], .nil⟩
  | some v => ⟨key, .reflect, 0, [], .reflected v⟩

/-- `nilField`. -/
def nilField (key : Bytes) : Zapcore.Field := reflectField key none

/-- `Binary`. -/
def binaryField (key : Bytes) (val : Bytes) : Zapcore.Field := ⟨key, .binary, 0, [], .bytes val⟩

/-- `Namespace`. -/
def namespaceField (key : Bytes) : Zapcore.Field := ⟨key, .namespace, 0, [], .nil⟩

/-- `Stringer`. -/
def stringerField (key : Bytes) (nilPointer : Bool) (text : Call Bytes) : Zapcore.Field :=
  ⟨key, .stringer, 0, [], .stringer nilPointer text⟩

/-- `Time`: a time that has no `UnixNano` is kept as it is. -/
def timeField (key : Bytes) (t : Time) : Zapcore.Field :=
  let nanos := t.sec * 1000000000 + t.nsec
  if nanos < -2 ^ 63 ∨ 2 ^ 63 - 1 < nanos then ⟨key, .timeFull, 0, [], .time t⟩
  else ⟨key, .time, t.unixNano, [], .location t.loc⟩

/-- `Duration`. -/
def durationField (key : Bytes) (d : Duration) : Zapcore.Field := ⟨key, .duration, d, [], .nil⟩

/-! ## Scalars -/

/-- `Bool`. -/
def boolField (key : Bytes) (val : Bool) : Zapcore.Field :=
  ⟨key, .bool, if val then 1 else 0, [], .nil⟩

/-- `ByteString`. -/
def byteStringField (key : Bytes) (val : Bytes) : Zapcore.Field :=
  ⟨key, .byteString, 0, [], .bytes val⟩

/-- `Complex128`. -/
def complex128Field (key : Bytes) (re im : Binary64) : Zapcore.Field :=
  ⟨key, .complex128, 0, [], .complex128 re im⟩

/-- `Complex64`. -/
def complex64Field (key : Bytes) (re im : Binary32) : Zapcore.Field :=
  ⟨key, .complex64, 0, [], .complex64 re im⟩

/-- `Float64`. -/
def float64Field (key : Bytes) (val : Binary64) : Zapcore.Field :=
  ⟨key, .float64, UInt64.toInt64 val, [], .nil⟩

/-- `Float32`. -/
def float32Field (key : Bytes) (val : Binary32) : Zapcore.Field :=
  ⟨key, .float32, (UInt32.toUInt64 val).toInt64, [], .nil⟩

/-- `Int64`. -/
def int64Field (key : Bytes) (val : Int64) : Zapcore.Field := ⟨key, .int64, val, [], .nil⟩

/-- `Int`. -/
def intField (key : Bytes) (val : Int64) : Zapcore.Field := int64Field key val

/-- `Int32`. -/
def int32Field (key : Bytes) (val : Int64) : Zapcore.Field := ⟨key, .int32, val, [], .nil⟩

/-- `Int16`. -/
def int16Field (key : Bytes) (val : Int64) : Zapcore.Field := ⟨key, .int16, val, [], .nil⟩

/-- `Int8`. -/
def int8Field (key : Bytes) (val : Int64) : Zapcore.Field := ⟨key, .int8, val, [], .nil⟩

/-- `String`. -/
def stringField (key : Bytes) (val : Bytes) : Zapcore.Field := ⟨key, .string, 0, val, .nil⟩

/-- `Uint64`. -/
def uint64Field (key : Bytes) (val : UInt64) : Zapcore.Field :=
  ⟨key, .uint64, val.toInt64, [], .nil⟩

/-- `Uint`. -/
def uintField (key : Bytes) (val : UInt64) : Zapcore.Field := uint64Field key val

/-- `Uint32`. -/
def uint32Field (key : Bytes) (val : UInt64) : Zapcore.Field :=
  ⟨key, .uint32, val.toInt64, [], .nil⟩

/-- `Uint16`. -/
def uint16Field (key : Bytes) (val : UInt64) : Zapcore.Field :=
  ⟨key, .uint16, val.toInt64, [], .nil⟩

/-- `Uint8`. -/
def uint8Field (key : Bytes) (val : UInt64) : Zapcore.Field := ⟨key, .uint8, val.toInt64, [], .nil⟩

/-- `Uintptr`. -/
def uintptrField (key : Bytes) (val : UInt64) : Zapcore.Field :=
  ⟨key, .uintptr, val.toInt64, [], .nil⟩

/-- The constructor for a primitive value. -/
def primField (key : Bytes) : Prim → Zapcore.Field
  | .bool b => boolField key b
  | .byteString bs => byteStringField key bs
  | .complex128 re im => complex128Field key re im
  | .complex64 re im => complex64Field key re im
  | .float64 f => float64Field key f
  | .float32 f => float32Field key f
  | .int .int i => intField key i
  | .int .int64 i => int64Field key i
  | .int .int32 i => int32Field key i
  | .int .int16 i => int16Field key i
  | .int .int8 i => int8Field key i
  | .string s => stringField key s
  | .uint .uint u => uintField key u
  | .uint .uint64 u => uint64Field key u
  | .uint .uint32 u => uint32Field key u
  | .uint .uint16 u => uint16Field key u
  | .uint .uint8 u => uint8Field key u
  | .uint .uintptr u => uintptrField key u

/-- The constructor for a scalar. -/
def scalarField (key : Bytes) : Scalar → Zapcore.Field
  | .prim p => primField key p
  | .duration d => durationField key d
  | .time t => timeField key t

/-! ## Pointers to scalars -/

/-- Nil is a field of its own; otherwise the field is that of the value. -/
def pointerField {α : Type} (make : Bytes → α → Zapcore.Field) (key : Bytes) :
    Option α → Zapcore.Field
  | none => nilField key
  | some val => make key val

/-- `Boolp`. -/
def boolpField (key : Bytes) (val : Option Bool) : Zapcore.Field := pointerField boolField key val

/-- `Complex128p`. -/
def complex128pField (key : Bytes) (val : Option (Binary64 × Binary64)) : Zapcore.Field :=
  pointerField (fun key c => complex128Field key c.1 c.2) key val

/-- `Complex64p`. -/
def complex64pField (key : Bytes) (val : Option (Binary32 × Binary32)) : Zapcore.Field :=
  pointerField (fun key c => complex64Field key c.1 c.2) key val

/-- `Float64p`. -/
def float64pField (key : Bytes) (val : Option Binary64) : Zapcore.Field :=
  pointerField float64Field key val

/-- `Float32p`. -/
def float32pField (key : Bytes) (val : Option Binary32) : Zapcore.Field :=
  pointerField float32Field key val

/-- `Intp`. -/
def intpField (key : Bytes) (val : Option Int64) : Zapcore.Field := pointerField intField key val

/-- `Int64p`. -/
def int64pField (key : Bytes) (val : Option Int64) : Zapcore.Field :=
  pointerField int64Field key val

/-- `Int32p`. -/
def int32pField (key : Bytes) (val : Option Int64) : Zapcore.Field :=
  pointerField int32Field key val

/-- `Int16p`. -/
def int16pField (key : Bytes) (val : Option Int64) : Zapcore.Field :=
  pointerField int16Field key val

/-- `Int8p`. -/
def int8pField (key : Bytes) (val : Option Int64) : Zapcore.Field := pointerField int8Field key val

/-- `Stringp`. -/
def stringpField (key : Bytes) (val : Option Bytes) : Zapcore.Field :=
  pointerField stringField key val

/-- `Uintp`. -/
def uintpField (key : Bytes) (val : Option UInt64) : Zapcore.Field := pointerField uintField key val

/-- `Uint64p`. -/
def uint64pField (key : Bytes) (val : Option UInt64) : Zapcore.Field :=
  pointerField uint64Field key val

/-- `Uint32p`. -/
def uint32pField (key : Bytes) (val : Option UInt64) : Zapcore.Field :=
  pointerField uint32Field key val

/-- `Uint16p`. -/
def uint16pField (key : Bytes) (val : Option UInt64) : Zapcore.Field :=
  pointerField uint16Field key val

/-- `Uint8p`. -/
def uint8pField (key : Bytes) (val : Option UInt64) : Zapcore.Field :=
  pointerField uint8Field key val

/-- `Uintptrp`. -/
def uintptrpField (key : Bytes) (val : Option UInt64) : Zapcore.Field :=
  pointerField uintptrField key val

/-- `Timep`. -/
def timepField (key : Bytes) (val : Option Time) : Zapcore.Field := pointerField timeField key val

/-- `Durationp`. -/
def durationpField (key : Bytes) (val : Option Duration) : Zapcore.Field :=
  pointerField durationField key val

/-- The constructor for a pointer to a scalar. There is none for a `ByteString`. -/
def scalarpField (key : Bytes) : Option Scalar → Zapcore.Field
  | none => nilField key
  | some (.prim (.bool b)) => boolpField key (some b)
  | some (.prim (.byteString bs)) => byteStringField key bs
  | some (.prim (.complex128 re im)) => complex128pField key (some (re, im))
  | some (.prim (.complex64 re im)) => complex64pField key (some (re, im))
  | some (.prim (.float64 f)) => float64pField key (some f)
  | some (.prim (.float32 f)) => float32pField key (some f)
  | some (.prim (.int .int i)) => intpField key (some i)
  | some (.prim (.int .int64 i)) => int64pField key (some i)
  | some (.prim (.int .int32 i)) => int32pField key (some i)
  | some (.prim (.int .int16 i)) => int16pField key (some i)
  | some (.prim (.int .int8 i)) => int8pField key (some i)
  | some (.prim (.string s)) => stringpField key (some s)
  | some (.prim (.uint .uint u)) => uintpField key (some u)
  | some (.prim (.uint .uint64 u)) => uint64pField key (some u)
  | some (.prim (.uint .uint32 u)) => uint32pField key (some u)
  | some (.prim (.uint .uint16 u)) => uint16pField key (some u)
  | some (.prim (.uint .uint8 u)) => uint8pField key (some u)
  | some (.prim (.uint .uintptr u)) => uintptrpField key (some u)
  | some (.duration d) => durationpField key (some d)
  | some (.time t) => timepField key (some t)

/-- A pointer that is not nil makes the field of the value. -/
@[simp]
theorem scalarpField_some (key : Bytes) (s : Scalar) : scalarpField key (some s) = scalarField key s := by
  cases s with
  | prim p =>
    cases p with
    | int kind i => cases kind <;> rfl
    | uint kind u => cases kind <;> rfl
    | _ => rfl
  | _ => rfl

/-! ## Slices of scalars -/

/-- `Array`. -/
def arrayField (key : Bytes) (val : ArrayMarshaler) : Zapcore.Field :=
  ⟨key, .arrayMarshaler, 0, [], .array val⟩

/-- `MarshalLogArray` of `bools`, …, `times` and `durations`. -/
def scalars : List Scalar → ArrayMarshaler
  | [] => .done none
  | s :: ss => .append s (scalars ss)

/-- A slice whose elements are appended as scalars. -/
def sliceField {α : Type} (scalar : α → Scalar) (key : Bytes) (vals : List α) : Zapcore.Field :=
  arrayField key (scalars (vals.map scalar))

/-- `Bools`. -/
def boolsField (key : Bytes) (bs : List Bool) : Zapcore.Field :=
  sliceField (fun b => .prim (.bool b)) key bs

/-- `ByteStrings`. -/
def byteStringsField (key : Bytes) (bss : List Bytes) : Zapcore.Field :=
  sliceField (fun bs => .prim (.byteString bs)) key bss

/-- `Complex128s`. -/
def complex128sField (key : Bytes) (nums : List (Binary64 × Binary64)) : Zapcore.Field :=
  sliceField (fun c => .prim (.complex128 c.1 c.2)) key nums

/-- `Complex64s`. -/
def complex64sField (key : Bytes) (nums : List (Binary32 × Binary32)) : Zapcore.Field :=
  sliceField (fun c => .prim (.complex64 c.1 c.2)) key nums

/-- `Durations`. -/
def durationsField (key : Bytes) (ds : List Duration) : Zapcore.Field := sliceField .duration key ds

/-- `Float64s`. -/
def float64sField (key : Bytes) (nums : List Binary64) : Zapcore.Field :=
  sliceField (fun f => .prim (.float64 f)) key nums

/-- `Float32s`. -/
def float32sField (key : Bytes) (nums : List Binary32) : Zapcore.Field :=
  sliceField (fun f => .prim (.float32 f)) key nums

/-- `Ints`. -/
def intsField (key : Bytes) (nums : List Int64) : Zapcore.Field :=
  sliceField (fun i => .prim (.int .int i)) key nums

/-- `Int64s`. -/
def int64sField (key : Bytes) (nums : List Int64) : Zapcore.Field :=
  sliceField (fun i => .prim (.int .int64 i)) key nums

/-- `Int32s`. -/
def int32sField (key : Bytes) (nums : List Int64) : Zapcore.Field :=
  sliceField (fun i => .prim (.int .int32 i)) key nums

/-- `Int16s`. -/
def int16sField (key : Bytes) (nums : List Int64) : Zapcore.Field :=
  sliceField (fun i => .prim (.int .int16 i)) key nums

/-- `Int8s`. -/
def int8sField (key : Bytes) (nums : List Int64) : Zapcore.Field :=
  sliceField (fun i => .prim (.int .int8 i)) key nums

/-- `Strings`. -/
def stringsField (key : Bytes) (ss : List Bytes) : Zapcore.Field :=
  sliceField (fun s => .prim (.string s)) key ss

/-- `Times`. -/
def timesField (key : Bytes) (ts : List Time) : Zapcore.Field := sliceField .time key ts

/-- `Uints`. -/
def uintsField (key : Bytes) (nums : List UInt64) : Zapcore.Field :=
  sliceField (fun u => .prim (.uint .uint u)) key nums

/-- `Uint64s`. -/
def uint64sField (key : Bytes) (nums : List UInt64) : Zapcore.Field :=
  sliceField (fun u => .prim (.uint .uint64 u)) key nums

/-- `Uint32s`. -/
def uint32sField (key : Bytes) (nums : List UInt64) : Zapcore.Field :=
  sliceField (fun u => .prim (.uint .uint32 u)) key nums

/-- `Uint16s`. -/
def uint16sField (key : Bytes) (nums : List UInt64) : Zapcore.Field :=
  sliceField (fun u => .prim (.uint .uint16 u)) key nums

/-- `Uint8s`. -/
def uint8sField (key : Bytes) (nums : List UInt64) : Zapcore.Field :=
  sliceField (fun u => .prim (.uint .uint8 u)) key nums

/-- `Uintptrs`. -/
def uintptrsField (key : Bytes) (us : List UInt64) : Zapcore.Field :=
  sliceField (fun u => .prim (.uint .uintptr u)) key us

/-- A slice of scalars, by the type of its elements. -/
inductive ScalarSlice where
  | bools (bs : List Bool)
  | byteStrings (bss : List Bytes)
  | complex128s (nums : List (Binary64 × Binary64))
  | complex64s (nums : List (Binary32 × Binary32))
  | durations (ds : List Duration)
  | float64s (nums : List Binary64)
  | float32s (nums : List Binary32)
  | ints (nums : List Int64)
  | int64s (nums : List Int64)
  | int32s (nums : List Int64)
  | int16s (nums : List Int64)
  | int8s (nums : List Int64)
  | strings (ss : List Bytes)
  | times (ts : List Time)
  | uints (nums : List UInt64)
  | uint64s (nums : List UInt64)
  | uint32s (nums : List UInt64)
  | uint16s (nums : List UInt64)
  | uint8s (nums : List UInt64)
  | uintptrs (us : List UInt64)

/-- The constructor for a slice of scalars. -/
def scalarsField (key : Bytes) : ScalarSlice → Zapcore.Field
  | .bools bs => boolsField key bs
  | .byteStrings bss => byteStringsField key bss
  | .complex128s nums => complex128sField key nums
  | .complex64s nums => complex64sField key nums
  | .durations ds => durationsField key ds
  | .float64s nums => float64sField key nums
  | .float32s nums => float32sField key nums
  | .ints nums => intsField key nums
  | .int64s nums => int64sField key nums
  | .int32s nums => int32sField key nums
  | .int16s nums => int16sField key nums
  | .int8s nums => int8sField key nums
  | .strings ss => stringsField key ss
  | .times ts => timesField key ts
  | .uints nums => uintsField key nums
  | .uint64s nums => uint64sField key nums
  | .uint32s nums => uint32sField key nums
  | .uint16s nums => uint16sField key nums
  | .uint8s nums => uint8sField key nums
  | .uintptrs us => uintptrsField key us

/-- The scalars of a slice. -/
def ScalarSlice.scalars : ScalarSlice → List Scalar
  | .bools bs => bs.map (fun b => .prim (.bool b))
  | .byteStrings bss => bss.map (fun bs => .prim (.byteString bs))
  | .complex128s nums => nums.map (fun c => .prim (.complex128 c.1 c.2))
  | .complex64s nums => nums.map (fun c => .prim (.complex64 c.1 c.2))
  | .durations ds => ds.map .duration
  | .float64s nums => nums.map (fun f => .prim (.float64 f))
  | .float32s nums => nums.map (fun f => .prim (.float32 f))
  | .ints nums => nums.map (fun i => .prim (.int .int i))
  | .int64s nums => nums.map (fun i => .prim (.int .int64 i))
  | .int32s nums => nums.map (fun i => .prim (.int .int32 i))
  | .int16s nums => nums.map (fun i => .prim (.int .int16 i))
  | .int8s nums => nums.map (fun i => .prim (.int .int8 i))
  | .strings ss => ss.map (fun s => .prim (.string s))
  | .times ts => ts.map .time
  | .uints nums => nums.map (fun u => .prim (.uint .uint u))
  | .uint64s nums => nums.map (fun u => .prim (.uint .uint64 u))
  | .uint32s nums => nums.map (fun u => .prim (.uint .uint32 u))
  | .uint16s nums => nums.map (fun u => .prim (.uint .uint16 u))
  | .uint8s nums => nums.map (fun u => .prim (.uint .uint8 u))
  | .uintptrs us => us.map (fun u => .prim (.uint .uintptr u))

theorem scalarsField_eq (key : Bytes) (vals : ScalarSlice) :
    scalarsField key vals = arrayField key (Zap.scalars vals.scalars) := by
  cases vals <;> rfl

/-! ## Other values -/

/-- `Object`, for a marshaler that is not nil. -/
def objectField (key : Bytes) (val : ObjectMarshaler) : Zapcore.Field :=
  ⟨key, .objectMarshaler, 0, [], .object val⟩

/-- `Inline`. -/
def inlineField (val : ObjectMarshaler) : Zapcore.Field := ⟨[], .inlineMarshaler, 0, [], .object val⟩

/-- `dictField`. -/
def dictField [Host] (key : Bytes) (val : List Zapcore.Field) : Zapcore.Field :=
  objectField key (addFields val)

/-- `NamedError`. -/
def namedErrorField (key : Bytes) : GoError → Zapcore.Field
  | .nil => skipField
  | err => ⟨key, .error, 0, [], .error err⟩

/-- `errArray.MarshalLogArray`. -/
def errorsArray [Host] : List GoError → ArrayMarshaler
  | [] => .done none
  | .nil :: errs => errorsArray errs
  | err :: errs =>
    -- `errArrayElem.MarshalLogObject` uses the field of the error and returns nil
    .appendObject ((namedErrorField (utf8 "error") err).addTo.andThen fun _ => .done none) fun e =>
      match e with
      | some msg => .done (some msg)
      | none => errorsArray errs

/-- An argument of `Any`, as its type switch tells them apart. A scalar is not a `ByteString`, as
no type stands for one, a slice is none of bytes, and an `error` is not nil. -/
inductive AnyValue where
  | nil
  | objectMarshaler (m : ObjectMarshaler)
  | arrayMarshaler (m : ArrayMarshaler)
  | fields (fs : List Zapcore.Field)
  | scalar (s : Scalar)
  | pointer (s : Option Scalar)
  | slice (ss : ScalarSlice)
  | bytes (bs : Bytes)
  | error (err : GoError) (not_nil : err ≠ .nil)
  | errors (errs : List GoError)
  | stringer (nilPointer : Bool) (text : Call Bytes)
  | other (v : Reflected)

/-- `Any`. -/
def anyField [Host] (key : Bytes) : AnyValue → Zapcore.Field
  | .nil => reflectField key none
  | .objectMarshaler m => objectField key m
  | .arrayMarshaler m => arrayField key m
  | .fields fs => dictField key fs
  | .scalar s => scalarField key s
  | .pointer s => scalarpField key s
  | .slice ss => scalarsField key ss
  | .bytes bs => binaryField key bs
  | .error err _ => namedErrorField key err
  | .errors errs => arrayField key (errorsArray errs)
  | .stringer np text => stringerField key np text
  | .other v => reflectField key (some v)

end Zap
