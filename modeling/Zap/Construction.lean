import Zap.Field
import Zap.Zapcore.Transcript

/-!
# Fields with the arguments they are made from

The constructors of `field.go`, `array.go` and `error.go` with every argument that they can be given,
nil included. An argument that is an interface is nil, or holds a nil pointer or another nil of some
type, or a value. The methods of a value return; those of a nil may panic, and so may a reflected
encoder that is given one: `panics` are the values that it does not return from. A field among the
arguments of `Dict` need not come from a constructor, it may be a literal such as `zap.Field{}`.
-/

set_option autoImplicit false

namespace Zap

open Data Zapcore

/-! ## Constructors whose argument may be nil -/

/-- `Array`. Nothing is done about nil. -/
def arrayFieldOf (key : Bytes) : Option ArrayMarshaler → Zapcore.Field
  | none => ⟨key, .arrayMarshaler, 0, [], .nil⟩
  | some m => arrayField key m

/-- `Object`. -/
def objectFieldOf (key : Bytes) : Option ObjectMarshaler → Zapcore.Field
  | none => nilField key
  | some m => objectField key m

/-- `Inline`. Nothing is done about nil. -/
def inlineFieldOf : Option ObjectMarshaler → Zapcore.Field
  | none => ⟨[], .inlineMarshaler, 0, [], .nil⟩
  | some m => inlineField m

/-- `Stringer`: whether the argument is a nil pointer, and its method. -/
def stringerFieldOf (key : Bytes) : Option (Bool × Call Bytes) → Zapcore.Field
  | none => ⟨key, .stringer, 0, [], .nil⟩
  | some (np, text) => stringerField key np text

/-- `MarshalLogArray` of `objects` and of `objectValues`. The method of a nil interface cannot be
called. -/
def objectsArray : List (Option ObjectMarshaler) → ArrayMarshaler
  | [] => .done none
  | o :: os =>
    .appendObject (o.getD .panic) fun e =>
      match e with
      | some msg => .done (some msg)
      | none => objectsArray os

/-- `MarshalLogArray` of `stringers`. -/
def stringersArray : List (Option (Call Bytes)) → ArrayMarshaler
  | [] => .done none
  | some (.returns s) :: os => .append (.prim (.string s)) (stringersArray os)
  | some (.panics _) :: _ => .panic
  | none :: _ => .panic

/-! ## Arguments -/

/-- A marshaler that returns, whatever the encoder. -/
def Calm (panics : Reflected → Bool) (i : Interface) : Type :=
  { m : Marshaler i // ∀ refl, ((m.reflecting panics).transcript refl).isSome }

/-- What an interface holds that is not nil, by its method: a value, or a nil of some type, which is
a pointer or not. -/
inductive Receiver (α β : Type) where
  | value (method : α)
  | typedNil (pointer : Bool) (method : β)

/-- A user's `ObjectMarshaler` or `ArrayMarshaler`. -/
abbrev UserMarshaler (panics : Reflected → Bool) (i : Interface) :=
  Receiver (Calm panics i) (Marshaler i)

/-- A user's `fmt.Stringer`. -/
abbrev UserStringer := Receiver Bytes (Call Bytes)

/-- An argument that is encoded by reflection. -/
abbrev UserValue (panics : Reflected → Bool) := Receiver { v : Reflected // panics v = false } Reflected

/-- A field that is written as a literal. What a field of the reflect type holds is given as a reflected
value. -/
structure Literal where
  field : Zapcore.Field
  reflects : field.type = .reflect → field.interface = .nil ∨ ∃ v, field.interface = .reflected v

namespace Receiver

variable {panics : Reflected → Bool}

def marshaler {i : Interface} : UserMarshaler panics i → Marshaler i
  | .value m => m.val
  | .typedNil _ m => m

def reflected : UserValue panics → Reflected
  | .value v => v.val
  | .typedNil _ v => v

def text : UserStringer → Call Bytes
  | .value s => .returns s
  | .typedNil _ text => text

def nilPointer : UserStringer → Bool
  | .value _ => false
  | .typedNil pointer _ => pointer

end Receiver

mutual

/-- A constructor and its arguments. The constructors of scalars, of pointers to them and of slices
of them differ in the type only. -/
inductive Construction (panics : Reflected → Bool) where
  | skip
  | namespace (key : Bytes)
  | scalar (key : Bytes) (val : Scalar)
  | scalarp (key : Bytes) (val : Option Scalar)
  | scalars (key : Bytes) (vals : ScalarSlice)
  | binary (key : Bytes) (val : Bytes)
  | reflect (key : Bytes) (val : Option (UserValue panics))
  | array (key : Bytes) (val : Option (UserMarshaler panics .array))
  | object (key : Bytes) (val : Option (ObjectArgument panics))
  | inline (val : Option (ObjectArgument panics))
  | objects (key : Bytes) (vals : List (Option (ObjectArgument panics)))
  | objectValues (key : Bytes) (vals : List (Calm panics .object))
  | dict (key : Bytes) (val : List (DictArgument panics))
  | stringer (key : Bytes) (val : Option UserStringer)
  | stringers (key : Bytes) (vals : List (Option UserStringer))
  | namedError (key : Bytes) (err : GoError)
  | errors (key : Bytes) (errs : List GoError)
  | any (key : Bytes) (val : AnyArgument panics)

/-- A field among the arguments of `Dict` and `DictObject`, or in a slice for `Any`. -/
inductive DictArgument (panics : Reflected → Bool) where
  | made (c : Construction panics)
  | literal (l : Literal)

/-- An `ObjectMarshaler` that is not nil: a user's, or `DictObject(val...)`. -/
inductive ObjectArgument (panics : Reflected → Bool) where
  | user (r : UserMarshaler panics .object)
  | dictObject (val : List (DictArgument panics))

/-- An argument of `Any`. -/
inductive AnyArgument (panics : Reflected → Bool) where
  | nil
  | objectMarshaler (m : ObjectArgument panics)
  | arrayMarshaler (m : UserMarshaler panics .array)
  | fields (fs : List (DictArgument panics))
  | scalar (s : Scalar)
  | pointer (s : Option Scalar)
  | slice (ss : ScalarSlice)
  | bytes (bs : Bytes)
  | error (err : GoError) (not_nil : err ≠ .nil)
  | errors (errs : List GoError)
  | stringer (s : UserStringer)
  | other (v : UserValue panics)

end

section

variable [Host] {panics : Reflected → Bool}

mutual

/-- The field that is made. -/
def Construction.field : Construction panics → Zapcore.Field
  | .skip => skipField
  | .namespace key => namespaceField key
  | .scalar key val => scalarField key val
  | .scalarp key val => scalarpField key val
  | .scalars key vals => scalarsField key vals
  | .binary key val => binaryField key val
  | .reflect key val => reflectField key (val.map Receiver.reflected)
  | .array key val => arrayFieldOf key (val.map Receiver.marshaler)
  | .object key none => objectFieldOf key none
  | .object key (some val) => objectFieldOf key (some val.marshaler)
  | .inline none => inlineFieldOf none
  | .inline (some val) => inlineFieldOf (some val.marshaler)
  | .objects key vals => arrayField key (objectsArray (ObjectArgument.marshalers vals))
  | .objectValues key vals => arrayField key (objectsArray (vals.map fun m => some m.val))
  | .dict key val => dictField key (DictArgument.fields val)
  | .stringer key val => stringerFieldOf key (val.map fun r => (r.nilPointer, r.text))
  | .stringers key vals => arrayField key (stringersArray (vals.map (Option.map Receiver.text)))
  | .namedError key err => namedErrorField key err
  | .errors key errs => arrayField key (errorsArray errs)
  | .any key val => anyField key val.value

def DictArgument.field : DictArgument panics → Zapcore.Field
  | .made c => c.field
  | .literal l => l.field

def DictArgument.fields : List (DictArgument panics) → List Zapcore.Field
  | [] => []
  | arg :: args => arg.field :: DictArgument.fields args

def ObjectArgument.marshaler : ObjectArgument panics → ObjectMarshaler
  | .user r => r.marshaler
  | .dictObject val => addFields (DictArgument.fields val)

def ObjectArgument.marshalers : List (Option (ObjectArgument panics)) → List (Option ObjectMarshaler)
  | [] => []
  | none :: vals => none :: ObjectArgument.marshalers vals
  | some val :: vals => some val.marshaler :: ObjectArgument.marshalers vals

def AnyArgument.value : AnyArgument panics → AnyValue
  | .nil => .nil
  | .objectMarshaler m => .objectMarshaler m.marshaler
  | .arrayMarshaler m => .arrayMarshaler m.marshaler
  | .fields fs => .fields (DictArgument.fields fs)
  | .scalar s => .scalar s
  | .pointer s => .pointer s
  | .slice ss => .slice ss
  | .bytes bs => .bytes bs
  | .error err not_nil => .error err not_nil
  | .errors errs => .errors errs
  | .stringer s => .stringer s.nilPointer s.text
  | .other v => .other v.reflected

end

end

end Zap
