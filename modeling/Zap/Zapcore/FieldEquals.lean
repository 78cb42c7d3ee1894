import Zap.Data.GoValue
import Zap.Zapcore.Field

/-!
# Equality of fields

`Field.Equals` of `zapcore/field.go`. What a field does is known by the methods of what its interface
holds; whether it equals another depends on the value itself, with its dynamic type and its
references. So the struct is here once more, as it is stored.
-/

set_option autoImplicit false

namespace Zap.Zapcore

open Data

/-- The union struct `Field`, with its interface as a Go value. -/
structure StoredField where
  key : Bytes
  type : FieldType
  integer : Int64
  string : Bytes
  interface : Go.Value .interface

/-- The memory at the time of a comparison, and `reflect.DeepEqual`. -/
structure Runtime where
  heap : Nat → Go.Object
  deepEqual : Go.Value .interface → Go.Value .interface → Bool
  deepEqual_iff : ∀ v w, deepEqual v w = true ↔ Go.DeepEqual heap v w

/-- The dynamic type `[]byte`. -/
def byteSlice : Nat := 0

/-- The dynamic type `uint8`, the element type of `[]byte`. -/
def uint8Type : Nat := 0

/-- A byte as an element of a slice. -/
def byteValue (b : UInt8) : Go.Value .interface := .boxed (t := .int uint8Type) (.int b.toNat)

/-- The byte that an element is. -/
def byteOf : Go.Value .interface → Option UInt8
  | .boxed (.int i) => some (UInt8.ofNat i.toNat)
  | _ => none

/-- The type assertion `.([]byte)` and the bytes of the slice; `none` is its panic. -/
def assertBytes (heap : Nat → Go.Object) : Go.Value .interface → Option Bytes
  | @Go.Value.boxed (.slice id) (.slice ref) =>
    if id = byteSlice then
      match ref with
      | none => some []
      | some r =>
        match heap r with
        | .elems vs => vs.mapM byteOf
        | _ => none
    else none
  | _ => none

namespace StoredField

/-- `f == other`. The fields of the struct are compared in order, until two differ. -/
def eq (f other : StoredField) : Option Bool :=
  if f.key ≠ other.key then some false
  else if f.type ≠ other.type then some false
  else if f.integer ≠ other.integer then some false
  else if f.string ≠ other.string then some false
  else f.interface.eq other.interface

/-- `f.Equals(other)`; `none` is a panic. -/
def equals (rt : Runtime) (f other : StoredField) : Option Bool :=
  if f.type ≠ other.type then some false
  else if f.key ≠ other.key then some false
  else
    match f.type with
    | .binary | .byteString => do
      let a ← assertBytes rt.heap f.interface
      let b ← assertBytes rt.heap other.interface
      some (a == b)
    | .arrayMarshaler | .objectMarshaler | .error | .reflect =>
      some (rt.deepEqual f.interface other.interface)
    | _ => f.eq other

end StoredField

end Zap.Zapcore
