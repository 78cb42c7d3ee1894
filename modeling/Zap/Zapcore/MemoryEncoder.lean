import Mathlib.Logic.Function.Basic
import Zap.Data.JsonObject
import Zap.Zapcore.Field

/-!
# The in-memory encoder

`zapcore/memory_encoder.go`: `MapObjectEncoder`, which collects fields in nested maps, and
`sliceArrayEncoder`, which collects elements. A map of Go is a reference, so maps live in a heap and
a `MapObjectEncoder` is two references, the map it began with and the one it is writing to.

A slice has one owner while it grows, so it is a list. An array under a key begins with an empty slice,
and an array inside an array with a nil one, which it still is if nothing was appended.
-/

set_option autoImplicit false

namespace Zap.Zapcore

open Data

/-- An `interface{}` that an encoder stores. -/
inductive Value where
  | scalar (s : Scalar)
  | binary (bs : Bytes)
  | reflected (v : Option Reflected)
  | slice (elems : List Value)
  | nilSlice
  | map (ref : Nat)

/-- The maps there are. References from `next` on are unused. -/
structure Maps where
  next : Nat
  maps : Nat → List (Bytes × Value)

namespace Maps

/-- No maps. -/
def empty : Maps := ⟨0, fun _ => []⟩

/-- `make(map[string]interface{})`. -/
def make (h : Maps) : Nat × Maps :=
  (h.next, ⟨h.next + 1, Function.update h.maps h.next []⟩)

/-- `ref[k] = v`. -/
def set (h : Maps) (ref : Nat) (k : Bytes) (v : Value) : Maps :=
  { h with maps := Function.update h.maps ref (assign k v (h.maps ref)) }

end Maps

/-- A `MapObjectEncoder` or a `sliceArrayEncoder`, by the interface it implements. -/
inductive MemoryEncoder : Interface → Type where
  | object (fields cur : Nat) : MemoryEncoder .object
  | array (elems : List Value) : MemoryEncoder .array

/-- What is stored of a scalar: a byte string is stored as a string. -/
def Scalar.stored : Scalar → Value
  | .prim (.byteString bs) => .scalar (.prim (.string bs))
  | s => .scalar s

namespace MemoryEncoder

/-- `NewMapObjectEncoder`. -/
def newMapObjectEncoder (h : Maps) : MemoryEncoder .object × Maps :=
  let (m, h) := h.make
  (.object m m, h)

/-- The elements that a `sliceArrayEncoder` has collected. -/
def elems : MemoryEncoder .array → List Value
  | .array elems => elems

/-- A slice that was nil before these elements were appended to it. -/
def ofNil : List Value → Value
  | [] => .nilSlice
  | v :: vs => .slice (v :: vs)

/-- The map that a `MapObjectEncoder` began with. -/
def fields : MemoryEncoder .object → Nat
  | .object fields _ => fields

/-- Run a marshaler on an encoder: the encoder and the maps after it, and the error it returns. -/
def run : {i : Interface} → Marshaler i → MemoryEncoder i → Maps →
    Option (MemoryEncoder i × Maps × Option Bytes)
  | _, .done err, enc, h => some (enc, h, err)
  | _, .panic, _, _ => none
  | _, .add key s next, .object fields cur, h =>
    run next (.object fields cur) (h.set cur key s.stored)
  | _, .addBinary key val next, .object fields cur, h =>
    run next (.object fields cur) (h.set cur key (.binary val))
  | _, .addReflected key val next, .object fields cur, h =>
    run (next none) (.object fields cur) (h.set cur key (.reflected val))
  | _, .addArray key arr next, .object fields cur, h => do
    let (arr, h, err) ← run arr (.array []) h
    run (next err) (.object fields cur) (h.set cur key (.slice arr.elems))
  -- the new map is in its place before it is filled
  | _, .addObject key obj next, .object fields cur, h => do
    let (newMap, h) := newMapObjectEncoder h
    let (_, h, err) ← run obj newMap (h.set cur key (.map newMap.fields))
    run (next err) (.object fields cur) h
  | _, .openNamespace key next, .object fields cur, h =>
    let (ns, h) := h.make
    run next (.object fields ns) (h.set cur key (.map ns))
  | _, .append s next, .array elems, h => run next (.array (elems ++ [s.stored])) h
  | _, .appendReflected val next, .array elems, h =>
    run (next none) (.array (elems ++ [.reflected val])) h
  | _, .appendArray arr next, .array elems, h => do
    let (arr, h, err) ← run arr (.array []) h
    run (next err) (.array (elems ++ [ofNil arr.elems])) h
  | _, .appendObject obj next, .array elems, h => do
    let (m, h) := newMapObjectEncoder h
    let (m, h, err) ← run obj m h
    run (next err) (.array (elems ++ [.map m.fields])) h

/-- `addFields(enc, fields)`. -/
def addFields [Host] (enc : MemoryEncoder .object) (fs : List Field) (h : Maps) :
    Option (MemoryEncoder .object × Maps) := do
  let (enc, h, _) ← run (Zapcore.addFields fs) enc h
  some (enc, h)

end MemoryEncoder

end Zap.Zapcore
