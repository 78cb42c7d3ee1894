import Zap.Field
import Zap.Laws.MemoryTree

/-!
# Primitive values

A field keeps a primitive value in one of four slots, most of them in the integer. `AddTo` takes it
out again. Here the value goes in with its own Go type, and what an in-memory encoder stores in the
end is compared with it.
-/

set_option autoImplicit false

namespace Zap

open Data Zapcore

/-- A value of a primitive type that has a constructor and one for pointers to it. `int` and `uint`
have 64 bits at most. -/
inductive Primitive where
  | bool (b : Bool)
  | int (i : Int64)
  | int64 (i : Int64)
  | int32 (i : Int32)
  | int16 (i : Int16)
  | int8 (i : Int8)
  | uint (u : UInt64)
  | uint64 (u : UInt64)
  | uint32 (u : UInt32)
  | uint16 (u : UInt16)
  | uint8 (u : UInt8)
  | uintptr (u : UInt64)
  | float64 (f : Binary64)
  | float32 (f : Binary32)
  | complex128 (re im : Binary64)
  | complex64 (re im : Binary32)
  | string (s : Bytes)
  | duration (d : Duration)
  | time (t : Time)

/-- The argument of a constructor. -/
inductive PrimitiveArgument where
  | value (v : Primitive)
  | pointer (v : Option Primitive)
  | byteString (bs : Bytes)
  | binary (bs : Bytes)

namespace Primitive

/-- The value in the general type of the constructors, where an integer has 64 bits. -/
def scalar : Primitive → Scalar
  | .bool b => .prim (.bool b)
  | .int i => .prim (.int .int i)
  | .int64 i => .prim (.int .int64 i)
  | .int32 i => .prim (.int .int32 i.toInt64)
  | .int16 i => .prim (.int .int16 i.toInt64)
  | .int8 i => .prim (.int .int8 i.toInt64)
  | .uint u => .prim (.uint .uint u)
  | .uint64 u => .prim (.uint .uint64 u)
  | .uint32 u => .prim (.uint .uint32 u.toUInt64)
  | .uint16 u => .prim (.uint .uint16 u.toUInt64)
  | .uint8 u => .prim (.uint .uint8 u.toUInt64)
  | .uintptr u => .prim (.uint .uintptr u)
  | .float64 f => .prim (.float64 f)
  | .float32 f => .prim (.float32 f)
  | .complex128 re im => .prim (.complex128 re im)
  | .complex64 re im => .prim (.complex64 re im)
  | .string s => .prim (.string s)
  | .duration d => .duration d
  | .time t => .time t

/-- A stored value is equal to the primitive one. It has the same type, except that an `int` is
stored as an `int64` and a `uint` as a `uint64`. Integers are the same numbers, floats have the same
bits, and a time is the same instant in the same location. -/
def Equals : Primitive → Value → Prop
  | .bool b, .scalar (.prim (.bool b')) => b' = b
  | .int i, .scalar (.prim (.int .int64 j)) => j.toInt = i.toInt
  | .int64 i, .scalar (.prim (.int .int64 j)) => j.toInt = i.toInt
  | .int32 i, .scalar (.prim (.int .int32 j)) => j.toInt = i.toInt
  | .int16 i, .scalar (.prim (.int .int16 j)) => j.toInt = i.toInt
  | .int8 i, .scalar (.prim (.int .int8 j)) => j.toInt = i.toInt
  | .uint u, .scalar (.prim (.uint .uint64 w)) => w.toNat = u.toNat
  | .uint64 u, .scalar (.prim (.uint .uint64 w)) => w.toNat = u.toNat
  | .uint32 u, .scalar (.prim (.uint .uint32 w)) => w.toNat = u.toNat
  | .uint16 u, .scalar (.prim (.uint .uint16 w)) => w.toNat = u.toNat
  | .uint8 u, .scalar (.prim (.uint .uint8 w)) => w.toNat = u.toNat
  | .uintptr u, .scalar (.prim (.uint .uintptr w)) => w.toNat = u.toNat
  | .float64 f, .scalar (.prim (.float64 f')) => f' = f
  | .float32 f, .scalar (.prim (.float32 f')) => f' = f
  | .complex128 re im, .scalar (.prim (.complex128 re' im')) => re' = re ∧ im' = im
  | .complex64 re im, .scalar (.prim (.complex64 re' im')) => re' = re ∧ im' = im
  | .string s, .scalar (.prim (.string s')) => s' = s
  | .duration d, .scalar (.duration d') => d' = d
  | .time t, .scalar (.time t') => t'.sec = t.sec ∧ t'.nsec = t.nsec ∧ t'.loc = t.loc
  | _, _ => False

end Primitive

namespace PrimitiveArgument

/-- The field that is made. -/
def field (key : Bytes) : PrimitiveArgument → Zapcore.Field
  | .value v => scalarField key v.scalar
  | .pointer v => scalarpField key (v.map Primitive.scalar)
  | .byteString bs => primField key (.byteString bs)
  | .binary bs => binaryField key bs

/-- A stored value is equal to the argument: nil for a nil pointer, and a byte string is stored as a
string. -/
def Equals : PrimitiveArgument → Value → Prop
  | .value v, x => v.Equals x
  | .pointer (some v), x => v.Equals x
  | .pointer none, .reflected v => v = none
  | .byteString bs, .scalar (.prim (.string s)) => s = bs
  | .binary bs, .binary bs' => bs' = bs
  | _, _ => False

end PrimitiveArgument

/-! ## Times -/

theorem unixNano_toInt {t : Time}
    (hmin : -2 ^ 63 ≤ t.sec * 1000000000 + t.nsec) (hmax : t.sec * 1000000000 + t.nsec < 2 ^ 63) :
    t.unixNano.toInt = t.sec * 1000000000 + t.nsec := by
  rw [Time.unixNano, Int64.toInt_ofInt_of_le hmin hmax]

/-- A time that has nanoseconds comes back from them. -/
theorem ofUnixNano_unixNano {t : Time}
    (hmin : -2 ^ 63 ≤ t.sec * 1000000000 + t.nsec) (hmax : t.sec * 1000000000 + t.nsec < 2 ^ 63) :
    (Time.ofUnixNano t.unixNano.toInt t.loc).sec = t.sec ∧
      (Time.ofUnixNano t.unixNano.toInt t.loc).nsec = t.nsec := by
  have hnsec := t.nsec_lt
  rw [unixNano_toInt hmin hmax]
  simp only [Time.ofUnixNano]
  omega

/-! ## Constructors -/

section

variable [Host] (fields cur : Nat) (h : Maps)

/-- `AddTo` assigns a time to the key that is the same instant in the same location. -/
theorem time_stored (key : Bytes) (t : Time) :
    ∃ x, MemoryEncoder.run (timeField key t).addTo (.object fields cur) h =
        some (.object fields cur, h.set cur key x, none) ∧ (Primitive.time t).Equals x := by
  by_cases hout : t.sec * 1000000000 + t.nsec < -2 ^ 63 ∨ 2 ^ 63 - 1 < t.sec * 1000000000 + t.nsec
  · refine ⟨.scalar (.time t), ?_, rfl, rfl, rfl⟩
    rw [timeField, if_pos hout]
    rfl
  · refine ⟨.scalar (.time (Time.ofUnixNano t.unixNano.toInt t.loc)), ?_, ?_⟩
    · rw [timeField, if_neg hout]
      rfl
    · obtain ⟨hsec, hnsec⟩ := ofUnixNano_unixNano (t := t) (by omega) (by omega)
      exact ⟨hsec, hnsec, rfl⟩

/-- `AddTo` assigns a value to the key that is equal to the primitive one. -/
theorem primitive_stored (key : Bytes) (v : Primitive) :
    ∃ x, MemoryEncoder.run (scalarField key v.scalar).addTo (.object fields cur) h =
        some (.object fields cur, h.set cur key x, none) ∧ v.Equals x := by
  cases v with
  | bool b => exact ⟨_, rfl, by cases b <;> rfl⟩
  | int i => exact ⟨_, rfl, rfl⟩
  | int64 i => exact ⟨_, rfl, rfl⟩
  | int32 i =>
    have hback : i.toInt64.toInt32.toInt64.toInt = i.toInt := by
      rw [Int32.toInt32_toInt64, Int32.toInt_toInt64]
    exact ⟨_, rfl, hback⟩
  | int16 i =>
    have hback : i.toInt64.toInt16.toInt64.toInt = i.toInt := by
      rw [Int16.toInt16_toInt64, Int16.toInt_toInt64]
    exact ⟨_, rfl, hback⟩
  | int8 i =>
    have hback : i.toInt64.toInt8.toInt64.toInt = i.toInt := by
      rw [Int8.toInt8_toInt64, Int8.toInt_toInt64]
    exact ⟨_, rfl, hback⟩
  | uint u => exact ⟨_, rfl, congrArg UInt64.toNat u.toUInt64_toInt64⟩
  | uint64 u => exact ⟨_, rfl, congrArg UInt64.toNat u.toUInt64_toInt64⟩
  | uint32 u =>
    have hback : u.toUInt64.toInt64.toUInt64.toUInt32.toUInt64.toNat = u.toNat := by
      rw [UInt64.toUInt64_toInt64, UInt32.toUInt32_toUInt64, UInt32.toNat_toUInt64]
    exact ⟨_, rfl, hback⟩
  | uint16 u =>
    have hback : u.toUInt64.toInt64.toUInt64.toUInt16.toUInt64.toNat = u.toNat := by
      rw [UInt64.toUInt64_toInt64, UInt16.toUInt16_toUInt64, UInt16.toNat_toUInt64]
    exact ⟨_, rfl, hback⟩
  | uint8 u =>
    have hback : u.toUInt64.toInt64.toUInt64.toUInt8.toUInt64.toNat = u.toNat := by
      rw [UInt64.toUInt64_toInt64, UInt8.toUInt8_toUInt64, UInt8.toNat_toUInt64]
    exact ⟨_, rfl, hback⟩
  | uintptr u => exact ⟨_, rfl, congrArg UInt64.toNat u.toUInt64_toInt64⟩
  | float64 f => exact ⟨_, rfl, UInt64.toUInt64_toInt64 f⟩
  | float32 f =>
    have hback : (UInt32.toUInt64 f).toInt64.toUInt64.toUInt32 = f := by
      rw [UInt64.toUInt64_toInt64, UInt32.toUInt32_toUInt64]
    exact ⟨_, rfl, hback⟩
  | complex128 re im => exact ⟨_, rfl, rfl, rfl⟩
  | complex64 re im => exact ⟨_, rfl, rfl, rfl⟩
  | string s => exact ⟨_, rfl, rfl⟩
  | duration d => exact ⟨_, rfl, rfl⟩
  | time t => exact time_stored fields cur h key t

/-- A field of a primitive constructor stores, under its key and nowhere else, a value that is equal
to the argument. -/
theorem argument_stored (key : Bytes) (a : PrimitiveArgument) :
    ∃ x, MemoryEncoder.run (a.field key).addTo (.object fields cur) h =
        some (.object fields cur, h.set cur key x, none) ∧
      ((h.set cur key x).maps cur).lookup key = some x ∧ a.Equals x := by
  have hlookup (x : Value) : ((h.set cur key x).maps cur).lookup key = some x := by
    rw [Maps.set_maps, lookup_assign]
  have hstored : ∃ x, MemoryEncoder.run (a.field key).addTo (.object fields cur) h =
      some (.object fields cur, h.set cur key x, none) ∧ a.Equals x := by
    cases a with
    | value v => exact primitive_stored fields cur h key v
    | pointer v =>
      cases v with
      | none => exact ⟨_, rfl, rfl⟩
      | some v =>
        rw [PrimitiveArgument.field, Option.map_some, scalarpField_some]
        exact primitive_stored fields cur h key v
    | byteString bs => exact ⟨_, rfl, rfl⟩
    | binary bs => exact ⟨_, rfl, rfl⟩
  obtain ⟨x, hrun, hequals⟩ := hstored
  exact ⟨x, hrun, hlookup x, hequals⟩

end

end Zap
