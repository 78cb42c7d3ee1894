import Zap.Zapcore.JsonEncoder

/-!
# Strings and byte slices

`safeAppendStringLike` of `zapcore/json_encoder.go` as the generic function it is. Its type
parameter is `string` or `[]byte`; what the body does to a value is to take its length, to index it
and to slice it. Indices out of range panic, and the answer is `none` then.

The JSON encoder in `Zap.Zapcore.JsonEncoder` has the two instances as one, on bytes.
-/

set_option autoImplicit false

namespace Zap.Zapcore

open Data

/-- The type parameter `S []byte | string`: `len(s)`, `s[i]` and `s[i:j]`. -/
class StringLike (S : Type) where
  len : S → Nat
  index : S → Nat → Option UInt8
  slice : S → Nat → Nat → Option S

/-- A `string`. -/
instance : StringLike Bytes where
  len := List.length
  index s i := s[i]?
  slice s i j := if i ≤ j ∧ j ≤ s.length then some ((s.take j).drop i) else none

/-- A `[]byte`: a part of an array, which may go on behind it. -/
structure ByteSlice where
  array : Bytes
  offset : Nat
  len : Nat
  in_array : offset + len ≤ array.length

/-- The elements of a slice. -/
def ByteSlice.toBytes (s : ByteSlice) : Bytes := (s.array.drop s.offset).take s.len

/-- A `[]byte` can be sliced up to its capacity, beyond its length. -/
instance : StringLike ByteSlice where
  len := ByteSlice.len
  index s i := if i < s.len then s.array[s.offset + i]? else none
  slice s i j :=
    if h : i ≤ j ∧ s.offset + j ≤ s.array.length then
      some ⟨s.array, s.offset + i, j - i, by omega⟩
    else none

namespace StringLike

variable {S : Type} [StringLike S] (appendTo : Bytes → S → Bytes) (decodeRune : S → Nat × Nat)

/-- The loop of `safeAppendStringLike`. -/
def safeAppendLoop (s : S) : Nat → Bytes → Nat → Nat → Option (Bytes × Nat)
  | 0, buf, last, _ => some (buf, last)
  | fuel + 1, buf, last, i =>
    if i < len s then do
      let b ← index s i
      if 0x80 ≤ b then do
        let (r, size) := decodeRune (← slice s i (len s))
        if r ≠ runeError ∨ size ≠ 1 then safeAppendLoop s fuel buf last (i + size)
        else do
          let buf := appendTo buf (← slice s last i)
          safeAppendLoop s fuel (buf ++ utf8 "\\ufffd") (i + 1) (i + 1)
      else if 0x20 ≤ b ∧ b ≠ 0x5C ∧ b ≠ 0x22 then safeAppendLoop s fuel buf last (i + 1)
      else do
        let buf := appendTo buf (← slice s last i)
        safeAppendLoop s fuel (buf ++ escapeByte b) (i + 1) (i + 1)
    else some (buf, last)

/-- `safeAppendStringLike`. -/
def safeAppendStringLike (buf : Bytes) (s : S) : Option Bytes := do
  let (buf, last) ← safeAppendLoop appendTo decodeRune s (len s) buf 0 0
  some (appendTo buf (← slice s last (len s)))

end StringLike

/-- `safeAddString`: `AppendString` and `DecodeRuneInString`. -/
def safeAddString (buf s : Bytes) : Option Bytes :=
  StringLike.safeAppendStringLike (fun buf s => buf ++ s) decodeRune buf s

/-- `safeAddByteString`: `AppendBytes` and `DecodeRune`. -/
def safeAddByteString (buf : Bytes) (s : ByteSlice) : Option Bytes :=
  StringLike.safeAppendStringLike (fun buf s => buf ++ s.toBytes)
    (fun s => decodeRune s.toBytes) buf s

end Zap.Zapcore
