import Zap.Data.Json

/-!
# Binary floating point and its decimal text

A float is its bit pattern; `FloatInfo` is the row of `strconv`'s table that says how to read
one. `ofRat` rounds a rational to the nearest float, ties to even, which is all that conversion
and division of floats need. `shortest` finds the decimal with the fewest digits that reads back
as the same float, the one nearest to it among those, and `appendFloat` writes it the way
`strconv.AppendFloat(dst, f, 'f', -1, bitSize)` does. The law `number_format` says that the
text of a finite float is a JSON number.
-/

set_option autoImplicit false

namespace Zap.Data

/-- `strconv.floatInfo`. -/
structure FloatInfo where
  mantbits : Nat
  expbits : Nat
  bias : Int

def float32info : FloatInfo := ⟨23, 8, -127⟩

def float64info : FloatInfo := ⟨52, 11, -1023⟩

/-- The bit pattern of a `float64`. -/
abbrev Binary64 := UInt64

/-- The bit pattern of a `float32`. -/
abbrev Binary32 := UInt32

/-- A decoded float. A finite one is `mant * 2 ^ (exp - mantbits)`. -/
inductive FloatValue where
  | nan
  | inf (neg : Bool)
  | finite (neg : Bool) (mant : Nat) (exp : Int)
  deriving DecidableEq

namespace FloatInfo

variable (flt : FloatInfo)

/-- Take a bit pattern apart. -/
def decode (bits : Nat) : FloatValue :=
  let neg := decide (bits / 2 ^ (flt.expbits + flt.mantbits) ≠ 0)
  let exp := bits / 2 ^ flt.mantbits % 2 ^ flt.expbits
  let mant := bits % 2 ^ flt.mantbits
  if exp = 2 ^ flt.expbits - 1 then if mant ≠ 0 then .nan else .inf neg
  else if exp = 0 then .finite neg mant (1 + flt.bias)
  else .finite neg (mant + 2 ^ flt.mantbits) (exp + flt.bias)

/-- The sign bit. -/
def signBit (neg : Bool) : Nat := if neg then 2 ^ (flt.expbits + flt.mantbits) else 0

/-- The bit pattern of an infinity. -/
def infBits (neg : Bool) : Nat := flt.signBit neg + (2 ^ flt.expbits - 1) * 2 ^ flt.mantbits

/-- The bit pattern of a quiet NaN. -/
def nanBits : Nat := flt.infBits false + 2 ^ (flt.mantbits - 1)

/-- The float nearest to `num / den`, ties to even. -/
def ofRat (neg : Bool) (num den : Nat) : Nat :=
  if num = 0 then flt.signBit neg
  else
    -- the binary exponent of the quotient is `e₀` or one less
    let e₀ : Int := Nat.log2 num - Nat.log2 den
    let e₁ := if den * 2 ^ e₀.toNat ≤ num * 2 ^ (-e₀).toNat then e₀ else e₀ - 1
    let e := max e₁ (flt.bias + 1)
    let s := e - flt.mantbits
    let n := num * 2 ^ (-s).toNat
    let d := den * 2 ^ s.toNat
    let q := if 2 * (n % d) > d ∨ (2 * (n % d) = d ∧ n / d % 2 = 1) then n / d + 1 else n / d
    -- rounding up may carry into the next exponent
    let (mant, e) := if q = 2 ^ (flt.mantbits + 1) then (2 ^ flt.mantbits, e + 1) else (q, e)
    if mant < 2 ^ flt.mantbits then flt.signBit neg + mant
    else if 2 ^ flt.expbits - 1 ≤ e - flt.bias then flt.infBits neg
    else flt.signBit neg + (e - flt.bias).toNat * 2 ^ flt.mantbits + (mant - 2 ^ flt.mantbits)

/-- Numerator and denominator of `m * 2 ^ e`. -/
def ratio (m : Nat) (e : Int) : Nat × Nat := (m * 2 ^ e.toNat, 2 ^ (-e).toNat)

/-- Round a decoded float of another width to this one. -/
def convert (from' : FloatInfo) : FloatValue → Nat
  | .nan => flt.nanBits
  | .inf neg => flt.infBits neg
  | .finite neg mant exp =>
    let (n, d) := ratio mant (exp - from'.mantbits)
    flt.ofRat neg n d

/-- Division. -/
def div (a b : FloatValue) : Nat :=
  match a, b with
  | .nan, _ => flt.nanBits
  | _, .nan => flt.nanBits
  | .inf _, .inf _ => flt.nanBits
  | .inf s, .finite t _ _ => flt.infBits (xor s t)
  | .finite s _ _, .inf t => flt.signBit (xor s t)
  | .finite s m e, .finite t n f =>
    if n = 0 then if m = 0 then flt.nanBits else flt.infBits (xor s t)
    else
      let (p, q) := ratio m (e - f)
      flt.ofRat (xor s t) p (q * n)

/-- The shortest decimal `q * 10 ^ k` that rounds to `mant * 2 ^ (exp - mantbits)`, searched
from `10 ^ (-p)` as its last place. Quarters of the last binary place are exact: the float is
`4 * mant` of them and the two bounds of its rounding interval lie next to it. -/
def shortestFrom (mant : Nat) (exp : Int) : Nat → Int → Nat × Int
  | 0, p => (0, -p)
  | fuel + 1, p =>
    let e := exp - flt.mantbits - 2
    let scale (x : Nat) : Nat := x * 2 ^ e.toNat * 10 ^ p.toNat
    let d := 2 ^ (-e).toNat * 10 ^ (-p).toNat
    let v := scale (4 * mant)
    let lo := scale (if mant = 2 ^ flt.mantbits ∧ flt.bias + 1 < exp then 4 * mant - 1
      else 4 * mant - 2)
    let hi := scale (4 * mant + 2)
    let inclusive := decide (mant % 2 = 0)
    let down := v / d
    let okdown := decide (lo < down * d) || inclusive && decide (lo = down * d)
    let okup := decide ((down + 1) * d < hi) || inclusive && decide ((down + 1) * d = hi)
    if okdown && okup then
      if 2 * (v % d) > d ∨ (2 * (v % d) = d ∧ down % 2 = 1) then (down + 1, -p) else (down, -p)
    else if okdown then (down, -p)
    else if okup then (down + 1, -p)
    else shortestFrom mant exp fuel (p + 1)

/-- The shortest decimal that reads back as the float. The search starts left of the first
digit; a float has at most 17 digits, and at most 324 zeros before them. -/
def shortest (mant : Nat) (exp : Int) : Nat × Int :=
  let (n, d) := ratio mant (exp - flt.mantbits)
  flt.shortestFrom mant exp 400 (-(Nat.digits 10 (n / d)).length)

end FloatInfo

/-- The text of `q * 10 ^ k` in format `'f'`. -/
def fmtF (q : Nat) (k : Int) : Bytes :=
  if 0 ≤ k then natDecimal (q * 10 ^ k.toNat)
  else
    let p := (-k).toNat
    natDecimal (q / 10 ^ p) ++ 0x2E :: padDecimal p (q % 10 ^ p)

/-- The text of a decoded float. -/
def FloatInfo.format (flt : FloatInfo) : FloatValue → Bytes
  | .nan => utf8 "NaN"
  | .inf true => utf8 "-Inf"
  | .inf false => utf8 "+Inf"
  | .finite neg mant exp =>
    let sign : Bytes := if neg then [0x2D] else []
    if mant = 0 then sign ++ [0x30]
    else
      let (q, k) := flt.shortest mant exp
      sign ++ fmtF q k

namespace Binary64

def decode (f : Binary64) : FloatValue := float64info.decode f.toNat

/-- `math.IsNaN`. -/
def isNaN (f : Binary64) : Bool := match decode f with | .nan => true | _ => false

/-- `math.IsInf(f, 1)` and `math.IsInf(f, -1)`: is `f` the infinity of this sign? -/
def isInf (f : Binary64) (neg : Bool) : Bool := match decode f with | .inf s => s == neg | _ => false

/-- `f >= 0`: false of a NaN, true of both zeros. -/
def geZero (f : Binary64) : Bool :=
  match decode f with
  | .nan => false
  | .inf neg => !neg
  | .finite neg mant _ => !neg || mant == 0

/-- `float64(i)` of an integer. -/
def ofInt (i : Int) : Binary64 := UInt64.ofNat (float64info.ofRat (decide (i < 0)) i.natAbs 1)

/-- `a / b`. -/
def div (a b : Binary64) : Binary64 := UInt64.ofNat (float64info.div (decode a) (decode b))

/-- `float64(f)` of a `float32`. -/
def ofBinary32 (f : Binary32) : Binary64 :=
  UInt64.ofNat (float64info.convert float32info (float32info.decode f.toNat))

/-- `float32(f)`. -/
def toBinary32 (f : Binary64) : Binary32 := UInt32.ofNat (float32info.convert float64info (decode f))

end Binary64

/-- `strconv.AppendFloat(nil, f, 'f', -1, bitSize)`; `narrow` says that the bit size is 32. -/
def appendFloat (f : Binary64) (narrow : Bool) : Bytes :=
  if narrow then float32info.format (float32info.decode (Binary64.toBinary32 f).toNat)
  else float64info.format (Binary64.decode f)

/-! ## Laws -/

theorem digits_natDecimal (n : Nat) : Json.IntPart (natDecimal n) := by
  refine ⟨⟨natDecimal_ne_nil n, natDecimal_isDigit n⟩, fun hz => ?_⟩
  by_cases hn : n = 0
  · rw [hn, natDecimal_zero]
  · exact absurd hz (natDecimal_head hn)

/-- An optional sign, an integer part and a fraction are a number. -/
theorem number_of_parts {sign int frac : Bytes} (hs : sign = [] ∨ sign = [0x2D])
    (hi : Json.IntPart int) (hf : Json.Frac frac) : Json.Number (sign ++ (int ++ frac)) :=
  ⟨sign, int, frac, [], by rw [List.append_nil, List.append_assoc], hs, hi, hf, .inl rfl⟩

theorem number_intDecimal (i : Int) : Json.Number (intDecimal i) := by
  have h := digits_natDecimal i.natAbs
  unfold intDecimal
  split
  · have hneg : Json.Number ([0x2D] ++ _) := number_of_parts (.inr rfl) h (.inl rfl)
    simpa only [List.append_nil, List.singleton_append] using hneg
  · have hpos : Json.Number ([] ++ _) := number_of_parts (.inl rfl) h (.inl rfl)
    simpa only [List.append_nil, List.nil_append] using hpos

theorem number_fmtF {sign : Bytes} (hs : sign = [] ∨ sign = [0x2D]) (q : Nat) (k : Int) :
    Json.Number (sign ++ fmtF q k) := by
  unfold fmtF
  split
  · have := number_of_parts hs (digits_natDecimal (q * 10 ^ k.toNat)) (.inl rfl)
    simpa only [List.append_nil] using this
  · next hk =>
    refine number_of_parts hs (digits_natDecimal _) (.inr ⟨_, rfl, ?_, padDecimal_isDigit _ _⟩)
    have hp : (-k).toNat ≠ 0 := by omega
    rw [ne_eq, ← List.length_eq_zero_iff, padDecimal_length]
    exact hp

/-- The text of a finite float is a JSON number. -/
theorem number_format (flt : FloatInfo) (neg : Bool) (mant : Nat) (exp : Int) :
    Json.Number (flt.format (.finite neg mant exp)) := by
  have hs : (if neg then [0x2D] else ([] : Bytes)) = [] ∨
      (if neg then [0x2D] else ([] : Bytes)) = [0x2D] := by
    cases neg
    · exact .inl rfl
    · exact .inr rfl
  simp only [FloatInfo.format]
  split
  · have := number_of_parts hs (digits_natDecimal 0) (.inl rfl)
    simpa only [List.append_nil, natDecimal_zero] using this
  · exact number_fmtF hs _ _

end Zap.Data
