import Zap.Data.Ieee
import Mathlib.Data.Nat.Log

/-!
# Widening a float and narrowing it again

A `float32` is written by way of a `float64`: it is widened, checked for NaN and infinity, and
narrowed again for its decimal text. `decode_narrow_widen` says that nothing is lost on the way.
The reason is general: rounding is exact on every value a format represents, whatever quotient
of a number by a power of two spells it (`ofRat_exact`).
-/

set_option autoImplicit false

namespace Zap.Data

namespace FloatInfo

variable {flt : FloatInfo}

/-- A significand and an exponent that the format has a bit pattern for. -/
structure Representable (flt : FloatInfo) (mant : Nat) (exp : Int) : Prop where
  mant_lt : mant < 2 ^ (flt.mantbits + 1)
  exp_ge : flt.bias + 1 ≤ exp
  exp_lt : exp - flt.bias < 2 ^ flt.expbits - 1
  normal : 2 ^ flt.mantbits ≤ mant ∨ exp = flt.bias + 1

/-- The bit pattern of a representable value. -/
def encode (flt : FloatInfo) (neg : Bool) (mant : Nat) (exp : Int) : Nat :=
  if mant < 2 ^ flt.mantbits then flt.signBit neg + mant
  else flt.signBit neg + (exp - flt.bias).toNat * 2 ^ flt.mantbits + (mant - 2 ^ flt.mantbits)

/-! ## Bit patterns -/

theorem block_div {k s m : Nat} (hm : m < s) : (k * s + m) / s = k := by
  rw [Nat.mul_comm, Nat.mul_add_div (Nat.zero_lt_of_lt hm), Nat.div_eq_of_lt hm, Nat.add_zero]

theorem block_mod {k s m : Nat} (hm : m < s) : (k * s + m) % s = m := by
  rw [Nat.mul_comm, Nat.mul_add_mod, Nat.mod_eq_of_lt hm]

theorem signBit_eq (flt : FloatInfo) (neg : Bool) :
    flt.signBit neg = neg.toNat * 2 ^ flt.expbits * 2 ^ flt.mantbits := by
  cases neg
  · simp [signBit]
  · simp [signBit, Nat.pow_add]

/-- The three fields of a bit pattern do not overlap. -/
theorem decode_fields (neg : Bool) {e m : Nat} (he : e < 2 ^ flt.expbits)
    (hm : m < 2 ^ flt.mantbits) :
    (flt.signBit neg + e * 2 ^ flt.mantbits + m) / 2 ^ (flt.expbits + flt.mantbits) = neg.toNat ∧
      (flt.signBit neg + e * 2 ^ flt.mantbits + m) / 2 ^ flt.mantbits % 2 ^ flt.expbits = e ∧
      (flt.signBit neg + e * 2 ^ flt.mantbits + m) % 2 ^ flt.mantbits = m := by
  rw [signBit_eq, ← Nat.add_mul]
  refine ⟨?_, ?_, block_mod hm⟩
  · rw [Nat.add_comm flt.expbits, Nat.pow_add, ← Nat.div_div_eq_div_mul, block_div hm, block_div he]
  · rw [block_div hm, block_mod he]

/-- The exponent field of a representable value. -/
def Representable.field (flt : FloatInfo) (mant : Nat) (exp : Int) : Nat :=
  if mant < 2 ^ flt.mantbits then 0 else (exp - flt.bias).toNat

theorem encode_eq (flt : FloatInfo) (neg : Bool) (mant : Nat) (exp : Int) :
    flt.encode neg mant exp =
      flt.signBit neg + Representable.field flt mant exp * 2 ^ flt.mantbits +
        (if mant < 2 ^ flt.mantbits then mant else mant - 2 ^ flt.mantbits) := by
  unfold encode Representable.field
  split <;> simp

theorem Representable.field_lt {mant : Nat} {exp : Int} (h : flt.Representable mant exp) :
    Representable.field flt mant exp < 2 ^ flt.expbits - 1 := by
  have hge := h.exp_ge
  have hlt := h.exp_lt
  have hE : 1 ≤ 2 ^ flt.expbits := Nat.one_le_two_pow
  have hcast : ((2 ^ flt.expbits : Nat) : Int) = 2 ^ flt.expbits := by norm_cast
  unfold field
  split <;> omega

theorem Representable.low_lt {mant : Nat} {exp : Int} (h : flt.Representable mant exp) :
    (if mant < 2 ^ flt.mantbits then mant else mant - 2 ^ flt.mantbits) < 2 ^ flt.mantbits := by
  have := h.mant_lt
  rw [Nat.pow_succ] at this
  split <;> omega

/-- Reading back the bit pattern of a representable value. -/
theorem decode_encode {mant : Nat} {exp : Int} (h : flt.Representable mant exp) (neg : Bool) :
    flt.decode (flt.encode neg mant exp) = .finite neg mant exp := by
  have hfield := h.field_lt
  obtain ⟨hs, he, hm⟩ := decode_fields neg (Nat.lt_of_lt_of_le hfield (Nat.sub_le _ _)) h.low_lt
  have hneg : decide (neg.toNat ≠ 0) = neg := by cases neg <;> rfl
  have hge := h.exp_ge
  simp only [decode, encode_eq, hs, he, hm, hneg, if_neg (Nat.ne_of_lt hfield)]
  unfold Representable.field
  split
  · next hlt =>
    have hexp : exp = flt.bias + 1 := h.normal.resolve_left (Nat.not_le.mpr hlt)
    rw [if_pos rfl, hexp, Int.add_comm]
  · next hlt =>
    rw [if_neg (by omega)]
    congr 1 <;> omega

/-- What decodes to a finite value is representable. -/
theorem representable_decode {bits : Nat} {neg : Bool} {mant : Nat} {exp : Int}
    (hE : 2 ≤ flt.expbits) (h : flt.decode bits = .finite neg mant exp) :
    flt.Representable mant exp := by
  have hM : bits % 2 ^ flt.mantbits < 2 ^ flt.mantbits := Nat.mod_lt _ (Nat.two_pow_pos _)
  have hlt : bits / 2 ^ flt.mantbits % 2 ^ flt.expbits < 2 ^ flt.expbits :=
    Nat.mod_lt _ (Nat.two_pow_pos _)
  have hbig : 2 ^ 2 ≤ 2 ^ flt.expbits := Nat.pow_le_pow_right (by decide) hE
  have hcast : ((2 ^ flt.expbits : Nat) : Int) = 2 ^ flt.expbits := by norm_cast
  have hsucc : 2 ^ (flt.mantbits + 1) = 2 ^ flt.mantbits * 2 := Nat.pow_succ _ _
  simp only [decode] at h
  split at h
  · split at h <;> cases h
  · split at h
    · cases h
      exact ⟨by omega, by omega, by omega, .inr (by omega)⟩
    · cases h
      exact ⟨by omega, by omega, by omega, .inl (by omega)⟩

/-! ## Rounding -/

theorem log2_mul_two_pow {n : Nat} (h : n ≠ 0) (k : Nat) :
    Nat.log2 (n * 2 ^ k) = Nat.log2 n + k := by
  induction k with
  | zero => rw [Nat.pow_zero, Nat.mul_one, Nat.add_zero]
  | succ k ih =>
    have hne : n * 2 ^ k ≠ 0 := Nat.mul_ne_zero h (by positivity)
    rw [Nat.pow_succ, ← Nat.mul_assoc, Nat.log2_eq_log_two, Nat.log_mul_base (by decide) hne,
      ← Nat.log2_eq_log_two, ih, Nat.add_assoc]

/-- The exponent the rounding works with: that of the leading bit, but not below the smallest. -/
theorem Representable.max_exp {mant : Nat} {exp : Int} (h : flt.Representable mant exp)
    (hpos : 0 < mant) : max (Nat.log2 mant + (exp - flt.mantbits)) (flt.bias + 1) = exp := by
  have hge := h.exp_ge
  have hle : Nat.log2 mant < flt.mantbits + 1 :=
    (Nat.log2_lt (Nat.ne_of_gt hpos)).mpr h.mant_lt
  rcases h.normal with hn | hexp
  · have hlog : flt.mantbits ≤ Nat.log2 mant := (Nat.le_log2 (Nat.ne_of_gt hpos)).mpr hn
    omega
  · omega

/-- Rounding is exact on a representable value, whatever quotient by a power of two spells it. -/
theorem ofRat_exact {mant num b : Nat} {exp : Int} (h : flt.Representable mant exp)
    (hpos : 0 < mant) (neg : Bool)
    (hval : num * 2 ^ (-(exp - flt.mantbits)).toNat =
      mant * (2 ^ b * 2 ^ (exp - flt.mantbits).toNat)) :
    flt.ofRat neg num (2 ^ b) = flt.encode neg mant exp := by
  have hnum : num ≠ 0 := by
    rintro rfl
    rw [Nat.zero_mul] at hval
    have : 0 < mant * (2 ^ b * 2 ^ (exp - flt.mantbits).toNat) := by positivity
    omega
  have hlog : (Nat.log2 num : Int) - b = Nat.log2 mant + (exp - flt.mantbits) := by
    have hl := congrArg Nat.log2 hval
    rw [← Nat.pow_add, log2_mul_two_pow hnum, log2_mul_two_pow (Nat.ne_of_gt hpos)] at hl
    omega
  -- the quotient is at least the power of two that the logarithms give
  have hlead : 2 ^ b * 2 ^ (Nat.log2 num - b : Int).toNat ≤
      num * 2 ^ (-(Nat.log2 num - b : Int)).toNat := by
    calc 2 ^ b * 2 ^ (Nat.log2 num - b : Int).toNat
        = 2 ^ Nat.log2 num * 2 ^ (-(Nat.log2 num - b : Int)).toNat := by
          rw [← Nat.pow_add, ← Nat.pow_add]
          congr 1
          omega
      _ ≤ num * 2 ^ (-(Nat.log2 num - b : Int)).toNat :=
          Nat.mul_le_mul_right _ (Nat.log2_self_le hnum)
  rw [hlog] at hlead
  have hd : 0 < 2 ^ b * 2 ^ (exp - flt.mantbits).toNat := by positivity
  have hcarry : mant ≠ 2 ^ (flt.mantbits + 1) := Nat.ne_of_lt h.mant_lt
  have hfin : ¬ (2 ^ flt.expbits - 1 : Int) ≤ exp - flt.bias := Int.not_le.mpr h.exp_lt
  generalize hden : 2 ^ b * 2 ^ (exp - flt.mantbits).toNat = d at hval hd
  have hround : ¬ (2 * 0 > d ∨ (2 * 0 = d ∧ mant % 2 = 1)) := by omega
  unfold ofRat
  rw [if_neg hnum]
  simp only [Nat.log2_two_pow, hlog, if_pos hlead, h.max_exp hpos, hval, hden, Nat.mul_mod_left,
    Nat.mul_div_left _ hd, if_neg hround, if_neg hcarry, if_neg hfin, encode]

/-- A bit pattern fits its width. -/
theorem encode_lt {mant : Nat} {exp : Int} (h : flt.Representable mant exp) (neg : Bool) :
    flt.encode neg mant exp < 2 ^ (1 + flt.expbits + flt.mantbits) := by
  have hlow := h.low_lt
  have hfield : Representable.field flt mant exp + 1 ≤ 2 ^ flt.expbits := by
    have := h.field_lt
    omega
  have hneg : neg.toNat ≤ 1 := by cases neg <;> decide
  have hbits : neg.toNat * 2 ^ flt.expbits + Representable.field flt mant exp + 1 ≤
      2 ^ (1 + flt.expbits) := by
    have := Nat.mul_le_mul_right (2 ^ flt.expbits) hneg
    rw [Nat.pow_add]
    omega
  have hmul := Nat.mul_le_mul_right (2 ^ flt.mantbits) hbits
  rw [encode_eq, signBit_eq, Nat.pow_add, ← Nat.add_mul]
  rw [Nat.add_mul, Nat.one_mul] at hmul
  omega

/-- Converting a value is exact when the target represents it with a shifted significand. -/
theorem convert_exact {src : FloatInfo} {mant mant' i j : Nat} {exp exp' : Int}
    (h : flt.Representable mant' exp') (hpos : 0 < mant') (neg : Bool)
    (hmant : mant * 2 ^ i = mant' * 2 ^ j)
    (hexp : exp - src.mantbits - i = exp' - flt.mantbits - j) :
    flt.convert src (.finite neg mant exp) = flt.encode neg mant' exp' := by
  refine ofRat_exact h hpos neg ?_
  generalize hx : exp - (src.mantbits : Int) = x at hexp
  generalize hx' : exp' - (flt.mantbits : Int) = x' at hexp
  refine Nat.eq_of_mul_eq_mul_right (Nat.two_pow_pos j) ?_
  calc mant * 2 ^ x.toNat * 2 ^ (-x').toNat * 2 ^ j
      = mant * 2 ^ i * (2 ^ (-x).toNat * 2 ^ x'.toNat) := by
        simp only [Nat.mul_assoc, ← Nat.pow_add]
        congr 2
        omega
    _ = mant' * (2 ^ (-x).toNat * 2 ^ x'.toNat) * 2 ^ j := by
        rw [hmant]
        ring

theorem convert_zero (src : FloatInfo) (neg : Bool) (exp : Int) :
    flt.convert src (.finite neg 0 exp) = flt.encode neg 0 (flt.bias + 1) := by
  simp [convert, ratio, ofRat, encode]

end FloatInfo

/-! ## `float32` by way of `float64` -/

open FloatInfo

theorem representable_zero {flt : FloatInfo} (h : 2 ≤ flt.expbits) :
    flt.Representable 0 (flt.bias + 1) := by
  have hbig : 2 ^ 2 ≤ 2 ^ flt.expbits := Nat.pow_le_pow_right (by decide) h
  have hcast : ((2 ^ flt.expbits : Nat) : Int) = 2 ^ flt.expbits := by norm_cast
  exact ⟨Nat.two_pow_pos _, Int.le_refl _, by omega, .inr rfl⟩

/-- Every `float32` is a `float64` with its significand shifted to the top. -/
theorem representable_widen {mant : Nat} {exp : Int} (h : float32info.Representable mant exp)
    (hpos : 0 < mant) :
    float64info.Representable (mant * 2 ^ (52 - Nat.log2 mant))
      (exp + Nat.log2 mant - 23) := by
  have hlog : Nat.log2 mant < 24 := (Nat.log2_lt (Nat.ne_of_gt hpos)).mpr h.mant_lt
  have hge := h.exp_ge
  have hlt := h.exp_lt
  have hle : 2 ^ Nat.log2 mant ≤ mant := Nat.log2_self_le (Nat.ne_of_gt hpos)
  have hup : mant < 2 ^ (Nat.log2 mant + 1) := Nat.lt_log2_self
  have hsplit : (2 : Nat) ^ Nat.log2 mant * 2 ^ (52 - Nat.log2 mant) = 2 ^ 52 := by
    rw [← Nat.pow_add]
    congr 1
    omega
  simp only [float32info] at hge hlt
  refine ⟨?_, ?_, ?_, .inl ?_⟩
  · calc mant * 2 ^ (52 - Nat.log2 mant)
        < 2 ^ (Nat.log2 mant + 1) * 2 ^ (52 - Nat.log2 mant) :=
          Nat.mul_lt_mul_of_pos_right hup (Nat.two_pow_pos _)
      _ = 2 ^ (52 + 1) := by
          rw [Nat.pow_succ, Nat.mul_right_comm, hsplit, ← Nat.pow_succ]
  · simp only [float64info]
    omega
  · simp only [float64info]
    omega
  · calc 2 ^ 52 = 2 ^ Nat.log2 mant * 2 ^ (52 - Nat.log2 mant) := hsplit.symm
      _ ≤ mant * 2 ^ (52 - Nat.log2 mant) := Nat.mul_le_mul_right _ hle

/-- A finite `float32` is widened to a `float64` of the same sign, which is zero iff it is. -/
theorem convert_widen {mant : Nat} {exp : Int} (hrep : float32info.Representable mant exp)
    (neg : Bool) :
    ∃ mant' exp', float64info.Representable mant' exp' ∧ (mant' = 0 ↔ mant = 0) ∧
      float64info.convert float32info (.finite neg mant exp) = float64info.encode neg mant' exp' ∧
      float32info.convert float64info (.finite neg mant' exp') = float32info.encode neg mant exp := by
  rcases Nat.eq_zero_or_pos mant with rfl | hpos
  · obtain rfl : exp = float32info.bias + 1 := hrep.normal.resolve_left (by decide)
    exact ⟨0, float64info.bias + 1, representable_zero (by decide), Iff.rfl, convert_zero _ _ _,
      convert_zero _ _ _⟩
  · have hrep' := representable_widen hrep hpos
    have hlog : Nat.log2 mant < 24 := (Nat.log2_lt (Nat.ne_of_gt hpos)).mpr hrep.mant_lt
    have hpos' : 0 < mant * 2 ^ (52 - Nat.log2 mant) := by positivity
    refine ⟨_, _, hrep', iff_of_false hpos'.ne' hpos.ne',
      convert_exact (i := 52 - Nat.log2 mant) (j := 0) hrep' hpos' neg (by simp) ?_,
      convert_exact (i := 0) (j := 52 - Nat.log2 mant) hrep hpos neg (by simp) ?_⟩
    · simp only [float32info, float64info]
      omega
    · simp only [float32info, float64info]
      omega

/-- Widening a finite `float32` keeps it finite. -/
theorem decode_widen {v : Binary32} {neg : Bool} {mant : Nat} {exp : Int}
    (h : float32info.decode v.toNat = .finite neg mant exp) :
    ∃ mant' exp', Binary64.decode (Binary64.ofBinary32 v) = .finite neg mant' exp' ∧
      (mant' = 0 ↔ mant = 0) ∧
      float32info.convert float64info (.finite neg mant' exp') = float32info.encode neg mant exp := by
  obtain ⟨mant', exp', hrep', hzero, hwide, hnarrow⟩ :=
    convert_widen (representable_decode (by decide) h) neg
  refine ⟨mant', exp', ?_, hzero, hnarrow⟩
  rw [Binary64.ofBinary32, h, hwide, Binary64.decode,
    UInt64.toNat_ofNat_of_lt' (encode_lt hrep' neg), decode_encode hrep']

/-- Narrowing it again gives it back. -/
theorem decode_narrow_widen {v : Binary32} {neg : Bool} {mant : Nat} {exp : Int}
    (h : float32info.decode v.toNat = .finite neg mant exp) :
    float32info.decode (Binary64.toBinary32 (Binary64.ofBinary32 v)).toNat =
      .finite neg mant exp := by
  have hrep := representable_decode (by decide) h
  obtain ⟨mant', exp', hdecode, -, hnarrow⟩ := decode_widen h
  rw [Binary64.toBinary32, hdecode, hnarrow, UInt32.toNat_ofNat_of_lt' (encode_lt hrep neg),
    decode_encode hrep]

theorem ofBinary32_nan {v : Binary32} (h : float32info.decode v.toNat = .nan) :
    Binary64.decode (Binary64.ofBinary32 v) = .nan := by
  rw [Binary64.ofBinary32, h]
  decide

theorem ofBinary32_inf {v : Binary32} {neg : Bool} (h : float32info.decode v.toNat = .inf neg) :
    Binary64.decode (Binary64.ofBinary32 v) = .inf neg := by
  rw [Binary64.ofBinary32, h]
  cases neg <;> decide

/-! ## Decimal texts -/

/-- The text of a `float64` that is neither NaN nor infinite is a JSON number. -/
theorem number_appendFloat {f : Binary64} (hnan : Binary64.isNaN f = false)
    (hpos : Binary64.isInf f false = false) (hneg : Binary64.isInf f true = false) :
    Json.Number (appendFloat f false) := by
  cases hf : Binary64.decode f with
  | nan => simp [Binary64.isNaN, hf] at hnan
  | inf neg => cases neg <;> simp [Binary64.isInf, hf] at hpos hneg
  | finite neg mant exp =>
    simp only [appendFloat, hf, Bool.false_eq_true, ↓reduceIte]
    exact number_format _ _ _ _

/-- The same for a `float32`, which is checked after it was widened. -/
theorem number_appendFloat_narrow {v : Binary32}
    (hnan : Binary64.isNaN (Binary64.ofBinary32 v) = false)
    (hpos : Binary64.isInf (Binary64.ofBinary32 v) false = false)
    (hneg : Binary64.isInf (Binary64.ofBinary32 v) true = false) :
    Json.Number (appendFloat (Binary64.ofBinary32 v) true) := by
  cases hv : float32info.decode v.toNat with
  | nan => simp [Binary64.isNaN, ofBinary32_nan hv] at hnan
  | inf neg => cases neg <;> simp [Binary64.isInf, ofBinary32_inf hv] at hpos hneg
  | finite neg mant exp =>
    simp only [appendFloat, decode_narrow_widen hv, ↓reduceIte]
    exact number_format _ _ _ _

end Zap.Data
