import Zap.Data.Shortest
import Zap.Laws.JsonText

/-!
# Complex numbers as text

`appendComplex` writes a plus sign before an imaginary part that is not below zero, and leaves the
sign of any other to `AppendFloat`. For an ordinary number that makes one sign. A NaN comes without
any, positive infinity brings a second, and negative zero, which is not below zero, has a minus
after the plus. The two parts can be told apart all the same, because what ends the text of a real
part is never part of a numeral (`complexText_injective`).
-/

set_option autoImplicit false

namespace Zap.Zapcore

open Data FloatInfo

/-- `f >= 0` of a decoded float. -/
def geZero : FloatValue → Bool
  | .nan => false
  | .inf neg => !neg
  | .finite neg mant _ => !neg || mant == 0

/-- The text of an imaginary part, with the sign that is put before it. -/
def imagText (flt : FloatInfo) (v : FloatValue) : Bytes :=
  (if geZero v then [0x2B] else []) ++ flt.format v

/-- The text of a complex number from the decoded parts. -/
def partsText (flt : FloatInfo) (re im : FloatValue) : Bytes :=
  flt.format re ++ (imagText flt im ++ [0x69])

/-- A sign and no other after it. -/
def Signed (t : Bytes) : Prop :=
  ∃ c rest, t = c :: rest ∧ (c = 0x2B ∨ c = 0x2D) ∧ rest.head? ≠ some 0x2B ∧
    rest.head? ≠ some 0x2D

/-- A float whose text has one sign as an imaginary part: finite but not negative zero, or negative
infinity. -/
def OneSign : FloatValue → Prop
  | .nan => False
  | .inf neg => neg = true
  | .finite neg mant _ => neg = true → mant ≠ 0

theorem isDigit_ne_sign {d : UInt8} (h : isDigit d = true) : d ≠ 0x2B ∧ d ≠ 0x2D := by
  refine ⟨?_, ?_⟩
  · rintro rfl
    cases h
  · rintro rfl
    cases h

theorem signed_iff (flt : FloatInfo) (v : FloatValue) : Signed (imagText flt v) ↔ OneSign v := by
  cases v with
  | nan =>
    refine iff_of_false ?_ id
    rintro ⟨c, rest, ht, hc, -⟩
    cases ht
    exact absurd hc (by decide)
  | inf neg =>
    cases neg with
    | true => exact iff_of_true ⟨0x2D, _, rfl, .inr rfl, by decide, by decide⟩ rfl
    | false =>
      refine iff_of_false ?_ (fun h => (by cases h))
      rintro ⟨c, rest, ht, hc, hplus, -⟩
      cases ht
      exact hplus rfl
  | finite neg mant exp =>
    obtain ⟨d, rest, hmag, hd⟩ := flt.magnitude_head mant exp
    obtain ⟨hplus, hminus⟩ := isDigit_ne_sign hd
    have hone : ∀ c : UInt8, c = 0x2B ∨ c = 0x2D → Signed (c :: d :: rest) := fun c hc =>
      ⟨c, d :: rest, rfl, hc, fun h => hplus (Option.some.inj h), fun h => hminus (Option.some.inj h)⟩
    rw [imagText, format_finite, hmag]
    cases neg with
    | false => exact iff_of_true (hone 0x2B (.inl rfl)) fun h => (by cases h)
    | true =>
      by_cases hzero : mant = 0
      · subst hzero
        refine iff_of_false ?_ fun h => h rfl rfl
        rintro ⟨c, rest', ht, hc, -, hno⟩
        cases ht
        exact hno rfl
      · have hge : geZero (.finite true mant exp) = false := by
          rw [geZero, Bool.not_true, Bool.false_or]
          exact beq_false_of_ne hzero
        rw [hge]
        exact iff_of_true (hone 0x2D (.inr rfl)) fun _ => hzero

/-! ## Reading the parts -/

/-- What follows a real part does not belong to a numeral. -/
theorem stops_imag (flt : FloatInfo) (v : FloatValue) : Stops (imagText flt v ++ [0x69]) := by
  have hstop : ∀ {c : UInt8} {s : Bytes}, isNumeral c = false → Stops (c :: s) := by
    intro c s hc b rest h
    rwa [← (List.cons.inj h).1]
  cases v with
  | nan => exact hstop (by decide)
  | inf neg => cases neg <;> exact hstop (by decide)
  | finite neg mant exp =>
    rw [imagText, format_finite]
    cases hge : geZero (.finite neg mant exp) with
    | true => exact hstop (by decide)
    | false =>
      cases neg with
      | true => exact hstop (by decide)
      | false => cases hge

/-- An imaginary part can be read without the sign that was put before it. -/
theorem imagText_injective {flt : FloatInfo} {v v' : FloatValue}
    (h : imagText flt v = imagText flt v') : flt.format v = flt.format v' := by
  -- a text that starts with a plus of its own belongs to a float that is not below zero
  have hplus : ∀ {v : FloatValue}, geZero v = false → ∀ s, flt.format v ≠ 0x2B :: s := by
    intro v hge s hs
    cases v with
    | nan => cases hs
    | inf neg =>
      cases neg
      · cases hge
      · cases hs
    | finite neg mant exp =>
      rw [format_finite] at hs
      cases neg with
      | false => cases hge
      | true => exact absurd (List.cons.inj hs).1 (by decide)
  unfold imagText at h
  cases hge : geZero v <;> cases hge' : geZero v'
  all_goals simp only [hge, hge', Bool.false_eq_true, ↓reduceIte] at h
  · exact h
  · exact absurd h (hplus hge _)
  · exact absurd h.symm (hplus hge' _)
  · exact (List.cons.inj h).2

theorem partsText_injective {flt : FloatInfo} (hflt : flt.Standard) {re re' im im' : FloatValue}
    (hre : flt.Has re) (hre' : flt.Has re') (him : flt.Has im) (him' : flt.Has im')
    (h : partsText flt re im = partsText flt re' im') : re = re' ∧ im = im' := by
  obtain ⟨hreal, htail⟩ := format_append_inj (stops_imag flt im) (stops_imag flt im') h
  have himag := imagText_injective (List.append_cancel_right htail)
  exact ⟨format_injective hflt hre hre' hreal, format_injective hflt him him' himag⟩

/-! ## The two widths -/

theorem geZero_decode (f : Binary64) : Binary64.geZero f = geZero (Binary64.decode f) := by
  unfold Binary64.geZero geZero
  cases Binary64.decode f <;> rfl

theorem complexText_wide (re im : Binary64) :
    complexText re im false = partsText float64info (Binary64.decode re) (Binary64.decode im) := by
  rw [complexText, partsText, imagText, geZero_decode, List.append_assoc]
  rfl

/-- A `float32` is written as what it is, although it comes as a `float64`. -/
theorem appendFloat_narrow (v : Binary32) :
    appendFloat (Binary64.ofBinary32 v) true = float32info.format (float32info.decode v.toNat) := by
  cases hv : float32info.decode v.toNat with
  | nan =>
    rw [appendFloat, if_pos rfl, Binary64.toBinary32, ofBinary32_nan hv]
    decide
  | inf neg =>
    rw [appendFloat, if_pos rfl, Binary64.toBinary32, ofBinary32_inf hv]
    cases neg <;> decide
  | finite neg mant exp => rw [appendFloat, if_pos rfl, decode_narrow_widen hv]

theorem geZero_narrow (v : Binary32) :
    Binary64.geZero (Binary64.ofBinary32 v) = geZero (float32info.decode v.toNat) := by
  rw [geZero_decode]
  cases hv : float32info.decode v.toNat with
  | nan => rw [ofBinary32_nan hv]
  | inf neg => rw [ofBinary32_inf hv]
  | finite neg mant exp =>
    obtain ⟨mant', exp', hdecode, hzero, -⟩ := decode_widen hv
    have hbeq : (mant' == 0) = (mant == 0) := by rw [Bool.eq_iff_iff, beq_iff_eq, beq_iff_eq, hzero]
    rw [hdecode, geZero, geZero, hbeq]

theorem complexText_narrow (re im : Binary32) :
    complexText (Binary64.ofBinary32 re) (Binary64.ofBinary32 im) true =
      partsText float32info (float32info.decode re.toNat) (float32info.decode im.toNat) := by
  rw [complexText, partsText, imagText, geZero_narrow, appendFloat_narrow, appendFloat_narrow,
    List.append_assoc]

/-! ## Both together -/

/-- A text is that of a real part, an imaginary part with one sign, and an i. -/
def ComplexForm (text real : Bytes) : Prop :=
  ∃ imag, text = real ++ (imag ++ [0x69]) ∧ Signed imag

theorem complexForm_iff (flt : FloatInfo) (re im : FloatValue) :
    ComplexForm (partsText flt re im) (flt.format re) ↔ OneSign im := by
  rw [← signed_iff flt im]
  constructor
  · rintro ⟨imag, htext, hsigned⟩
    rwa [List.append_cancel_right (List.append_cancel_left htext)]
  · intro h
    exact ⟨_, rfl, h⟩

/-- A `complex128` is written unambiguously: its text has the form, and no other number with it has
another real or imaginary part. -/
structure Unambiguous128 (re im : Binary64) : Prop where
  form : ComplexForm (complexText re im false) (appendFloat re false)
  recover : ∀ re' im', complexText re' im' false = complexText re im false →
    Binary64.decode re' = Binary64.decode re ∧ Binary64.decode im' = Binary64.decode im

/-- The same for a `complex64`. -/
structure Unambiguous64 (re im : Binary32) : Prop where
  form : ComplexForm (complexText (Binary64.ofBinary32 re) (Binary64.ofBinary32 im) true)
    (appendFloat (Binary64.ofBinary32 re) true)
  recover : ∀ re' im',
    complexText (Binary64.ofBinary32 re') (Binary64.ofBinary32 im') true =
        complexText (Binary64.ofBinary32 re) (Binary64.ofBinary32 im) true →
      float32info.decode re'.toNat = float32info.decode re.toNat ∧
        float32info.decode im'.toNat = float32info.decode im.toNat

theorem unambiguous128_iff (re im : Binary64) :
    Unambiguous128 re im ↔ OneSign (Binary64.decode im) := by
  have hform : ComplexForm (complexText re im false) (appendFloat re false) ↔
      OneSign (Binary64.decode im) := by
    rw [complexText_wide]
    exact complexForm_iff _ _ _
  refine ⟨fun h => hform.mp h.form, fun h => ⟨hform.mpr h, fun re' im' heq => ?_⟩⟩
  rw [complexText_wide, complexText_wide] at heq
  have has : ∀ f, float64info.Has (Binary64.decode f) := fun f => has_decode (by decide) _
  exact partsText_injective standard_float64info (has _) (has _) (has _) (has _) heq

theorem unambiguous64_iff (re im : Binary32) :
    Unambiguous64 re im ↔ OneSign (float32info.decode im.toNat) := by
  have hform : ComplexForm (complexText (Binary64.ofBinary32 re) (Binary64.ofBinary32 im) true)
      (appendFloat (Binary64.ofBinary32 re) true) ↔ OneSign (float32info.decode im.toNat) := by
    rw [complexText_narrow, appendFloat_narrow]
    exact complexForm_iff _ _ _
  refine ⟨fun h => hform.mp h.form, fun h => ⟨hform.mpr h, fun re' im' heq => ?_⟩⟩
  rw [complexText_narrow, complexText_narrow] at heq
  have has : ∀ bits, float32info.Has (float32info.decode bits) := has_decode (by decide)
  exact partsText_injective standard_float32info (has _) (has _) (has _) (has _) heq

/-- The encoder writes the text of a complex number between quotes, and the text is unambiguous iff
the imaginary part is finite and not negative zero, or negative infinity. -/
theorem complex_unambiguous_iff (enc : JsonEncoder) (re im : Binary64) (re' im' : Binary32) :
    (enc.appendPrim (.complex128 re im) =
        enc.addElementSeparator.write (0x22 :: (complexText re im false ++ [0x22])) ∧
      (Unambiguous128 re im ↔ OneSign (Binary64.decode im))) ∧
    enc.appendPrim (.complex64 re' im') = enc.addElementSeparator.write
        (0x22 :: (complexText (Binary64.ofBinary32 re') (Binary64.ofBinary32 im') true ++ [0x22])) ∧
      (Unambiguous64 re' im' ↔ OneSign (float32info.decode im'.toNat)) := by
  refine ⟨⟨?_, unambiguous128_iff re im⟩, ?_, unambiguous64_iff re' im'⟩
  · rw [enc.addElementSeparator_write]
    exact enc.appendComplex_eq _ _ _
  · rw [enc.addElementSeparator_write]
    exact enc.appendComplex_eq _ _ _

/-- One, with the imaginary parts NaN, positive infinity and negative zero. -/
theorem complex_signs :
    complexText 0x3FF0000000000000 0x7FF8000000000001 false = utf8 "1NaNi" ∧
      complexText 0x3FF0000000000000 0x7FF0000000000000 false = utf8 "1++Infi" ∧
      complexText 0x3FF0000000000000 0x8000000000000000 false = utf8 "1+-0i" := by
  decide

end Zap.Zapcore
