import Zap.Data.IeeeLaws
import Mathlib.Algebra.Order.Field.Power
import Mathlib.Tactic.FieldSimp
import Mathlib.Tactic.Linarith
import Mathlib.Tactic.NormNum
import Mathlib.Tactic.Positivity

/-!
# The shortest decimal of a float

Numbers round to a float when they lie between the middles to the next floats; a middle itself
rounds to the float with the even significand (`Inside`). The search for the shortest decimal ends
at one that rounds to the float (`shortest_inside`), and nothing rounds to two floats
(`Inside.unique`). So a float is known by its decimal text (`format_injective`).

The search compares integers, in a scale in which both a quarter of the last binary place and a unit
of the last decimal place are whole. `scaled_lt` and its kin lead from there to rational numbers.
-/

set_option autoImplicit false

namespace Zap.Data

namespace FloatInfo

section

variable (flt : FloatInfo) (mant : Nat) (exp p : Int)

/-- Quarters of the last binary place, in the common scale. -/
def quarters (x : Nat) : Nat :=
  x * 2 ^ (exp - flt.mantbits - 2).toNat * 10 ^ p.toNat

/-- A unit of the decimal place `-p`, in the common scale. -/
def unit : Nat := 2 ^ (-(exp - flt.mantbits - 2)).toNat * 10 ^ (-p).toNat

/-- The middle to the next float below, in quarters. -/
def below : Nat :=
  if mant = 2 ^ flt.mantbits ∧ flt.bias + 1 < exp then 4 * mant - 1 else 4 * mant - 2

/-- The largest decimal that is not above the float. -/
def down : Nat := flt.quarters exp p (4 * mant) / flt.unit exp p

/-- It rounds to the float. -/
def okDown : Bool :=
  decide (flt.quarters exp p (flt.below mant exp) < flt.down mant exp p * flt.unit exp p) ||
    decide (mant % 2 = 0) &&
      decide (flt.quarters exp p (flt.below mant exp) = flt.down mant exp p * flt.unit exp p)

/-- The next one does. -/
def okUp : Bool :=
  decide ((flt.down mant exp p + 1) * flt.unit exp p < flt.quarters exp p (4 * mant + 2)) ||
    decide (mant % 2 = 0) &&
      decide ((flt.down mant exp p + 1) * flt.unit exp p = flt.quarters exp p (4 * mant + 2))

/-- The next one is nearer, or as near and even. -/
def Nearer : Prop :=
  2 * (flt.quarters exp p (4 * mant) % flt.unit exp p) > flt.unit exp p ∨
    (2 * (flt.quarters exp p (4 * mant) % flt.unit exp p) = flt.unit exp p ∧
      flt.down mant exp p % 2 = 1)

instance : Decidable (flt.Nearer mant exp p) :=
  inferInstanceAs (Decidable (_ ∨ (_ ∧ _)))

theorem shortestFrom_succ (fuel : Nat) :
    flt.shortestFrom mant exp (fuel + 1) p =
      if flt.okDown mant exp p && flt.okUp mant exp p then
        if flt.Nearer mant exp p then (flt.down mant exp p + 1, -p) else (flt.down mant exp p, -p)
      else if flt.okDown mant exp p then (flt.down mant exp p, -p)
      else if flt.okUp mant exp p then (flt.down mant exp p + 1, -p)
      else flt.shortestFrom mant exp fuel (p + 1) := rfl

/-- A number that rounds to the float `mant * 2 ^ (exp - mantbits)`. -/
structure Inside (x : ℚ) : Prop where
  lower : flt.below mant exp * 2 ^ (exp - flt.mantbits - 2) ≤ x
  upper : x ≤ (4 * mant + 2 : Nat) * 2 ^ (exp - flt.mantbits - 2)
  lower_even : flt.below mant exp * 2 ^ (exp - flt.mantbits - 2) = x → mant % 2 = 0
  upper_even : x = (4 * mant + 2 : Nat) * 2 ^ (exp - flt.mantbits - 2) → mant % 2 = 0

/-- At the decimal place `-p`, units are not larger than quarters of a binary place. -/
def Fine : Prop := flt.unit exp p ≤ flt.quarters exp p 1

end

/-! ## The common scale -/

theorem zpow_toNat {b : ℚ} (hb : b ≠ 0) (e : Int) : b ^ e * b ^ (-e).toNat = b ^ e.toNat := by
  rw [← zpow_natCast, ← zpow_natCast, ← zpow_add₀ hb]
  congr 1
  omega

section

variable {flt : FloatInfo} {mant : Nat} {exp p : Int} {x y : Nat}

theorem scaled (flt : FloatInfo) (exp p : Int) (x y : Nat) :
    ∃ c : ℚ, 0 < c ∧ (flt.quarters exp p x : ℚ) = x * 2 ^ (exp - flt.mantbits - 2) * c ∧
      ((y * flt.unit exp p : Nat) : ℚ) = y * 10 ^ (-p) * c := by
  refine ⟨2 ^ (-(exp - flt.mantbits - 2)).toNat * 10 ^ p.toNat, by positivity, ?_, ?_⟩
  · rw [quarters]
    push_cast
    rw [← zpow_toNat (by norm_num : (2 : ℚ) ≠ 0)]
    ring
  · have hten := zpow_toNat (by norm_num : (10 : ℚ) ≠ 0) (-p)
    rw [neg_neg] at hten
    rw [unit]
    push_cast
    rw [← hten]
    ring

theorem scaled_lt : flt.quarters exp p x < y * flt.unit exp p ↔
    (x : ℚ) * 2 ^ (exp - flt.mantbits - 2) < y * 10 ^ (-p) := by
  obtain ⟨c, hc, hx, hy⟩ := flt.scaled exp p x y
  rw [← Nat.cast_lt (α := ℚ), hx, hy, mul_lt_mul_iff_left₀ hc]

theorem scaled_gt : y * flt.unit exp p < flt.quarters exp p x ↔
    (y : ℚ) * 10 ^ (-p) < x * 2 ^ (exp - flt.mantbits - 2) := by
  obtain ⟨c, hc, hx, hy⟩ := flt.scaled exp p x y
  rw [← Nat.cast_lt (α := ℚ), hx, hy, mul_lt_mul_iff_left₀ hc]

theorem scaled_eq : flt.quarters exp p x = y * flt.unit exp p ↔
    (x : ℚ) * 2 ^ (exp - flt.mantbits - 2) = y * 10 ^ (-p) := by
  obtain ⟨c, hc, hx, hy⟩ := flt.scaled exp p x y
  rw [← Nat.cast_inj (R := ℚ), hx, hy, mul_left_inj' hc.ne']

theorem quarters_lt (h : x < y) : flt.quarters exp p x < flt.quarters exp p y := by
  unfold quarters
  gcongr

theorem unit_pos : 0 < flt.unit exp p := by
  unfold unit
  positivity

/-! ## The search -/

theorem below_lt (hpos : 0 < mant) : flt.below mant exp < 4 * mant := by
  unfold below
  split <;> omega

theorem down_le : flt.down mant exp p * flt.unit exp p ≤ flt.quarters exp p (4 * mant) :=
  Nat.div_mul_le_self _ _

theorem lt_down_succ :
    flt.quarters exp p (4 * mant) < (flt.down mant exp p + 1) * flt.unit exp p := by
  rw [Nat.mul_comm _ (flt.unit exp p)]
  exact Nat.lt_mul_div_succ _ unit_pos

theorem inside_down (h : flt.okDown mant exp p = true) :
    flt.Inside mant exp (flt.down mant exp p * 10 ^ (-p)) := by
  have hup : (flt.down mant exp p : ℚ) * 10 ^ (-p) <
      (4 * mant + 2 : Nat) * 2 ^ (exp - flt.mantbits - 2) :=
    scaled_gt.mp (Nat.lt_of_le_of_lt down_le (quarters_lt (by omega)))
  simp only [okDown, Bool.or_eq_true, Bool.and_eq_true, decide_eq_true_eq] at h
  rcases h with hlt | ⟨heven, heq⟩
  · have hlow := scaled_lt.mp hlt
    exact ⟨hlow.le, hup.le, fun h => absurd h hlow.ne, fun h => absurd h hup.ne⟩
  · exact ⟨(scaled_eq.mp heq).le, hup.le, fun _ => heven, fun _ => heven⟩

theorem inside_up (hpos : 0 < mant) (h : flt.okUp mant exp p = true) :
    flt.Inside mant exp ((flt.down mant exp p + 1 : Nat) * 10 ^ (-p)) := by
  have hlow : (flt.below mant exp : ℚ) * 2 ^ (exp - flt.mantbits - 2) <
      (flt.down mant exp p + 1 : Nat) * 10 ^ (-p) :=
    scaled_lt.mp (Nat.lt_trans (quarters_lt (below_lt hpos)) lt_down_succ)
  simp only [okUp, Bool.or_eq_true, Bool.and_eq_true, decide_eq_true_eq] at h
  rcases h with hlt | ⟨heven, heq⟩
  · have hup := scaled_gt.mp hlt
    exact ⟨hlow.le, hup.le, fun h => absurd h hlow.ne, fun h => absurd h hup.ne⟩
  · exact ⟨hlow.le, (scaled_eq.mp heq.symm).ge, fun _ => heven, fun _ => heven⟩

/-- Where units are fine enough, the decimal next to the float rounds to it. -/
theorem okDown_of_fine (hpos : 0 < mant) (h : flt.Fine exp p) : flt.okDown mant exp p = true := by
  have hquarter : flt.quarters exp p (flt.below mant exp) + flt.quarters exp p 1 ≤
      flt.quarters exp p (4 * mant) := by
    have hlt : flt.below mant exp < 4 * mant := below_lt hpos
    unfold quarters
    rw [← Nat.add_mul, ← Nat.add_mul]
    gcongr
    exact hlt
  have hnext : flt.quarters exp p (4 * mant) < (flt.down mant exp p + 1) * flt.unit exp p :=
    lt_down_succ
  rw [Nat.add_mul, Nat.one_mul] at hnext
  unfold Fine at h
  simp only [okDown, Bool.or_eq_true, decide_eq_true_eq]
  exact .inl (by omega)

/-- The search ends at a decimal that rounds to the float, if it comes to a place that is fine
enough. -/
theorem shortestFrom_inside (hpos : 0 < mant) {fuel : Nat}
    (hfine : ∃ j < fuel, flt.Fine exp (p + (j : Nat))) :
    flt.Inside mant exp
      ((flt.shortestFrom mant exp fuel p).1 * 10 ^ (flt.shortestFrom mant exp fuel p).2) := by
  induction fuel generalizing p with
  | zero =>
    obtain ⟨j, hj, -⟩ := hfine
    exact absurd hj (Nat.not_lt_zero j)
  | succ fuel ih =>
    rw [shortestFrom_succ]
    split
    · next hboth =>
      obtain ⟨hdown, hup⟩ := Bool.and_eq_true_iff.mp hboth
      split
      · exact inside_up hpos hup
      · exact inside_down hdown
    split
    · next hdown => exact inside_down hdown
    split
    · next hup => exact inside_up hpos hup
    · next hnone _ =>
      refine ih ?_
      obtain ⟨j, hj, hat⟩ := hfine
      cases j with
      | zero =>
        rw [Nat.cast_zero, add_zero] at hat
        exact absurd (okDown_of_fine hpos hat) hnone
      | succ j =>
        refine ⟨j, Nat.lt_of_succ_lt_succ hj, ?_⟩
        rwa [Nat.cast_succ, add_comm (j : Int), ← add_assoc] at hat

/-- The formats whose floats the search has fuel for. -/
structure Standard (flt : FloatInfo) : Prop where
  mantbits_le : flt.mantbits ≤ 52
  bias_ge : -1023 ≤ flt.bias
  exp_le : 2 ^ flt.expbits + flt.bias ≤ 1025
  expbits_ge : 2 ≤ flt.expbits

/-- A number with at most `k` digits. -/
theorem digits_length_le {n k : Nat} (h : n < 10 ^ k) : (Nat.digits 10 n).length ≤ k :=
  (Nat.digits_length_le_iff (by decide) n).mpr h

/-- The place before the point is fine enough for a float that is a multiple of four. -/
theorem fine_zero (h : 2 ≤ exp - flt.mantbits) : flt.Fine exp 0 := by
  have hzero : (-(exp - flt.mantbits - 2)).toNat = 0 := by omega
  rw [Fine, unit, quarters, hzero]
  have := Nat.one_le_two_pow (n := (exp - flt.mantbits - 2).toNat)
  simpa using this

theorem two_pow_le {n k : Nat} (h : n ≤ 3 * k) : 2 ^ n ≤ 10 ^ k :=
  calc 2 ^ n ≤ 2 ^ (3 * k) := Nat.pow_le_pow_right (by decide) h
    _ = 8 ^ k := Nat.pow_mul 2 3 k
    _ ≤ 10 ^ k := Nat.pow_le_pow_left (by decide) k

/-- Three times as many binary places as the float has after the point are fine enough. -/
theorem fine_after {k : Nat} (hhi : exp - flt.mantbits < 2)
    (hk : 2 - (exp - flt.mantbits) ≤ 3 * k) : flt.Fine exp k := by
  have hzero : (exp - flt.mantbits - 2).toNat = 0 := by omega
  have hk' : (-(k : Int)).toNat = 0 := by omega
  rw [Fine, unit, quarters, hzero, hk', Int.toNat_natCast, Nat.pow_zero, Nat.pow_zero, Nat.mul_one,
    Nat.one_mul]
  exact two_pow_le (by omega)

theorem shortest_fine (hflt : flt.Standard) (hrep : flt.Representable mant exp) :
    ∃ j < 400, flt.Fine exp
      (-((Nat.digits 10 ((ratio mant (exp - flt.mantbits)).1 /
        (ratio mant (exp - flt.mantbits)).2)).length : Int) + (j : Nat)) := by
  obtain ⟨hmant, hbias, hexp, -⟩ := hflt
  have hge := hrep.exp_ge
  have hlt := hrep.exp_lt
  -- a bound on the whole part of the float, and so on its digits
  have hquot : (ratio mant (exp - flt.mantbits)).1 / (ratio mant (exp - flt.mantbits)).2 <
      2 ^ (flt.mantbits + 1 + (exp - flt.mantbits).toNat) := by
    refine Nat.lt_of_le_of_lt (Nat.div_le_self _ _) ?_
    rw [Nat.pow_add]
    exact Nat.mul_lt_mul_of_pos_right hrep.mant_lt (Nat.two_pow_pos _)
  generalize (ratio mant (exp - flt.mantbits)).1 / (ratio mant (exp - flt.mantbits)).2 = n at hquot ⊢
  rcases Int.lt_or_le (exp - flt.mantbits) 2 with hsmall | hbig
  · have hlen : (Nat.digits 10 n).length ≤ 18 :=
      digits_length_le (hquot.trans_le (two_pow_le (by omega)))
    refine ⟨359 + (Nat.digits 10 n).length, by omega, ?_⟩
    rw [Nat.cast_add, neg_add_eq_sub, add_sub_cancel_right]
    exact fine_after hsmall (by omega)
  · have hlen : (Nat.digits 10 n).length ≤ 342 :=
      digits_length_le (hquot.trans_le (two_pow_le (by omega)))
    refine ⟨(Nat.digits 10 n).length, by omega, ?_⟩
    rw [neg_add_cancel]
    exact fine_zero hbig

theorem shortest_inside (hflt : flt.Standard) (hrep : flt.Representable mant exp)
    (hpos : 0 < mant) :
    flt.Inside mant exp ((flt.shortest mant exp).1 * 10 ^ (flt.shortest mant exp).2) :=
  shortestFrom_inside hpos (shortest_fine hflt hrep)

/-! ## Nothing rounds to two floats -/

/-- Of two floats with one exponent, the intervals have at most an end in common, and it does not
belong to both. -/
theorem Inside.not_lt {m m' : Nat} {x : ℚ} (h : flt.Inside m exp x) (h' : flt.Inside m' exp x) :
    ¬m < m' := by
  intro hlt
  have hlow := h'.lower
  have hup := h.upper
  have heven := h.upper_even
  have heven' := h'.lower_even
  have hu : (0 : ℚ) < 2 ^ (exp - flt.mantbits - 2) := by positivity
  generalize (2 : ℚ) ^ (exp - flt.mantbits - 2) = u at *
  have hle : ((flt.below m' exp : Nat) : ℚ) ≤ (4 * m + 2 : Nat) :=
    le_of_mul_le_mul_right (hlow.trans hup) hu
  have hge : 4 * m' - 2 ≤ flt.below m' exp := by
    unfold below
    split <;> omega
  have heq : flt.below m' exp = 4 * m + 2 := by
    have := Nat.cast_le.mp hle
    omega
  rw [heq] at hlow heven'
  have hm := heven (le_antisymm hup hlow)
  have hm' := heven' (le_antisymm hlow hup)
  omega

/-- Of two floats, the one with the smaller exponent has the lower interval, and an end that both
have belongs to the other one. -/
theorem Inside.not_exp_lt {m m' : Nat} {e e' : Int} {x : ℚ} (h : flt.Inside m e x)
    (h' : flt.Inside m' e' x) (hrep : flt.Representable m e) (hrep' : flt.Representable m' e') :
    ¬e < e' := by
  intro hlt
  have hlow := h'.lower
  have hup := h.upper
  have heven := h.upper_even
  have hu : (0 : ℚ) < 2 ^ (e - flt.mantbits - 2) := by positivity
  have hscale : 2 ^ (e - flt.mantbits - 2) * 2 ≤ (2 : ℚ) ^ (e' - flt.mantbits - 2) := by
    rw [← zpow_add_one₀ (by norm_num)]
    exact zpow_le_zpow_right₀ (by norm_num) (by omega)
  generalize (2 : ℚ) ^ (e - flt.mantbits - 2) = u at *
  generalize (2 : ℚ) ^ (e' - flt.mantbits - 2) = u' at *
  -- the larger exponent is that of a normal float
  have hge := hrep.exp_ge
  have hnormal : 2 ^ flt.mantbits ≤ m' := hrep'.normal.resolve_right (by omega)
  have hlt' : m < 2 ^ flt.mantbits * 2 := hrep.mant_lt
  have hbelow : 4 * 2 ^ flt.mantbits - 1 ≤ flt.below m' e' := by
    unfold below
    split <;> omega
  generalize hM : 2 ^ flt.mantbits = M at *
  have hM1 : 1 ≤ M := hM ▸ Nat.one_le_two_pow
  have hchain : ((8 * M - 2 : Nat) : ℚ) * u ≤ x :=
    calc ((8 * M - 2 : Nat) : ℚ) * u = (4 * M - 1 : Nat) * (u * 2) := by
          rw [show 8 * M - 2 = (4 * M - 1) * 2 by omega]
          push_cast
          ring
      _ ≤ flt.below m' e' * u' := by
          gcongr
      _ ≤ x := hlow
  have hle : ((8 * M - 2 : Nat) : ℚ) ≤ (4 * m + 2 : Nat) :=
    le_of_mul_le_mul_right (hchain.trans hup) hu
  have hm : 4 * m + 2 = 8 * M - 2 := by
    have := Nat.cast_le.mp hle
    omega
  rw [hm] at hup heven
  have := heven (le_antisymm hup hchain)
  omega

theorem Inside.unique {m m' : Nat} {e e' : Int} {x : ℚ} (h : flt.Inside m e x)
    (h' : flt.Inside m' e' x) (hrep : flt.Representable m e) (hrep' : flt.Representable m' e') :
    m = m' ∧ e = e' := by
  have hexp : e = e' := by
    have := h.not_exp_lt h' hrep hrep'
    have := h'.not_exp_lt h hrep' hrep
    omega
  subst hexp
  have := h.not_lt h'
  have := h'.not_lt h
  omega

end

end FloatInfo

/-! ## Decimal texts -/

theorem digitByte_injective {d d' : Nat} (hd : d < 10) (hd' : d' < 10)
    (h : digitByte d = digitByte d') : d = d' := by
  have hnat := congrArg UInt8.toNat h
  rw [digitByte_toNat hd, digitByte_toNat hd'] at hnat
  omega

/-- The digits of a numeral can be read off its bytes. -/
theorem digits_bytes (n : Nat) :
    ((Nat.digits 10 n).reverse.map digitByte).map (fun b => b.toNat - 0x30) =
      (Nat.digits 10 n).reverse := by
  rw [List.map_map]
  conv_rhs => rw [← List.map_id (Nat.digits 10 n).reverse]
  refine List.map_congr_left fun d hd => ?_
  have hlt : d < 10 := Nat.digits_lt_base (by decide) (List.mem_reverse.mp hd)
  rw [Function.comp_apply, digitByte_toNat hlt, Nat.add_sub_cancel_left, id]

theorem natDecimal_injective {n n' : Nat} (h : natDecimal n = natDecimal n') : n = n' := by
  by_cases hn : n = 0
  · by_cases hn' : n' = 0
    · rw [hn, hn']
    · rw [hn, natDecimal_zero] at h
      exact absurd (congrArg List.head? h).symm (natDecimal_head hn')
  · by_cases hn' : n' = 0
    · rw [hn', natDecimal_zero] at h
      exact absurd (congrArg List.head? h) (natDecimal_head hn)
    · rw [natDecimal, natDecimal, if_neg hn, if_neg hn'] at h
      have hdigits := congrArg (List.map fun b => b.toNat - 0x30) h
      rw [digits_bytes, digits_bytes] at hdigits
      exact Nat.digits.injective 10 (List.reverse_injective hdigits)

theorem padDecimal_injective {w n n' : Nat} (hn : n < 10 ^ w) (hn' : n' < 10 ^ w)
    (h : padDecimal w n = padDecimal w n') : n = n' := by
  induction w generalizing n n' with
  | zero => omega
  | succ w ih =>
    rw [Nat.pow_succ] at hn hn'
    obtain ⟨hhigh, hlow⟩ := List.append_inj' h rfl
    have hdiv := ih (by omega) (by omega) hhigh
    have hmod := digitByte_injective (Nat.mod_lt n (by decide)) (Nat.mod_lt n' (by decide))
      (List.cons.inj hlow).1
    omega

theorem point_notMem_natDecimal (n : Nat) : 0x2E ∉ natDecimal n := fun h =>
  absurd (natDecimal_isDigit n 0x2E h) (by decide)

theorem point_notMem_padDecimal (w n : Nat) : 0x2E ∉ padDecimal w n := fun h =>
  absurd (padDecimal_isDigit w n 0x2E h) (by decide)

/-- The value of `q * 10 ^ k` can be read from its text. -/
theorem fmtF_injective {q q' : Nat} {k k' : Int} (h : fmtF q k = fmtF q' k') :
    (q : ℚ) * 10 ^ k = q' * 10 ^ k' := by
  have hwhole : ∀ {q : Nat} {k : Int}, 0 ≤ k → (q : ℚ) * 10 ^ k = (q * 10 ^ k.toNat : Nat) := by
    intro q k hk
    obtain ⟨n, rfl⟩ := Int.eq_ofNat_of_zero_le hk
    simp
  unfold fmtF at h
  split at h
  · next hk =>
    split at h
    · next hk' => rw [hwhole hk, hwhole hk', natDecimal_injective h]
    · have hmem : 0x2E ∈ natDecimal (q * 10 ^ k.toNat) := by
        rw [h]
        exact List.mem_append_right _ List.mem_cons_self
      exact absurd hmem (point_notMem_natDecimal _)
  · next hk =>
    split at h
    · have hmem : 0x2E ∈ natDecimal (q' * 10 ^ k'.toNat) := by
        rw [← h]
        exact List.mem_append_right _ List.mem_cons_self
      exact absurd hmem (point_notMem_natDecimal _)
    · next hk' =>
      -- the texts agree before the point and after it
      obtain ⟨hwhole, -, hfrac⟩ := (List.append_cons_inj_of_notMem (point_notMem_natDecimal _)
        (point_notMem_padDecimal _ _)).mp h
      have hplaces := congrArg List.length hfrac
      rw [padDecimal_length, padDecimal_length] at hplaces
      obtain rfl : k = k' := by omega
      have hpos : 0 < 10 ^ (-k).toNat := Nat.pow_pos (by decide)
      have hmod := padDecimal_injective (Nat.mod_lt q hpos) (Nat.mod_lt q' hpos) hfrac
      have hdiv := natDecimal_injective hwhole
      rw [← Nat.div_add_mod q (10 ^ (-k).toNat), hdiv, hmod, Nat.div_add_mod]

namespace FloatInfo

variable {flt : FloatInfo}

/-- The text of a finite float without its sign. -/
def magnitude (flt : FloatInfo) (mant : Nat) (exp : Int) : Bytes :=
  if mant = 0 then [0x30] else fmtF (flt.shortest mant exp).1 (flt.shortest mant exp).2

theorem format_finite (neg : Bool) (mant : Nat) (exp : Int) :
    flt.format (.finite neg mant exp) =
      (if neg then [0x2D] else []) ++ flt.magnitude mant exp := by
  rw [format, magnitude]
  split <;> rfl

/-- The bytes of a decimal text: digits and the point. -/
def isNumeral (b : UInt8) : Bool := isDigit b || b == 0x2E

theorem magnitude_isNumeral (mant : Nat) (exp : Int) :
    ∀ b ∈ flt.magnitude mant exp, isNumeral b = true := by
  have hnat : ∀ n, ∀ b ∈ natDecimal n, isNumeral b = true := fun n b hb => by
    rw [isNumeral, natDecimal_isDigit n b hb, Bool.true_or]
  unfold magnitude
  split
  · decide
  · unfold fmtF
    split
    · exact hnat _
    · intro b hb
      rcases List.mem_append.mp hb with hb | hb
      · exact hnat _ b hb
      · rcases List.mem_cons.mp hb with rfl | hb
        · decide
        · rw [isNumeral, padDecimal_isDigit _ _ b hb, Bool.true_or]

/-- A decimal text starts with a digit. -/
theorem magnitude_head (mant : Nat) (exp : Int) :
    ∃ d rest, flt.magnitude mant exp = d :: rest ∧ isDigit d = true := by
  have hnat : ∀ n, ∃ d rest, natDecimal n = d :: rest ∧ isDigit d = true := by
    intro n
    obtain ⟨d, rest, hcons⟩ := List.exists_cons_of_ne_nil (natDecimal_ne_nil n)
    exact ⟨d, rest, hcons, natDecimal_isDigit n d (hcons ▸ List.mem_cons_self)⟩
  unfold magnitude
  split
  · exact ⟨0x30, [], rfl, by decide⟩
  · unfold fmtF
    split
    · exact hnat _
    · obtain ⟨d, rest, hcons, hd⟩ := hnat
        ((flt.shortest mant exp).1 / 10 ^ (-(flt.shortest mant exp).2).toNat)
      exact ⟨d, _, congrArg (· ++ _) hcons, hd⟩

/-- The significand and the exponent can be read from a decimal text. -/
theorem magnitude_injective (hflt : flt.Standard) {m m' : Nat} {e e' : Int}
    (hrep : flt.Representable m e) (hrep' : flt.Representable m' e')
    (h : flt.magnitude m e = flt.magnitude m' e') : m = m' ∧ e = e' := by
  -- a float that is not zero is written as a number that is not zero
  have hpositive : ∀ {m : Nat} {e : Int}, flt.Representable m e → 0 < m →
      [0x30] ≠ fmtF (flt.shortest m e).1 (flt.shortest m e).2 := by
    intro m e hrep hpos hzero
    have hvalue : fmtF 0 0 = fmtF (flt.shortest m e).1 (flt.shortest m e).2 := hzero
    have hlow := (shortest_inside hflt hrep hpos).lower
    rw [← fmtF_injective hvalue] at hlow
    have hbelow : 0 < flt.below m e := by
      unfold below
      split <;> omega
    have : (0 : ℚ) < flt.below m e * 2 ^ (e - flt.mantbits - 2) := by positivity
    norm_num at hlow
    linarith
  have hexp : ∀ {e : Int}, flt.Representable 0 e → e = flt.bias + 1 := fun hrep =>
    hrep.normal.resolve_left (Nat.not_le.mpr (Nat.two_pow_pos _))
  rcases Nat.eq_zero_or_pos m with rfl | hpos
  · rcases Nat.eq_zero_or_pos m' with rfl | hpos'
    · exact ⟨rfl, (hexp hrep).trans (hexp hrep').symm⟩
    · rw [magnitude, magnitude, if_pos rfl, if_neg hpos'.ne'] at h
      exact absurd h (hpositive hrep' hpos')
  · rcases Nat.eq_zero_or_pos m' with rfl | hpos'
    · rw [magnitude, magnitude, if_pos rfl, if_neg hpos.ne'] at h
      exact absurd h.symm (hpositive hrep hpos)
    · rw [magnitude, magnitude, if_neg hpos.ne', if_neg hpos'.ne'] at h
      have hinside := shortest_inside hflt hrep hpos
      rw [fmtF_injective h] at hinside
      exact hinside.unique (shortest_inside hflt hrep' hpos') hrep hrep'

/-- A decoded float of the format. -/
def Has (flt : FloatInfo) : FloatValue → Prop
  | .finite _ mant exp => flt.Representable mant exp
  | _ => True

theorem has_decode (h : 2 ≤ flt.expbits) (bits : Nat) : flt.Has (flt.decode bits) := by
  cases hv : flt.decode bits with
  | nan => trivial
  | inf neg => trivial
  | finite neg mant exp => exact representable_decode h hv

/-- How many bytes at the front are the text of a float. -/
def munch : Bytes → Nat
  | [] => 0
  | c :: rest =>
    if c = 0x4E then 3
    else if c = 0x2B then 4
    else if c = 0x2D then
      if rest.head? = some 0x49 then 4 else 1 + (rest.takeWhile isNumeral).length
    else ((c :: rest).takeWhile isNumeral).length

/-- The text goes on with something that does not belong to a numeral. -/
def Stops (t : Bytes) : Prop := ∀ b rest, t = b :: rest → isNumeral b = false

theorem takeWhile_magnitude {t : Bytes} (ht : Stops t) (mant : Nat) (exp : Int) :
    (flt.magnitude mant exp ++ t).takeWhile isNumeral = flt.magnitude mant exp := by
  rw [List.takeWhile_append_of_pos (magnitude_isNumeral mant exp)]
  cases t with
  | nil => rw [List.takeWhile_nil, List.append_nil]
  | cons b rest =>
    rw [List.takeWhile_cons_of_neg (by rw [ht b rest rfl]; decide), List.append_nil]

theorem munch_format {t : Bytes} (ht : Stops t) (v : FloatValue) :
    munch (flt.format v ++ t) = (flt.format v).length := by
  cases v with
  | nan => rfl
  | inf neg => cases neg <;> rfl
  | finite neg mant exp =>
    have htake : (flt.magnitude mant exp ++ t).takeWhile isNumeral = flt.magnitude mant exp :=
      takeWhile_magnitude ht mant exp
    obtain ⟨d, rest, hmag, hd⟩ := flt.magnitude_head mant exp
    have hne : ∀ c, isDigit c = false → d ≠ c := by
      rintro c hc rfl
      rw [hd] at hc
      cases hc
    rw [hmag] at htake
    rw [format_finite, hmag]
    cases neg with
    | true =>
      have hI : (d :: rest ++ t).head? ≠ some 0x49 := fun h =>
        hne 0x49 (by decide) (Option.some.inj h)
      show (if (d :: rest ++ t).head? = some 0x49 then 4
        else 1 + ((d :: rest ++ t).takeWhile isNumeral).length) = _
      rw [if_neg hI, htake, Nat.add_comm]
      rfl
    | false =>
      show munch (d :: (rest ++ t)) = (d :: rest).length
      rw [munch, if_neg (hne 0x4E (by decide)), if_neg (hne 0x2B (by decide)),
        if_neg (hne 0x2D (by decide)), ← List.cons_append, htake]

/-- The text of a float at the front of a text is cut off in one way. -/
theorem format_append_inj {t t' : Bytes} (ht : Stops t) (ht' : Stops t') {v v' : FloatValue}
    (h : flt.format v ++ t = flt.format v' ++ t') : flt.format v = flt.format v' ∧ t = t' := by
  have hlen := congrArg munch h
  rw [munch_format ht, munch_format ht'] at hlen
  exact List.append_inj h hlen

/-- The text of a finite float is no word. -/
theorem format_finite_ne {s : Bytes} (hs : s = utf8 "NaN" ∨ s = utf8 "+Inf" ∨ s = utf8 "-Inf")
    (neg : Bool) (mant : Nat) (exp : Int) : flt.format (.finite neg mant exp) ≠ s := by
  obtain ⟨d, rest, hmag, hd⟩ := flt.magnitude_head mant exp
  rw [format_finite, hmag]
  rintro rfl
  cases neg
  all_goals
    rcases hs with h | h | h
    all_goals
      cases h
      try cases hd

/-- The sign of a finite float and the text without it can be read from its text. -/
theorem format_finite_inj {neg neg' : Bool} {m m' : Nat} {e e' : Int}
    (h : flt.format (.finite neg m e) = flt.format (.finite neg' m' e')) :
    neg = neg' ∧ flt.magnitude m e = flt.magnitude m' e' := by
  have hsign : ∀ (m : Nat) (e : Int) (s : Bytes), flt.magnitude m e ≠ 0x2D :: s := by
    intro m e s hmag
    obtain ⟨d, rest, hcons, hd⟩ := flt.magnitude_head m e
    rw [hmag] at hcons
    obtain ⟨rfl, -⟩ := List.cons.inj hcons
    cases hd
  rw [format_finite, format_finite] at h
  cases neg <;> cases neg'
  · exact ⟨rfl, h⟩
  · exact absurd h (hsign m e _)
  · exact absurd h.symm (hsign m' e' _)
  · exact ⟨rfl, (List.cons.inj h).2⟩

/-- A float is known by its text, except that one NaN is written as another. -/
theorem format_injective (hflt : flt.Standard) {v v' : FloatValue} (hv : flt.Has v)
    (hv' : flt.Has v') (h : flt.format v = flt.format v') : v = v' := by
  cases v with
  | nan =>
    cases v' with
    | nan => rfl
    | inf neg => cases neg <;> cases h
    | finite neg mant exp => exact absurd h.symm (format_finite_ne (.inl rfl) neg mant exp)
  | inf neg =>
    cases v' with
    | nan => cases neg <;> cases h
    | inf neg' => cases neg <;> cases neg' <;> first | rfl | cases h
    | finite neg' mant exp =>
      refine absurd h.symm (format_finite_ne (.inr ?_) neg' mant exp)
      cases neg
      · exact .inl rfl
      · exact .inr rfl
  | finite neg mant exp =>
    cases v' with
    | nan => exact absurd h (format_finite_ne (.inl rfl) neg mant exp)
    | inf neg' =>
      refine absurd h (format_finite_ne (.inr ?_) neg mant exp)
      cases neg'
      · exact .inl rfl
      · exact .inr rfl
    | finite neg' mant' exp' =>
      obtain ⟨rfl, hmag⟩ := format_finite_inj h
      obtain ⟨rfl, rfl⟩ := magnitude_injective hflt hv hv' hmag
      rfl

end FloatInfo

theorem standard_float32info : float32info.Standard := ⟨by decide, by decide, by decide, by decide⟩

theorem standard_float64info : float64info.Standard := ⟨by decide, by decide, by decide, by decide⟩

end Zap.Data
