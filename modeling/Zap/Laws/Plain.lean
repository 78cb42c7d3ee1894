import Zap.Data.IeeeLaws
import Zap.Data.JsonBuild
import Zap.Zapcore.Encoder

/-!
# Texts that need no escaping

Numbers, base64 and formatted times go into the buffer as they are. The laws here say that this
is safe: each of their bytes may stand for itself in a JSON string. For a time that depends on
the layout, so `plainLayout` says which layouts are safe; the three the package supplies are.
A layout with a zone abbreviation is not, since a location may be called anything.
-/

set_option autoImplicit false

namespace Zap.Data

/-- Every byte may stand for itself in a JSON string. -/
def Plain (t : Bytes) : Prop := ∀ b ∈ t, Json.isPlain b = true

instance (t : Bytes) : Decidable (Plain t) := inferInstanceAs (Decidable (∀ b ∈ t, _))

@[simp] theorem plain_nil : Plain [] := fun _ hb => absurd hb List.not_mem_nil

@[simp] theorem plain_cons (b : UInt8) (t : Bytes) :
    Plain (b :: t) ↔ Json.isPlain b = true ∧ Plain t := List.forall_mem_cons

@[simp] theorem plain_append (s t : Bytes) : Plain (s ++ t) ↔ Plain s ∧ Plain t :=
  List.forall_mem_append

theorem Plain.mono {s t : Bytes} (h : Plain t) (hs : ∀ b ∈ s, b ∈ t) : Plain s :=
  fun b hb => h b (hs b hb)

theorem Plain.take {t : Bytes} (h : Plain t) (n : Nat) : Plain (t.take n) :=
  h.mono fun _ hb => List.mem_of_mem_take hb

theorem isPlain_ge {b : UInt8} (h : Json.isPlain b = true) : 0x20 ≤ b := by
  simp only [Json.isPlain, Bool.and_eq_true, decide_eq_true_eq] at h
  exact h.1.1.1

theorem isPlain_lt {b : UInt8} (h : Json.isPlain b = true) : b < 0x80 := by
  simp only [Json.isPlain, Bool.and_eq_true, decide_eq_true_eq] at h
  exact h.1.1.2

/-- A plain text between quotes is the string it spells. -/
theorem Plain.chars {t : Bytes} (h : Plain t) : ∃ us, Json.Chars t us ∧ Json.assemble us = t := by
  induction t with
  | nil => exact ⟨[], .nil, rfl⟩
  | cons b t ih =>
    obtain ⟨hb, ht⟩ := (plain_cons b t).mp h
    obtain ⟨us, hus, hsame⟩ := ih ht
    exact ⟨_, .plain hb hus, congrArg (b :: ·) hsame⟩

theorem Plain.sanitize {t : Bytes} (h : Plain t) : sanitize t = t := by
  induction t with
  | nil => rfl
  | cons b t ih =>
    obtain ⟨hb, ht⟩ := (plain_cons b t).mp h
    rw [sanitize_ascii (isPlain_lt hb), ih ht]

/-! ## Numbers and base64 -/

theorem isPlain_digit {b : UInt8} (h : isDigit b = true) : Json.isPlain b = true := by
  rw [isDigit_iff] at h
  simp only [Json.isPlain, Bool.and_eq_true, decide_eq_true_eq, bne_iff_ne, ne_eq,
    UInt8.le_iff_toNat_le, UInt8.lt_iff_toNat_lt, ← UInt8.toNat_inj]
  refine ⟨⟨⟨?_, ?_⟩, ?_⟩, ?_⟩
  · exact Nat.le_trans (by decide) h.1
  · exact Nat.lt_of_le_of_lt h.2 (by decide)
  · exact Nat.ne_of_gt (Nat.lt_of_lt_of_le (by decide) h.1)
  · exact Nat.ne_of_lt (Nat.lt_of_le_of_lt h.2 (by decide))

theorem plain_natDecimal (n : Nat) : Plain (natDecimal n) :=
  fun b hb => isPlain_digit (natDecimal_isDigit n b hb)

theorem plain_padDecimal (w n : Nat) : Plain (padDecimal w n) :=
  fun b hb => isPlain_digit (padDecimal_isDigit w n b hb)

theorem plain_intDecimal (i : Int) : Plain (intDecimal i) := by
  unfold intDecimal
  split
  · exact (plain_cons _ _).mpr ⟨rfl, plain_natDecimal _⟩
  · exact plain_natDecimal _

theorem plain_fmtF (q : Nat) (k : Int) : Plain (fmtF q k) := by
  unfold fmtF
  split
  · exact plain_natDecimal _
  · simp only [plain_append, plain_cons]
    exact ⟨plain_natDecimal _, rfl, plain_padDecimal _ _⟩

theorem plain_format (flt : FloatInfo) (v : FloatValue) : Plain (flt.format v) := by
  cases v with
  | nan => exact (by decide : Plain (utf8 "NaN"))
  | inf neg =>
    cases neg
    · exact (by decide : Plain (utf8 "+Inf"))
    · exact (by decide : Plain (utf8 "-Inf"))
  | finite neg mant exp =>
    have hsign : Plain (if neg then [0x2D] else []) := by cases neg <;> decide
    simp only [FloatInfo.format]
    split
    · exact (plain_append _ _).mpr ⟨hsign, by decide⟩
    · exact (plain_append _ _).mpr ⟨hsign, plain_fmtF _ _⟩

theorem plain_appendFloat (f : Binary64) (narrow : Bool) : Plain (appendFloat f narrow) := by
  unfold appendFloat
  split
  · exact plain_format _ _
  · exact plain_format _ _

theorem isPlain_base64Char (n : Nat) : Json.isPlain (base64Char n) = true := by
  have halphabet : Plain (utf8
      "ABCDEFGHIJKLMNOPQRSTUVWXYZabcdefghijklmnopqrstuvwxyz0123456789+/") := by decide
  rw [base64Char, List.getD_eq_getElem?_getD]
  cases hc : (utf8 "ABCDEFGHIJKLMNOPQRSTUVWXYZabcdefghijklmnopqrstuvwxyz0123456789+/")[n % 64]? with
  | none => rfl
  | some c => exact halphabet c (List.mem_of_getElem? hc)

theorem plain_base64 (bs : Bytes) : Plain (base64 bs) := by
  have hpad : Json.isPlain 0x3D = true := rfl
  fun_induction base64 bs with
  | case1 a b c rest n ih => simp only [plain_cons, isPlain_base64Char, ih, and_self]
  | case2 a b n => simp only [plain_cons, isPlain_base64Char, hpad, plain_nil, and_self]
  | case3 a n => simp only [plain_cons, isPlain_base64Char, hpad, plain_nil, and_self]
  | case4 => exact plain_nil

end Zap.Data

namespace Zap.Time

open Data

/-! ## Times -/

/-- Is the element's text plain in every location? -/
def plainStd : Std → Bool
  | .tz => false
  | .fracSecond0 separator _ => Json.isPlain separator
  | .fracSecond9 separator _ => Json.isPlain separator
  | _ => true

/-- Is a time in this layout plain, whatever the time? -/
def plainLayout (layout : Layout) : Bool :=
  layout.all fun c =>
    match c with
    | .literal text => decide (Plain text)
    | .std s => plainStd s

theorem plain_appendInt (x : Int) (width : Nat) : Plain (appendInt x width) := by
  simp only [appendInt, plain_append]
  refine ⟨by split <;> decide, ?_, plain_natDecimal _⟩
  intro b hb
  rw [(List.mem_replicate.mp hb).2]
  rfl

theorem plain_getD {names : List Bytes} (h : ∀ s ∈ names, Plain s) (i : Nat) :
    Plain (names.getD i []) := by
  rw [List.getD_eq_getElem?_getD]
  cases hi : names[i]? with
  | none => exact plain_nil
  | some s => exact h s (List.mem_of_getElem? hi)

theorem plain_trimZeros {ds : Bytes} (h : Plain ds) : Plain (trimZeros ds) :=
  h.mono fun _ hb =>
    List.mem_reverse.mp ((List.dropWhile_suffix _).subset (List.mem_reverse.mp hb))

theorem plain_appendNano (nsec : Nat) (trim : Bool) {separator : UInt8} (digits : Nat)
    (h : Json.isPlain separator = true) : Plain (appendNano nsec trim separator digits) := by
  have hds : Plain ((padDecimal 9 nsec).take digits) := (plain_padDecimal 9 nsec).take digits
  simp only [appendNano]
  split
  · exact plain_nil
  · split
    · split
      · exact plain_nil
      · exact (plain_cons _ _).mpr ⟨h, plain_trimZeros hds⟩
    · exact (plain_cons _ _).mpr ⟨h, hds⟩

theorem plain_appendZone (iso8601 : Bool) (form : ZoneForm) (offset : Int) :
    Plain (appendZone iso8601 form offset) := by
  unfold appendZone
  split
  · decide
  · refine (plain_cons _ _).mpr ⟨by split <;> rfl, ?_⟩
    have hcolon : Json.isPlain 0x3A = true := rfl
    cases form <;> simp only [zoneDigits, plain_append, plain_cons, plain_appendInt, hcolon, and_self]

theorem plain_appendStd (t : Time) {s : Std} (h : plainStd s = true) : Plain (t.appendStd s) := by
  have hmonths : ∀ m ∈ monthNames, Plain m := by decide
  have hdays : ∀ d ∈ dayNames, Plain d := by decide
  cases s with
  | tz => cases h
  | longMonth => exact plain_getD hmonths _
  | month => exact (plain_getD hmonths _).take 3
  | longWeekDay => exact plain_getD hdays _
  | weekDay => exact (plain_getD hdays _).take 3
  | underDay =>
    exact (plain_append _ _).mpr ⟨by split <;> decide, plain_appendInt _ _⟩
  | underYearDay =>
    refine (plain_append _ _).mpr ⟨?_, plain_appendInt _ _⟩
    split
    · split <;> decide
    · decide
  | PM => simp only [appendStd]; split <;> decide
  | pm => simp only [appendStd]; split <;> decide
  | zone iso8601 form => exact plain_appendZone _ _ _
  | fracSecond0 separator digits => exact plain_appendNano _ _ _ h
  | fracSecond9 separator digits => exact plain_appendNano _ _ _ h
  | _ => exact plain_appendInt _ _

theorem plain_appendFormat (t : Time) {layout : Layout} (h : plainLayout layout = true) :
    Plain (t.appendFormat layout) := by
  induction layout with
  | nil => exact plain_nil
  | cons c rest ih =>
    simp only [plainLayout, List.all_cons, Bool.and_eq_true] at h
    cases c with
    | literal text => exact (plain_append _ _).mpr ⟨of_decide_eq_true h.1, ih h.2⟩
    | std s => exact (plain_append _ _).mpr ⟨t.plain_appendStd h.1, ih h.2⟩

end Zap.Time
