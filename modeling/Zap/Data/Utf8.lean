import Zap.Data.Bytes

/-!
# UTF-8 decoding

`decodeRune` is the decoder of Go's `unicode/utf8` package (`DecodeRune` and
`DecodeRuneInString` read the same bytes the same way): it answers the rune at the front of a
byte string and its width, and `(RuneError, 1)` for a byte that starts no well-formed sequence.
`sanitize` is what a consumer of lenient text is promised: every byte the decoder rejects is
replaced by U+FFFD and everything else is kept.

The laws say that a decoded rune is local: its width is determined by the bytes it covers, so
the decoder answers the same on any text that starts with them.
-/

set_option autoImplicit false

namespace Zap.Data

/-- `utf8.RuneError`, the replacement character. -/
def runeError : Nat := 0xFFFD

/-- What the first byte of a sequence announces: `utf8.first` with its `acceptRanges` row. -/
inductive First where
  | ascii
  | invalid
  | lead (size : Nat) (lo hi : UInt8)

/-- The table `utf8.first`. -/
def first (b : UInt8) : First :=
  if b < 0x80 then .ascii
  else if b < 0xC2 then .invalid
  else if b < 0xE0 then .lead 2 0x80 0xBF
  else if b = 0xE0 then .lead 3 0xA0 0xBF
  else if b < 0xED then .lead 3 0x80 0xBF
  else if b = 0xED then .lead 3 0x80 0x9F
  else if b < 0xF0 then .lead 3 0x80 0xBF
  else if b = 0xF0 then .lead 4 0x90 0xBF
  else if b < 0xF4 then .lead 4 0x80 0xBF
  else if b = 0xF4 then .lead 4 0x80 0x8F
  else .invalid

/-- Is `b` in the range `[lo, hi]`? -/
def inRange (lo hi b : UInt8) : Bool := lo ≤ b && b ≤ hi

/-- The six payload bits of a continuation byte. -/
def contBits (b : UInt8) : Nat := b.toNat % 0x40

/-- `utf8.DecodeRune`: the rune at the front and its width in bytes. -/
def decodeRune : Bytes → Nat × Nat
  | [] => (runeError, 0)
  | p0 :: rest =>
    match first p0 with
    | .ascii => (p0.toNat, 1)
    | .invalid => (runeError, 1)
    | .lead size lo hi =>
      match size, rest with
      | 2, b1 :: _ =>
        if inRange lo hi b1 then (p0.toNat % 0x20 * 0x40 + contBits b1, 2) else (runeError, 1)
      | 3, b1 :: b2 :: _ =>
        if inRange lo hi b1 && inRange 0x80 0xBF b2 then
          (p0.toNat % 0x10 * 0x1000 + contBits b1 * 0x40 + contBits b2, 3)
        else (runeError, 1)
      | 4, b1 :: b2 :: b3 :: _ =>
        if inRange lo hi b1 && inRange 0x80 0xBF b2 && inRange 0x80 0xBF b3 then
          (p0.toNat % 0x08 * 0x40000 + contBits b1 * 0x1000 + contBits b2 * 0x40 + contBits b3, 4)
        else (runeError, 1)
      | _, _ => (runeError, 1)

/-- Does the decoder reject the first byte? Go reports this as `(RuneError, 1)`; a genuine
U+FFFD in the input has width three. -/
def rejects (s : Bytes) : Bool := decodeRune s == (runeError, 1)

/-- The UTF-8 form of a code point below `0x10000`, as `utf8.AppendRune` writes it. -/
def encodeRune (r : Nat) : Bytes :=
  if r < 0x80 then [UInt8.ofNat r]
  else if r < 0x800 then [UInt8.ofNat (0xC0 + r / 0x40), UInt8.ofNat (0x80 + r % 0x40)]
  else if r < 0x10000 then
    [UInt8.ofNat (0xE0 + r / 0x1000), UInt8.ofNat (0x80 + r / 0x40 % 0x40),
      UInt8.ofNat (0x80 + r % 0x40)]
  else
    [UInt8.ofNat (0xF0 + r / 0x40000), UInt8.ofNat (0x80 + r / 0x1000 % 0x40),
      UInt8.ofNat (0x80 + r / 0x40 % 0x40), UInt8.ofNat (0x80 + r % 0x40)]

/-- The replacement character's three bytes. -/
def replacement : Bytes := [0xEF, 0xBF, 0xBD]

/-- The scan behind `sanitize`: `skip` bytes still belong to the rune decoded last. -/
def sanitizeFrom : Nat → Bytes → Bytes
  | _, [] => []
  | skip + 1, b :: rest => b :: sanitizeFrom skip rest
  | 0, b :: rest =>
    if rejects (b :: rest) then replacement ++ sanitizeFrom 0 rest
    else b :: sanitizeFrom ((decodeRune (b :: rest)).2 - 1) rest

/-- A byte string with every byte the decoder rejects replaced by U+FFFD. -/
def sanitize (s : Bytes) : Bytes := sanitizeFrom 0 s

/-- The scan behind `validUtf8`. -/
def validFrom : Nat → Bytes → Bool
  | _, [] => true
  | skip + 1, _ :: rest => validFrom skip rest
  | 0, b :: rest => !rejects (b :: rest) && validFrom ((decodeRune (b :: rest)).2 - 1) rest

/-- `utf8.Valid`: the decoder rejects no byte. -/
def validUtf8 (s : Bytes) : Bool := validFrom 0 s

/-- A byte string the decoder accepts as exactly one rune outside ASCII. -/
def MultiRune (c : Bytes) : Prop :=
  (∃ b t, c = b :: t ∧ 0x80 ≤ b) ∧ rejects c = false ∧ (decodeRune c).2 = c.length

/-! ## Laws of the decoder -/

theorem first_ascii {b : UInt8} (h : b < 0x80) : first b = .ascii := by
  rw [first, if_pos h]

theorem decodeRune_ascii {b : UInt8} (h : b < 0x80) (t : Bytes) :
    decodeRune (b :: t) = (b.toNat, 1) := by
  simp only [decodeRune, first_ascii h]

/-- An accepted sequence outside ASCII has width two to four, all of it present, and the
decoder's answer does not depend on what follows it. -/
theorem decodeRune_accept {s : Bytes} (hne : s ≠ []) (h : rejects s = false) :
    1 ≤ (decodeRune s).2 ∧ (decodeRune s).2 ≤ s.length ∧
      ∀ t, decodeRune (s.take (decodeRune s).2 ++ t) = decodeRune s := by
  obtain ⟨p0, rest, rfl⟩ := List.exists_cons_of_ne_nil hne
  have hrej : decodeRune (p0 :: rest) ≠ (runeError, 1) := by
    intro heq
    simp only [rejects, heq, BEq.rfl, Bool.true_eq_false] at h
  clear h
  revert hrej
  -- one case for each accepted shape; every other branch answers `(runeError, 1)`
  rw [decodeRune]
  split
  · next hf =>
    refine fun _ => ⟨Nat.le_refl 1, Nat.succ_pos _, fun t => ?_⟩
    show decodeRune (p0 :: t) = _
    rw [decodeRune, hf]
  · intro hrej; exact absurd rfl hrej
  · next size lo hi hf =>
    split
    · next b1 r1 =>
      split
      · next hr =>
        refine fun _ => ⟨Nat.succ_pos _, Nat.le_add_left 2 _, fun t => ?_⟩
        show decodeRune (p0 :: b1 :: t) = _
        rw [decodeRune, hf]
        exact if_pos hr
      · intro hrej; exact absurd rfl hrej
    · next b1 b2 r2 =>
      split
      · next hr =>
        refine fun _ => ⟨Nat.succ_pos _, Nat.le_add_left 3 _, fun t => ?_⟩
        show decodeRune (p0 :: b1 :: b2 :: t) = _
        rw [decodeRune, hf]
        exact if_pos hr
      · intro hrej; exact absurd rfl hrej
    · next b1 b2 b3 r3 =>
      split
      · next hr =>
        refine fun _ => ⟨Nat.succ_pos _, Nat.le_add_left 4 _, fun t => ?_⟩
        show decodeRune (p0 :: b1 :: b2 :: b3 :: t) = _
        rw [decodeRune, hf]
        exact if_pos hr
      · intro hrej; exact absurd rfl hrej
    · intro hrej; exact absurd rfl hrej

/-- The bytes an accepted sequence covers are a rune of their own. -/
theorem multiRune_take {b : UInt8} {rest : Bytes} (hb : 0x80 ≤ b)
    (h : rejects (b :: rest) = false) :
    MultiRune ((b :: rest).take (decodeRune (b :: rest)).2) := by
  obtain ⟨hpos, hle, hlocal⟩ := decodeRune_accept (List.cons_ne_nil b rest) h
  have hsame := hlocal []
  rw [List.append_nil] at hsame
  refine ⟨?_, ?_, ?_⟩
  · obtain ⟨n, hn⟩ := Nat.exists_eq_succ_of_ne_zero (Nat.one_le_iff_ne_zero.mp hpos)
    rw [hn, List.take_succ_cons]
    exact ⟨b, _, rfl, hb⟩
  · rw [rejects, hsame]; exact h
  · rw [hsame, List.length_take, Nat.min_eq_left hle]

/-- A rune is found at the front of any text that starts with it. -/
theorem MultiRune.decodeRune_append {c : Bytes} (h : MultiRune c) (t : Bytes) :
    decodeRune (c ++ t) = decodeRune c := by
  obtain ⟨⟨b, r, rfl, -⟩, hacc, hlen⟩ := h
  obtain ⟨-, -, hlocal⟩ := decodeRune_accept (List.cons_ne_nil b r) hacc
  have hsame := hlocal t
  rwa [hlen, List.take_length] at hsame

theorem MultiRune.decode {c : Bytes} (h : MultiRune c) (t : Bytes) :
    rejects (c ++ t) = false ∧ (decodeRune (c ++ t)).2 = c.length := by
  rw [rejects, h.decodeRune_append t]
  exact h.2

/-- What `first` says of a lead byte: its range, and the range of the byte after it. -/
def First.fits (b : UInt8) : First → Bool
  | .ascii => decide (b < 0x80)
  | .invalid => true
  | .lead size lo hi =>
    decide (0x80 ≤ lo) && decide (hi ≤ 0xBF) &&
      ((size == 2 && decide (0xC2 ≤ b) && decide (b ≤ 0xDF)) ||
        (size == 3 && decide (0xE0 ≤ b) && decide (b ≤ 0xEF) && (b != 0xE0 || lo == 0xA0)) ||
        (size == 4 && decide (0xF0 ≤ b) && decide (b ≤ 0xF4) && (b != 0xF0 || lo == 0x90) &&
          (b != 0xF4 || hi == 0x8F)))

theorem first_fits (b : UInt8) : (first b).fits b = true := by
  apply forall_byte_lt (p := fun b => (first b).fits b = true) ?_ (UInt8.toNat_lt b)
  decide +kernel

/-- `first_fits` in numbers. -/
theorem lead_fits {b : UInt8} {size : Nat} {lo hi : UInt8} (h : first b = .lead size lo hi) :
    (0x80 ≤ lo.toNat ∧ hi.toNat ≤ 0xBF) ∧
      (((size = 2 ∧ 0xC2 ≤ b.toNat) ∧ b.toNat ≤ 0xDF ∨
          ((size = 3 ∧ 0xE0 ≤ b.toNat) ∧ b.toNat ≤ 0xEF) ∧ (¬b.toNat = 0xE0 ∨ lo.toNat = 0xA0)) ∨
        (((size = 4 ∧ 0xF0 ≤ b.toNat) ∧ b.toNat ≤ 0xF4) ∧ (¬b.toNat = 0xF0 ∨ lo.toNat = 0x90)) ∧
          (¬b.toNat = 0xF4 ∨ hi.toNat = 0x8F)) := by
  have hfit := first_fits b
  rw [h] at hfit
  simpa only [First.fits, Bool.and_eq_true, Bool.or_eq_true, decide_eq_true_eq, beq_iff_eq,
    bne_iff_ne, UInt8.le_iff_toNat_le, UInt8.reduceToNat, ne_eq, ← UInt8.toNat_inj] using hfit

/-- The shapes of a rune outside ASCII, with the code point that each spells. -/
inductive RuneShape : Bytes → Nat → Prop where
  | two {p0 b1 lo hi : UInt8} : first p0 = .lead 2 lo hi → inRange lo hi b1 = true →
      RuneShape [p0, b1] (p0.toNat % 0x20 * 0x40 + contBits b1)
  | three {p0 b1 b2 lo hi : UInt8} : first p0 = .lead 3 lo hi → inRange lo hi b1 = true →
      inRange 0x80 0xBF b2 = true →
      RuneShape [p0, b1, b2] (p0.toNat % 0x10 * 0x1000 + contBits b1 * 0x40 + contBits b2)
  | four {p0 b1 b2 b3 lo hi : UInt8} : first p0 = .lead 4 lo hi → inRange lo hi b1 = true →
      inRange 0x80 0xBF b2 = true → inRange 0x80 0xBF b3 = true →
      RuneShape [p0, b1, b2, b3]
        (p0.toNat % 0x08 * 0x40000 + contBits b1 * 0x1000 + contBits b2 * 0x40 + contBits b3)

theorem MultiRune.shape {c : Bytes} (h : MultiRune c) : RuneShape c (decodeRune c).1 := by
  obtain ⟨⟨p0, rest, rfl, hp0⟩, hacc, hlen⟩ := h
  have hrej : decodeRune (p0 :: rest) ≠ (runeError, 1) := by
    intro heq
    simp only [rejects, heq, BEq.rfl, Bool.true_eq_false] at hacc
  clear hacc
  revert hlen hrej
  rw [decodeRune]
  split
  · next hf =>
    have hfit := first_fits p0
    rw [hf] at hfit
    exact absurd (of_decide_eq_true hfit) (UInt8.not_lt.mpr hp0)
  · intro _ hrej; exact absurd rfl hrej
  · next size lo hi hf =>
    split
    · next b1 r1 =>
      split
      · next hr =>
        intro hlen _
        have hnil : r1 = [] := List.length_eq_zero_iff.mp (Nat.succ.inj (Nat.succ.inj hlen)).symm
        subst hnil
        exact .two hf hr
      · intro _ hrej; exact absurd rfl hrej
    · next b1 b2 r2 =>
      split
      · next hr =>
        intro hlen _
        have hnil : r2 = [] := List.length_eq_zero_iff.mp
          (Nat.succ.inj (Nat.succ.inj (Nat.succ.inj hlen))).symm
        subst hnil
        obtain ⟨h1, h2⟩ := Bool.and_eq_true_iff.mp hr
        exact .three hf h1 h2
      · intro _ hrej; exact absurd rfl hrej
    · next b1 b2 b3 r3 =>
      split
      · next hr =>
        intro hlen _
        have hnil : r3 = [] := List.length_eq_zero_iff.mp
          (Nat.succ.inj (Nat.succ.inj (Nat.succ.inj (Nat.succ.inj hlen)))).symm
        subst hnil
        obtain ⟨h12, h3⟩ := Bool.and_eq_true_iff.mp hr
        obtain ⟨h1, h2⟩ := Bool.and_eq_true_iff.mp h12
        exact .four hf h1 h2 h3
      · intro _ hrej; exact absurd rfl hrej
    · intro _ hrej; exact absurd rfl hrej

theorem inRange_iff {lo hi b : UInt8} :
    inRange lo hi b = true ↔ lo.toNat ≤ b.toNat ∧ b.toNat ≤ hi.toNat := by
  rw [inRange, Bool.and_eq_true, decide_eq_true_eq, decide_eq_true_eq, UInt8.le_iff_toNat_le,
    UInt8.le_iff_toNat_le]

/-- A continuation byte is no ASCII byte. -/
theorem inRange_ge {lo hi b : UInt8} (hlo : 0x80 ≤ lo.toNat) (h : inRange lo hi b = true) :
    0x80 ≤ b :=
  UInt8.le_iff_toNat_le.mpr (Nat.le_trans hlo (inRange_iff.mp h).1)

/-- No byte of a rune outside ASCII is an ASCII byte. -/
theorem MultiRune.ge {c : Bytes} (h : MultiRune c) : ∀ b ∈ c, 0x80 ≤ b := by
  obtain ⟨r, hshape⟩ : ∃ r, RuneShape c r := ⟨_, h.shape⟩
  obtain ⟨⟨p0, rest, rfl, hp0⟩, -, -⟩ := h
  cases hshape with
  | two hf h1 => simpa [hp0] using inRange_ge (lead_fits hf).1.1 h1
  | three hf h1 h2 =>
    simpa [hp0] using ⟨inRange_ge (lead_fits hf).1.1 h1, inRange_ge (by decide) h2⟩
  | four hf h1 h2 h3 =>
    simpa [hp0] using
      ⟨inRange_ge (lead_fits hf).1.1 h1, inRange_ge (by decide) h2, inRange_ge (by decide) h3⟩

theorem ofNat_eq {n : Nat} {b : UInt8} (h : n = b.toNat) : UInt8.ofNat n = b := by
  rw [h, UInt8.ofNat_toNat]

/-- A rune outside ASCII is what its code point encodes to. -/
theorem RuneShape.encode {c : Bytes} {r : Nat} (h : RuneShape c r) :
    0x80 ≤ r ∧ r ≤ 0x10FFFF ∧ encodeRune r = c := by
  cases h with
  | two hf h1 =>
    have hfit := lead_fits hf
    rw [inRange_iff] at h1
    unfold contBits
    refine ⟨by omega, by omega, ?_⟩
    rw [encodeRune, if_neg (by omega), if_pos (by omega), ofNat_eq, ofNat_eq]
    · omega
    · omega
  | three hf h1 h2 =>
    have hfit := lead_fits hf
    rw [inRange_iff] at h1 h2
    simp only [UInt8.reduceToNat] at h2
    unfold contBits
    refine ⟨by omega, by omega, ?_⟩
    rw [encodeRune, if_neg (by omega), if_neg (by omega), if_pos (by omega), ofNat_eq, ofNat_eq,
      ofNat_eq]
    · omega
    · omega
    · omega
  | four hf h1 h2 h3 =>
    have hfit := lead_fits hf
    rw [inRange_iff] at h1 h2 h3
    simp only [UInt8.reduceToNat] at h2 h3
    unfold contBits
    refine ⟨by omega, by omega, ?_⟩
    rw [encodeRune, if_neg (by omega), if_neg (by omega), if_neg (by omega), ofNat_eq, ofNat_eq,
      ofNat_eq, ofNat_eq]
    · omega
    · omega
    · omega
    · omega

/-- Induction along the runes of a text: a text is empty, or starts with an ASCII byte, with a
rune outside ASCII, or with a byte the decoder rejects. -/
theorem runeInduction {P : Bytes → Prop} (nil : P [])
    (ascii : ∀ b t, b < 0x80 → P t → P (b :: t))
    (rune : ∀ c t, MultiRune c → P t → P (c ++ t))
    (reject : ∀ b t, 0x80 ≤ b → rejects (b :: t) = true → P t → P (b :: t)) (s : Bytes) : P s := by
  induction hn : s.length using Nat.strong_induction_on generalizing s with
  | _ n ih =>
    subst hn
    cases s with
    | nil => exact nil
    | cons b t =>
      rcases UInt8.lt_or_le b 0x80 with hb | hb
      · exact ascii b t hb (ih _ (Nat.lt_succ_self _) t rfl)
      · cases hrej : rejects (b :: t) with
        | true => exact reject b t hb hrej (ih _ (Nat.lt_succ_self _) t rfl)
        | false =>
          obtain ⟨hpos, _, _⟩ := decodeRune_accept (List.cons_ne_nil b t) hrej
          have hrest : ((b :: t).drop (decodeRune (b :: t)).2).length < (b :: t).length := by
            rw [List.length_drop]
            exact Nat.sub_lt (Nat.succ_pos _) hpos
          have h := rune _ _ (multiRune_take hb hrej) (ih _ hrest _ rfl)
          rwa [List.take_append_drop] at h

/-! ## Laws of `sanitize` -/

theorem sanitizeFrom_drop (n : Nat) (s : Bytes) :
    sanitizeFrom n s = s.take n ++ sanitizeFrom 0 (s.drop n) := by
  induction n generalizing s with
  | zero => rw [List.take_zero, List.drop_zero, List.nil_append]
  | succ n ih =>
    cases s with
    | nil => simp [sanitizeFrom]
    | cons b rest =>
      rw [sanitizeFrom, ih rest, List.take_succ_cons, List.drop_succ_cons, List.cons_append]

/-- `sanitize`, one decoded rune at a time. -/
theorem sanitize_accept {s : Bytes} (hne : s ≠ []) (h : rejects s = false) :
    sanitize s = s.take (decodeRune s).2 ++ sanitize (s.drop (decodeRune s).2) := by
  obtain ⟨hpos, _, _⟩ := decodeRune_accept hne h
  obtain ⟨b, rest, rfl⟩ := List.exists_cons_of_ne_nil hne
  obtain ⟨n, hn⟩ := Nat.exists_eq_succ_of_ne_zero (Nat.one_le_iff_ne_zero.mp hpos)
  rw [sanitize, sanitizeFrom, h, hn, sanitize]
  simp only [Bool.false_eq_true, ↓reduceIte, Nat.succ_eq_add_one, Nat.add_sub_cancel,
    List.take_succ_cons, List.drop_succ_cons, List.cons_append]
  rw [sanitizeFrom_drop]

theorem MultiRune.ne_nil {c : Bytes} (h : MultiRune c) : c ≠ [] := by
  obtain ⟨⟨b, t, rfl, _⟩, _, _⟩ := h
  exact List.cons_ne_nil b t

theorem MultiRune.sanitize {c : Bytes} (h : MultiRune c) (t : Bytes) :
    sanitize (c ++ t) = c ++ sanitize t := by
  obtain ⟨hacc, hlen⟩ := h.decode t
  rw [sanitize_accept (List.append_ne_nil_of_left_ne_nil h.ne_nil t) hacc, hlen,
    List.take_left, List.drop_left]

theorem sanitize_reject {b : UInt8} {rest : Bytes} (h : rejects (b :: rest) = true) :
    sanitize (b :: rest) = replacement ++ sanitize rest := by
  rw [sanitize, sanitizeFrom, if_pos h, sanitize]

theorem rejects_ascii {b : UInt8} (h : b < 0x80) (t : Bytes) : rejects (b :: t) = false := by
  rw [rejects, decodeRune_ascii h t]
  have hb : b.toNat < 0x80 := UInt8.lt_iff_toNat_lt.mp h
  simp only [beq_eq_false_iff_ne, ne_eq, Prod.mk.injEq, and_true, runeError]
  omega

theorem sanitize_ascii {b : UInt8} (h : b < 0x80) (t : Bytes) :
    sanitize (b :: t) = b :: sanitize t := by
  rw [sanitize_accept (List.cons_ne_nil b t) (rejects_ascii h t), decodeRune_ascii h t]
  rfl

theorem sanitizeFrom_of_valid (n : Nat) {s : Bytes} (h : validFrom n s = true) :
    sanitizeFrom n s = s := by
  induction s generalizing n with
  | nil => simp only [sanitizeFrom]
  | cons b rest ih =>
    cases n with
    | succ n => rw [sanitizeFrom, ih n h]
    | zero =>
      simp only [validFrom, Bool.and_eq_true, Bool.not_eq_true'] at h
      simp only [sanitizeFrom, h.1, Bool.false_eq_true, ↓reduceIte, ih _ h.2]

/-- There is nothing to replace in valid text. -/
theorem sanitize_of_valid {s : Bytes} (h : validUtf8 s = true) : sanitize s = s :=
  sanitizeFrom_of_valid 0 h

/-! ## Laws of `validUtf8` -/

theorem validFrom_drop (n : Nat) (s : Bytes) : validFrom n s = validUtf8 (s.drop n) := by
  induction n generalizing s with
  | zero => rfl
  | succ n ih =>
    cases s with
    | nil => rfl
    | cons b rest => rw [validFrom, ih rest, List.drop_succ_cons]

/-- An accepted rune in front of a valid text. -/
theorem validUtf8_accept {s : Bytes} (hne : s ≠ []) (h : rejects s = false) :
    validUtf8 s = validUtf8 (s.drop (decodeRune s).2) := by
  obtain ⟨hpos, _, _⟩ := decodeRune_accept hne h
  obtain ⟨b, rest, rfl⟩ := List.exists_cons_of_ne_nil hne
  obtain ⟨n, hn⟩ := Nat.exists_eq_succ_of_ne_zero (Nat.one_le_iff_ne_zero.mp hpos)
  rw [validUtf8, validFrom, h, hn, Nat.succ_sub_one, validFrom_drop, List.drop_succ_cons]
  rfl

theorem MultiRune.validUtf8 {c : Bytes} (h : MultiRune c) (t : Bytes) :
    validUtf8 (c ++ t) = validUtf8 t := by
  obtain ⟨hacc, hlen⟩ := h.decode t
  rw [validUtf8_accept (List.append_ne_nil_of_left_ne_nil h.ne_nil t) hacc, hlen, List.drop_left]

/-- ASCII in front of a text. -/
theorem validUtf8_ascii {x : Bytes} (hx : ∀ b ∈ x, b < 0x80) (t : Bytes) :
    validUtf8 (x ++ t) = validUtf8 t := by
  induction x with
  | nil => rfl
  | cons b x ih =>
    obtain ⟨hb, hx⟩ := List.forall_mem_cons.mp hx
    rw [List.cons_append, validUtf8_accept (List.cons_ne_nil b _) (rejects_ascii hb _),
      decodeRune_ascii hb]
    exact ih hx

end Zap.Data
