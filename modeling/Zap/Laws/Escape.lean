import Zap.Laws.Plain
import Zap.Zapcore.JsonEncoder

/-!
# String escaping

`safeAppendStringLike` works with two indices into its argument and copies slices between
them. `safeAppend_eq` says what it appends: `escape s`, one rune at a time. What it appends is the
inside of a JSON string literal that spells `sanitize s`, and holds no control character.
-/

set_option autoImplicit false

namespace Zap.Zapcore

open Data

/-- The scan behind `escape`: `skip` bytes still belong to the rune decoded last. -/
def escapeFrom : Nat → Bytes → Bytes
  | _, [] => []
  | skip + 1, b :: rest => b :: escapeFrom skip rest
  | 0, b :: rest =>
    if rejects (b :: rest) then utf8 "\\ufffd" ++ escapeFrom 0 rest
    else if b < 0x80 ∧ Json.isPlain b = false then escapeByte b ++ escapeFrom 0 rest
    else b :: escapeFrom ((decodeRune (b :: rest)).2 - 1) rest

/-- The text that stands for `s` between the quotes of a JSON string. -/
def escape (s : Bytes) : Bytes := escapeFrom 0 s

/-! ## One rune at a time -/

theorem escapeFrom_drop (n : Nat) (s : Bytes) :
    escapeFrom n s = s.take n ++ escape (s.drop n) := by
  induction n generalizing s with
  | zero => rw [List.take_zero, List.drop_zero, List.nil_append, escape]
  | succ n ih =>
    cases s with
    | nil => rfl
    | cons b rest =>
      rw [escapeFrom, ih rest, List.take_succ_cons, List.drop_succ_cons, List.cons_append]

theorem escape_reject {b : UInt8} {rest : Bytes} (h : rejects (b :: rest) = true) :
    escape (b :: rest) = utf8 "\\ufffd" ++ escape rest := by
  rw [escape, escapeFrom, if_pos h, escape]

theorem escape_special {b : UInt8} (hb : b < 0x80) (hp : Json.isPlain b = false) (rest : Bytes) :
    escape (b :: rest) = escapeByte b ++ escape rest := by
  rw [escape, escapeFrom, if_neg (by simp [rejects_ascii hb rest]), if_pos ⟨hb, hp⟩, escape]

/-- An accepted rune that needs no escape is copied. -/
theorem escape_accept {b : UInt8} {rest : Bytes} (hacc : rejects (b :: rest) = false)
    (hcopy : b < 0x80 → Json.isPlain b = true) :
    escape (b :: rest) = (b :: rest).take (decodeRune (b :: rest)).2 ++
      escape ((b :: rest).drop (decodeRune (b :: rest)).2) := by
  obtain ⟨hpos, _, _⟩ := decodeRune_accept (List.cons_ne_nil b rest) hacc
  obtain ⟨n, hn⟩ := Nat.exists_eq_succ_of_ne_zero (Nat.one_le_iff_ne_zero.mp hpos)
  have hkeep : ¬ (b < 0x80 ∧ Json.isPlain b = false) := by
    rintro ⟨hb, hp⟩
    rw [hcopy hb] at hp
    cases hp
  rw [escape, escapeFrom, if_neg (by simp [hacc]), if_neg hkeep, hn, Nat.succ_sub_one,
    escapeFrom_drop, List.take_succ_cons, List.drop_succ_cons, List.cons_append]

theorem escape_plain {b : UInt8} (hp : Json.isPlain b = true) (rest : Bytes) :
    escape (b :: rest) = b :: escape rest := by
  rw [escape_accept (rejects_ascii (isPlain_lt hp) rest) fun _ => hp,
    decodeRune_ascii (isPlain_lt hp) rest]
  rfl

theorem escape_rune {c : Bytes} (hc : MultiRune c) (t : Bytes) :
    escape (c ++ t) = c ++ escape t := by
  obtain ⟨hacc, hlen⟩ := hc.decode t
  obtain ⟨⟨b, r, rfl, hb⟩, _, _⟩ := hc
  rw [List.cons_append] at hacc hlen ⊢
  rw [escape_accept hacc fun hlt => absurd hlt (UInt8.not_lt.mpr hb), hlen, ← List.cons_append,
    List.take_left, List.drop_left]

/-! ## The loop -/

/-- A slice grows by what the index moves over. -/
theorem slice_add (s : Bytes) {last i : Nat} (n : Nat) (hlast : last ≤ i) (hi : i ≤ s.length) :
    (s.take (i + n)).drop last = (s.take i).drop last ++ (s.drop i).take n := by
  rw [List.take_add, List.drop_append_of_le_length]
  rw [List.length_take, Nat.min_eq_left hi]
  exact hlast

theorem slice_self (s : Bytes) (i : Nat) : (s.take i).drop i = [] :=
  List.drop_eq_nil_of_le (by rw [List.length_take]; exact Nat.min_le_left _ _)

/-- The loop appends the slice it has not copied yet and the escaped rest. -/
theorem safeAppendLoop_spec (s : Bytes) (fuel : Nat) :
    ∀ (buf : Bytes) (last i : Nat), last ≤ i → i ≤ s.length → s.length - i ≤ fuel →
      (safeAppendLoop s fuel buf last i).1 ++ s.drop (safeAppendLoop s fuel buf last i).2 =
        buf ++ ((s.take i).drop last ++ escape (s.drop i)) := by
  have finished : ∀ (buf : Bytes) (last i : Nat), last ≤ i → s.drop i = [] →
      buf ++ s.drop last = buf ++ ((s.take i).drop last ++ escape (s.drop i)) := by
    intro buf last i _ hnil
    have hlen : s.length ≤ i := List.drop_eq_nil_iff.mp hnil
    rw [hnil, List.take_of_length_le hlen, escape, escapeFrom, List.append_nil]
  induction fuel with
  | zero =>
    intro buf last i hlast _ hfuel
    exact finished buf last i hlast (List.drop_eq_nil_of_le (by omega))
  | succ fuel ih =>
    intro buf last i hlast hi hfuel
    rw [safeAppendLoop]
    cases hd : s.drop i with
    | nil =>
      have hdone := finished buf last i hlast hd
      rw [hd] at hdone
      exact hdone
    | cons b rest =>
      have hlen : s.length - i = rest.length + 1 := by
        rw [← List.length_drop, hd, List.length_cons]
      -- a rune that is skipped over joins the slice
      have skip : ∀ n, 1 ≤ n → n ≤ (b :: rest).length →
          escape (b :: rest) = (b :: rest).take n ++ escape ((b :: rest).drop n) →
          (safeAppendLoop s fuel buf last (i + n)).1 ++
            s.drop (safeAppendLoop s fuel buf last (i + n)).2 =
          buf ++ ((s.take i).drop last ++ escape (b :: rest)) := by
        intro n hpos hle hcopy
        rw [List.length_cons] at hle
        rw [ih buf last (i + n) (by omega) (by omega) (by omega), slice_add s n hlast hi,
          ← List.drop_drop, hd, List.append_assoc, ← hcopy]
      -- a byte that is replaced flushes the slice
      have flush : ∀ x, escape (b :: rest) = x ++ escape rest →
          (safeAppendLoop s fuel (buf ++ (s.take i).drop last ++ x) (i + 1) (i + 1)).1 ++
            s.drop (safeAppendLoop s fuel (buf ++ (s.take i).drop last ++ x) (i + 1) (i + 1)).2 =
          buf ++ ((s.take i).drop last ++ escape (b :: rest)) := by
        intro x hx
        rw [ih _ _ _ (Nat.le_refl _) (by omega) (by omega), slice_self, ← List.drop_drop, hd, hx]
        simp only [List.append_assoc, List.nil_append, List.drop_succ_cons, List.drop_zero]
      simp only
      split
      · next hb =>
        split
        · next hacc =>
          have hrej : rejects (b :: rest) = false := by
            simp only [rejects, beq_eq_false_iff_ne, ne_eq, Prod.ext_iff, not_and_or]
            exact hacc
          obtain ⟨hpos, hle, _⟩ := decodeRune_accept (List.cons_ne_nil b rest) hrej
          exact skip _ hpos hle
            (escape_accept hrej fun hlt => absurd hlt (UInt8.not_lt.mpr hb))
        · next hacc =>
          have hrej : rejects (b :: rest) = true := by
            simp only [rejects, beq_iff_eq, Prod.ext_iff]
            simpa only [not_or, not_not] using hacc
          exact flush _ (escape_reject hrej)
      · next hb =>
        have hlt : b < 0x80 := UInt8.not_le.mp hb
        split
        · next hp =>
          have hplain : Json.isPlain b = true := by
            simp [Json.isPlain, hp.1, hp.2.1, hp.2.2, hlt]
          exact skip 1 (Nat.le_refl 1) (Nat.succ_pos _) (escape_plain hplain rest)
        · next hp =>
          have hplain : Json.isPlain b = false := by
            rw [Bool.eq_false_iff]
            intro hb
            simp only [Json.isPlain, Bool.and_eq_true, decide_eq_true_eq, bne_iff_ne] at hb
            exact hp ⟨hb.1.1.1, hb.2, hb.1.2⟩
          exact flush _ (escape_special hlt hplain rest)

theorem safeAppend_eq (buf s : Bytes) : safeAppendStringLike buf s = buf ++ escape s := by
  have h := safeAppendLoop_spec s s.length buf 0 0 (Nat.le_refl 0) (Nat.zero_le _) (Nat.sub_le _ _)
  rw [List.take_zero, List.drop_zero, List.drop_zero, List.nil_append] at h
  exact h

/-! ## What the escaped text spells -/

/-- A `\u` unit outside the surrogates is the rune it names. -/
theorem assemble_hex {u : Nat} (hu : u < 0xD800 ∨ 0xE000 ≤ u) (us : List Json.CodeUnit) :
    Json.assemble (.hex u :: us) = encodeRune u ++ Json.assemble us := by
  rw [Json.assemble.eq_def]
  simp only
  rw [if_neg (by omega), if_neg (by omega)]

/-- What is not plain and not a quote or a backslash is a control character. -/
theorem control_of_not_plain {b : UInt8} (hb : b < 0x80) (hp : Json.isPlain b = false)
    (hq : ¬ (b = 0x5C ∨ b = 0x22)) : b.toNat < 0x20 := by
  by_contra hge
  have hle : 0x20 ≤ b := UInt8.le_iff_toNat_le.mpr (Nat.le_of_not_lt hge)
  simp only [not_or] at hq
  simp [Json.isPlain, hb, hle, hq.1, hq.2] at hp

/-- The escape of a byte that may not stand for itself. -/
theorem escapeByte_chars {b : UInt8} (hb : b < 0x80) (hp : Json.isPlain b = false) {t : Bytes}
    {us : List Json.CodeUnit} (ht : Json.Chars t us) :
    ∃ us', Json.Chars (escapeByte b ++ t) us' ∧ Json.assemble us' = b :: Json.assemble us := by
  have hexes : ∀ n < 0x20, Json.hex4 0x30 0x30
      ((utf8 "0123456789abcdef").getD ((UInt8.ofNat n) >>> 4).toNat 0)
      ((utf8 "0123456789abcdef").getD ((UInt8.ofNat n) &&& 0x0F).toNat 0) = some n ∧
        encodeRune n = [UInt8.ofNat n] := by decide
  unfold escapeByte
  split
  · next hq =>
    have hsimple : Json.simpleEscape b = some b := by
      rw [Json.simpleEscape, if_pos (hq.symm.imp_right .inl)]
    exact ⟨_, .escape hsimple ht, rfl⟩
  · next hq =>
    split
    · next h => subst h; exact ⟨_, .escape (e := 0x6E) rfl ht, rfl⟩
    split
    · next h => subst h; exact ⟨_, .escape (e := 0x72) rfl ht, rfl⟩
    split
    · next h => subst h; exact ⟨_, .escape (e := 0x74) rfl ht, rfl⟩
    · have hlt := control_of_not_plain hb hp hq
      obtain ⟨hhex, hrune⟩ := hexes b.toNat hlt
      rw [UInt8.ofNat_toNat] at hhex hrune
      refine ⟨_, .hex hhex ht, ?_⟩
      rw [assemble_hex (.inl (by omega)), hrune]
      rfl

theorem escape_chars (s : Bytes) :
    ∃ us, Json.Chars (escape s) us ∧ Json.assemble us = sanitize s := by
  induction s using runeInduction with
  | nil => exact ⟨[], .nil, rfl⟩
  | ascii b t hb ih =>
    obtain ⟨us, hus, hsame⟩ := ih
    rw [sanitize_ascii hb, ← hsame]
    cases hp : Json.isPlain b with
    | true =>
      rw [escape_plain hp]
      exact ⟨_, .plain hp hus, rfl⟩
    | false =>
      rw [escape_special hb hp]
      exact escapeByte_chars hb hp hus
  | rune c t hc ih =>
    obtain ⟨us, hus, hsame⟩ := ih
    rw [escape_rune hc, hc.sanitize, ← hsame]
    exact ⟨_, .rune hc hus, rfl⟩
  | reject b t hb hrej ih =>
    obtain ⟨us, hus, hsame⟩ := ih
    rw [escape_reject hrej, sanitize_reject hrej, ← hsame]
    exact ⟨_, .hex (u := 0xFFFD) rfl hus, assemble_hex (.inr (by decide)) us⟩

theorem escapeByte_ge {b : UInt8} (hb : b < 0x80) : ∀ x ∈ escapeByte b, 0x20 ≤ x := by
  apply forall_byte_lt ?_ (UInt8.lt_iff_toNat_lt.mp hb)
  decide

/-- An escaped text holds no control character. -/
theorem escape_ge (s : Bytes) : ∀ b ∈ escape s, 0x20 ≤ b := by
  induction s using runeInduction with
  | nil => exact fun _ hb => absurd hb List.not_mem_nil
  | ascii b t hb ih =>
    cases hp : Json.isPlain b with
    | true =>
      rw [escape_plain hp]
      exact List.forall_mem_cons.mpr ⟨isPlain_ge hp, ih⟩
    | false =>
      rw [escape_special hb hp]
      exact List.forall_mem_append.mpr ⟨escapeByte_ge hb, ih⟩
  | rune c t hc ih =>
    rw [escape_rune hc]
    exact List.forall_mem_append.mpr ⟨fun b hb => UInt8.le_trans (by decide) (hc.ge b hb), ih⟩
  | reject b t hb hrej ih =>
    rw [escape_reject hrej]
    exact List.forall_mem_append.mpr ⟨by decide, ih⟩

end Zap.Zapcore
