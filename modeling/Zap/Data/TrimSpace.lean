import Zap.Data.Utf8

/-!
# Trimming white space

`bytes.TrimSpace` of Go: runes that are white space, as Unicode has it, are taken off at both ends. The
end of a text is read backwards, with `utf8.DecodeLastRune`. A newline at the end makes no difference
(`trimSpace_newline`).
-/

set_option autoImplicit false

namespace Zap.Data

/-- `unicode.IsSpace`. -/
def isSpace (r : Nat) : Bool :=
  [0x09, 0x0A, 0x0B, 0x0C, 0x0D, 0x20, 0x85, 0xA0, 0x1680, 0x2028, 0x2029, 0x202F, 0x205F,
      0x3000].contains r ||
    (0x2000 ≤ r && r ≤ 0x200A)

/-- `utf8.RuneStart`: the byte is no continuation byte. -/
def runeStart (b : UInt8) : Bool := b &&& 0xC0 != 0x80

/-- `utf8.DecodeLastRune`: the rune at the end and its width in bytes. -/
def decodeLastRune (s : Bytes) : Nat × Nat :=
  match s.getLast? with
  | none => (runeError, 0)
  | some b =>
    if b < 0x80 then (b.toNat, 1)
    else
      -- the nearest byte before the last one that may start a rune, not further than a rune is wide
      match [2, 3, 4].find? fun k => k ≤ s.length && (s[s.length - k]?).any runeStart with
      | none => (runeError, 1)
      | some k =>
        let (r, size) := decodeRune (s.drop (s.length - k))
        if size = k then (r, size) else (runeError, 1)

/-- The scan from the left: `skip` bytes still belong to the rune decoded last. -/
def trimLeftFrom : Nat → Bytes → Bytes
  | _, [] => []
  | skip + 1, _ :: rest => trimLeftFrom skip rest
  | 0, b :: rest =>
    if isSpace (decodeRune (b :: rest)).1 then trimLeftFrom ((decodeRune (b :: rest)).2 - 1) rest
    else b :: rest

def trimLeft (s : Bytes) : Bytes := trimLeftFrom 0 s

/-- The scan from the right, for at most `n` runes. -/
def trimRightWithin : Nat → Bytes → Bytes
  | 0, s => s
  | n + 1, s =>
    let (r, size) := decodeLastRune s
    if isSpace r then trimRightWithin n (s.take (s.length - size)) else s

def trimRight (s : Bytes) : Bytes := trimRightWithin s.length s

/-- `bytes.TrimSpace`. -/
def trimSpace (s : Bytes) : Bytes := trimRight (trimLeft s)

/-! ## One rune at a time -/

theorem trimLeftFrom_drop (n : Nat) (s : Bytes) : trimLeftFrom n s = trimLeft (s.drop n) := by
  induction n generalizing s with
  | zero => rfl
  | succ n ih =>
    cases s with
    | nil => rfl
    | cons b rest => rw [trimLeftFrom, ih rest, List.drop_succ_cons]

theorem trimLeft_ascii {b : UInt8} (h : b < 0x80) (t : Bytes) :
    trimLeft (b :: t) = if isSpace b.toNat then trimLeft t else b :: t := by
  rw [trimLeft, trimLeftFrom, decodeRune_ascii h]
  rfl

theorem MultiRune.trimLeft {c : Bytes} (h : MultiRune c) (t : Bytes) :
    trimLeft (c ++ t) = if isSpace (decodeRune c).1 then Data.trimLeft t else c ++ t := by
  have hdecode := h.decodeRune_append t
  have hdrop : (c ++ t).drop c.length = t := List.drop_left
  obtain ⟨⟨b, r, rfl, _⟩, _, hlen⟩ := h
  rw [List.cons_append] at hdecode hdrop ⊢
  rw [Data.trimLeft, trimLeftFrom, hdecode, hlen, List.length_cons, Nat.add_sub_cancel,
    trimLeftFrom_drop]
  rw [List.length_cons, List.drop_succ_cons] at hdrop
  rw [hdrop]

theorem trimLeft_reject {b : UInt8} {t : Bytes} (h : rejects (b :: t) = true) :
    trimLeft (b :: t) = b :: t := by
  have hdecode : decodeRune (b :: t) = (runeError, 1) := beq_iff_eq.mp h
  rw [trimLeft, trimLeftFrom, hdecode]
  rfl

/-! ## A newline at the end -/

/-- A byte that is rejected is rejected also before an ASCII byte, which continues no rune. -/
theorem rejects_append_ascii {b c : UInt8} {t : Bytes} (hb : 0x80 ≤ b) (hc : c < 0x80)
    (h : rejects (b :: t) = true) : rejects (b :: t ++ [c]) = true := by
  by_contra hacc
  rw [Bool.not_eq_true, List.cons_append] at hacc
  have hrune := multiRune_take hb hacc
  obtain ⟨_, hle, _⟩ := decodeRune_accept (List.cons_ne_nil b _) hacc
  rcases Nat.lt_or_ge t.length.succ (decodeRune (b :: (t ++ [c]))).2 with hlt | hge
  · -- The rune would go up to the ASCII byte.
    have hall : (b :: (t ++ [c])).take (decodeRune (b :: (t ++ [c]))).2 = b :: (t ++ [c]) :=
      List.take_of_length_le (by simp only [List.length_cons, List.length_append, List.length_nil]; omega)
    rw [hall] at hrune
    have hge := hrune.ge c (by simp)
    exact absurd hc (UInt8.not_lt.mpr hge)
  · rw [← List.cons_append, List.take_append_of_le_length hge] at hrune
    have hfront := (hrune.decode ((b :: t).drop (decodeRune (b :: t ++ [c])).2)).1
    rw [List.take_append_drop, h] at hfront
    cases hfront

theorem trimLeft_newline (s : Bytes) :
    trimLeft (s ++ [0x0A]) = if trimLeft s = [] then [] else trimLeft s ++ [0x0A] := by
  induction s using runeInduction with
  | nil => rfl
  | ascii b t hb ih =>
    rw [List.cons_append, trimLeft_ascii hb, trimLeft_ascii hb]
    split
    · exact ih
    · rfl
  | rune c t hc ih =>
    rw [List.append_assoc, hc.trimLeft, hc.trimLeft]
    split
    · exact ih
    · rw [if_neg (List.append_ne_nil_of_left_ne_nil hc.ne_nil t), List.append_assoc]
  | reject b t hb hrej ih =>
    have hrej' : rejects (b :: (t ++ [0x0A])) = true := rejects_append_ascii hb (by decide) hrej
    rw [trimLeft_reject hrej, List.cons_append, trimLeft_reject hrej']
    rfl

theorem trimRight_newline (s : Bytes) : trimRight (s ++ [0x0A]) = trimRight s := by
  have hlast : decodeLastRune (s ++ [0x0A]) = (0x0A, 1) := by
    simp only [decodeLastRune, List.getLast?_append_cons, List.getLast?_singleton]
    rfl
  rw [trimRight, List.length_append, List.length_singleton, trimRightWithin, hlast]
  simp only [List.length_append, List.length_singleton, Nat.add_sub_cancel, List.take_left]
  rfl

/-- A newline at the end is trimmed, whatever comes before it. -/
theorem trimSpace_newline (s : Bytes) : trimSpace (s ++ [0x0A]) = trimSpace s := by
  rw [trimSpace, trimSpace, trimLeft_newline]
  split
  · next h => rw [h]
  · exact trimRight_newline _

example : trimSpace (utf8 "\t  a b  \n") = utf8 "a b" := by decide

end Zap.Data
