import Mathlib.Data.Nat.Digits.Lemmas

/-!
# Byte strings, decimal numerals, base64 and lines

A Go `string` and a Go `[]byte` are both a list of bytes here: nothing below depends on which
of the two carries the text. `natDecimal` and `intDecimal` are the base-ten numerals that
`strconv.AppendUint` and `strconv.AppendInt` append, and `base64` is the standard encoding.
`splitLines` cuts a stream after each newline.
-/

set_option autoImplicit false

namespace Zap.Data

abbrev Bytes := List UInt8

/-- A property of every byte of a text is decided along the text. There are only 256 bytes, but
going through all of them is not the way. -/
instance (p : UInt8 → Prop) [DecidablePred p] (t : Bytes) : Decidable (∀ b ∈ t, p b) :=
  List.decidableBAll p t

/-- What holds of every number below a bound holds of the bytes below it. -/
theorem forall_byte_lt {k : Nat} {p : UInt8 → Prop} (h : ∀ n < k, p (UInt8.ofNat n)) {b : UInt8}
    (hb : b.toNat < k) : p b := by
  have hp := h b.toNat hb
  rwa [UInt8.ofNat_toNat] at hp

/-- The bytes of a string literal. -/
def utf8 (s : String) : Bytes := s.toUTF8.data.toList

/-- The ASCII byte of a decimal digit. -/
def digitByte (d : Nat) : UInt8 := UInt8.ofNat (0x30 + d)

/-- Is the byte an ASCII decimal digit? -/
def isDigit (b : UInt8) : Bool := 0x30 ≤ b && b ≤ 0x39

/-- Go's `strconv.AppendUint(nil, n, 10)`. -/
def natDecimal (n : Nat) : Bytes :=
  if n = 0 then [0x30] else (Nat.digits 10 n).reverse.map digitByte

/-- Go's `strconv.AppendInt(nil, i, 10)`. -/
def intDecimal (i : Int) : Bytes :=
  if i < 0 then 0x2D :: natDecimal i.natAbs else natDecimal i.natAbs

/-- The `w` low decimal digits of `n`, most significant first: `n` padded with zeros on the
left to width `w`. -/
def padDecimal : Nat → Nat → Bytes
  | 0, _ => []
  | w + 1, n => padDecimal w (n / 10) ++ [digitByte (n % 10)]

/-- A character of the standard base64 alphabet. -/
def base64Char (n : Nat) : UInt8 :=
  (utf8 "ABCDEFGHIJKLMNOPQRSTUVWXYZabcdefghijklmnopqrstuvwxyz0123456789+/").getD (n % 64) 0x3D

/-- Go's `base64.StdEncoding.EncodeToString`. -/
def base64 : Bytes → Bytes
  | a :: b :: c :: rest =>
    let n := a.toNat * 65536 + b.toNat * 256 + c.toNat
    base64Char (n / 262144) :: base64Char (n / 4096) :: base64Char (n / 64) :: base64Char n ::
      base64 rest
  | [a, b] =>
    let n := a.toNat * 65536 + b.toNat * 256
    [base64Char (n / 262144), base64Char (n / 4096), base64Char (n / 64), 0x3D]
  | [a] =>
    let n := a.toNat * 65536
    [base64Char (n / 262144), base64Char (n / 4096), 0x3D, 0x3D]
  | [] => []

/-- Cut a stream after each newline; `line` is the part of the current line read so far. -/
def splitLines (line : Bytes) : Bytes → List Bytes
  | [] => if line = [] then [] else [line]
  | b :: rest =>
    if b = 0x0A then (line ++ [b]) :: splitLines [] rest else splitLines (line ++ [b]) rest

/-- A line: no newline but the last byte. -/
def IsLine (l : Bytes) : Prop := ∃ body, l = body ++ [0x0A] ∧ 0x0A ∉ body

/-! ## Digits -/

theorem digitByte_toNat {d : Nat} (h : d < 10) : (digitByte d).toNat = 0x30 + d := by
  simp only [digitByte, UInt8.toNat_ofNat']
  omega

theorem isDigit_iff (b : UInt8) : isDigit b = true ↔ 0x30 ≤ b.toNat ∧ b.toNat ≤ 0x39 := by
  simp [isDigit, UInt8.le_iff_toNat_le]

theorem isDigit_digitByte {d : Nat} (h : d < 10) : isDigit (digitByte d) = true := by
  rw [isDigit_iff, digitByte_toNat h]
  omega

theorem natDecimal_isDigit (n : Nat) : ∀ b ∈ natDecimal n, isDigit b = true := by
  intro b hb
  unfold natDecimal at hb
  split at hb
  · simp only [List.mem_singleton] at hb
    subst hb
    decide
  · obtain ⟨d, hd, rfl⟩ := List.mem_map.mp hb
    exact isDigit_digitByte (Nat.digits_lt_base (by decide) (List.mem_reverse.mp hd))

theorem natDecimal_ne_nil (n : Nat) : natDecimal n ≠ [] := by
  unfold natDecimal
  split
  · simp
  · next h =>
    simp only [ne_eq, List.map_eq_nil_iff, List.reverse_eq_nil_iff]
    exact Nat.digits_ne_nil_iff_ne_zero.mpr h

/-- A numeral of a positive number starts with a digit other than zero. -/
theorem natDecimal_head {n : Nat} (h : n ≠ 0) : (natDecimal n).head? ≠ some 0x30 := by
  have hne : Nat.digits 10 n ≠ [] := Nat.digits_ne_nil_iff_ne_zero.mpr h
  have hlast : (Nat.digits 10 n).getLast hne ≠ 0 := Nat.getLast_digit_ne_zero 10 h
  have hlt : (Nat.digits 10 n).getLast hne < 10 :=
    Nat.digits_lt_base (by decide) (List.getLast_mem hne)
  simp only [natDecimal, if_neg h, List.head?_map, List.head?_reverse,
    List.getLast?_eq_some_getLast hne, Option.map_some, ne_eq, Option.some.injEq]
  intro heq
  have hnat := congrArg UInt8.toNat heq
  rw [digitByte_toNat hlt] at hnat
  have hzero : (0x30 : UInt8).toNat = 0x30 := rfl
  omega

theorem natDecimal_zero : natDecimal 0 = [0x30] := rfl

theorem padDecimal_isDigit (w n : Nat) : ∀ b ∈ padDecimal w n, isDigit b = true := by
  induction w generalizing n with
  | zero => intro b hb; cases hb
  | succ w ih =>
    intro b hb
    rcases List.mem_append.mp hb with hb | hb
    · exact ih (n / 10) b hb
    · rw [List.mem_singleton.mp hb]
      exact isDigit_digitByte (Nat.mod_lt n (by decide))

theorem padDecimal_length (w n : Nat) : (padDecimal w n).length = w := by
  induction w generalizing n with
  | zero => rfl
  | succ w ih => simp only [padDecimal, List.length_append, ih, List.length_singleton]

/-! ## Lines -/

theorem splitLines_body {body : Bytes} (h : 0x0A ∉ body) (line rest : Bytes) :
    splitLines line (body ++ rest) = splitLines (line ++ body) rest := by
  induction body generalizing line with
  | nil => rw [List.nil_append, List.append_nil]
  | cons b body ih =>
    have hb : b ≠ 0x0A := fun heq => h (heq ▸ List.mem_cons_self)
    have hbody : 0x0A ∉ body := fun hmem => h (List.mem_cons_of_mem b hmem)
    rw [List.cons_append, splitLines, if_neg hb, ih hbody, List.append_assoc, List.singleton_append]

/-- Cutting a stream of lines at its newlines gives the lines back. -/
theorem splitLines_flatten {lines : List Bytes} (h : ∀ l ∈ lines, IsLine l) :
    splitLines [] lines.flatten = lines := by
  induction lines with
  | nil => rfl
  | cons l lines ih =>
    obtain ⟨hl, hrest⟩ := List.forall_mem_cons.mp h
    obtain ⟨body, rfl, hbody⟩ := hl
    rw [List.flatten_cons, List.append_assoc, splitLines_body hbody, List.singleton_append,
      splitLines, if_pos rfl, List.nil_append, ih hrest]

/-- A stream of lines holds one newline for each of them. -/
theorem count_newline_flatten {lines : List Bytes} (h : ∀ l ∈ lines, IsLine l) :
    lines.flatten.count 0x0A = lines.length := by
  induction lines with
  | nil => rfl
  | cons l lines ih =>
    obtain ⟨hl, hrest⟩ := List.forall_mem_cons.mp h
    obtain ⟨body, rfl, hbody⟩ := hl
    rw [List.flatten_cons, List.count_append, List.count_append, ih hrest,
      List.count_eq_zero.mpr hbody, List.length_cons, List.count_singleton_self]
    omega

end Zap.Data
