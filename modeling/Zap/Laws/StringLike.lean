import Zap.Data.JsonLaws
import Zap.Laws.JsonText
import Zap.Zapcore.StringLike

/-!
# Escaping strings and byte slices

Whatever its type parameter is, `safeAppendStringLike` reads a value as the bytes that it stands
for (`LawfulStringLike`), stays within its bounds, and does to the bytes what the loop on bytes does.
So both instances append the same text, and what `Zap.Laws.Escape` says of that text holds of both.
-/

set_option autoImplicit false

namespace Zap.Zapcore

open Data

theorem escapeByte_lt {b : UInt8} (hb : b < 0x80) : ∀ x ∈ escapeByte b, x < 0x80 := by
  apply forall_byte_lt ?_ (UInt8.lt_iff_toNat_lt.mp hb)
  decide

/-- Whatever is escaped, the escaped text is valid. -/
theorem escape_valid (s : Bytes) : validUtf8 (escape s) = true := by
  induction s using runeInduction with
  | nil => rfl
  | ascii b t hb ih =>
    cases hp : Json.isPlain b with
    | true =>
      rw [escape_plain hp, ← List.singleton_append, validUtf8_ascii (by simpa using hb), ih]
    | false => rw [escape_special hb hp, validUtf8_ascii (escapeByte_lt hb), ih]
  | rune c t hc ih => rw [escape_rune hc, hc.validUtf8, ih]
  | reject b t hb hrej ih => rw [escape_reject hrej, validUtf8_ascii (by decide), ih]

/-! ## The type parameter -/

/-- A value is read as the bytes it stands for. -/
class LawfulStringLike (S : Type) [StringLike S] (bytes : outParam (S → Bytes)) : Prop where
  len_eq : ∀ s, StringLike.len s = (bytes s).length
  index_eq : ∀ s i, StringLike.index s i = (bytes s)[i]?
  slice_eq : ∀ s i j, i ≤ j → j ≤ (bytes s).length →
    ∃ t, StringLike.slice s i j = some t ∧ bytes t = ((bytes s).take j).drop i

instance : LawfulStringLike Bytes id where
  len_eq _ := rfl
  index_eq _ _ := rfl
  slice_eq _ _ _ hij hj := ⟨_, if_pos ⟨hij, hj⟩, rfl⟩

theorem ByteSlice.length_toBytes (s : ByteSlice) : s.toBytes.length = s.len := by
  have h := s.in_array
  rw [toBytes, List.length_take, List.length_drop]
  omega

instance : LawfulStringLike ByteSlice ByteSlice.toBytes where
  len_eq s := s.length_toBytes.symm
  index_eq s i := by
    show (if i < s.len then s.array[s.offset + i]? else none) = _
    split
    · next h => rw [ByteSlice.toBytes, List.getElem?_take_of_lt h, List.getElem?_drop]
    · next h => rw [List.getElem?_eq_none (s.length_toBytes.trans_le (Nat.le_of_not_lt h))]
  slice_eq s i j hij hj := by
    rw [s.length_toBytes] at hj
    have hbound := s.in_array
    refine ⟨_, dif_pos ⟨hij, by omega⟩, ?_⟩
    show (s.array.drop (s.offset + i)).take (j - i) = _
    rw [ByteSlice.toBytes, List.take_take, Nat.min_eq_left hj, List.drop_take, List.drop_drop]

namespace StringLike

variable {S : Type} [StringLike S] {bytes : S → Bytes} [LawfulStringLike S bytes]
  {appendTo : Bytes → S → Bytes} {decode : S → Nat × Nat}

/-- The loop stays within bounds, and does what the loop on bytes does. -/
theorem safeAppendLoop_eq (happend : ∀ buf t, appendTo buf t = buf ++ bytes t)
    (hdecode : ∀ t, decode t = decodeRune (bytes t)) (s : S) (fuel : Nat) :
    ∀ (buf : Bytes) (last i : Nat), last ≤ i → i ≤ (bytes s).length →
      safeAppendLoop appendTo decode s fuel buf last i =
          some (Zapcore.safeAppendLoop (bytes s) fuel buf last i) ∧
        (Zapcore.safeAppendLoop (bytes s) fuel buf last i).2 ≤ (bytes s).length := by
  induction fuel with
  | zero => exact fun buf last i hlast hi => ⟨rfl, hlast.trans hi⟩
  | succ fuel ih =>
    intro buf last i hlast hi
    rw [safeAppendLoop, Zapcore.safeAppendLoop, LawfulStringLike.len_eq]
    cases hrest : (bytes s).drop i with
    | nil =>
      have hend : ¬ i < (bytes s).length := Nat.not_lt.mpr (List.drop_eq_nil_iff.mp hrest)
      rw [if_neg hend]
      exact ⟨rfl, hlast.trans hi⟩
    | cons b rest =>
      have hlen : (bytes s).length - i = rest.length + 1 := by
        rw [← List.length_drop, hrest, List.length_cons]
      have hindex : index s i = some b := by
        rw [LawfulStringLike.index_eq, ← List.head?_drop, hrest]
        rfl
      obtain ⟨tail, htail, htailBytes⟩ :=
        LawfulStringLike.slice_eq s i (bytes s).length hi (Nat.le_refl _)
      obtain ⟨part, hpart, hpartBytes⟩ :=
        LawfulStringLike.slice_eq s last i hlast hi
      rw [List.take_length, hrest] at htailBytes
      rw [if_pos (by omega), hindex, htail, hpart]
      simp only [Option.bind_eq_bind, Option.bind_some, hdecode, htailBytes, happend, hpartBytes]
      split
      · split
        · next hacc =>
          have hrej : rejects (b :: rest) = false := by
            simp only [rejects, beq_eq_false_iff_ne, ne_eq, Prod.ext_iff, not_and_or]
            exact hacc
          obtain ⟨_, hle, _⟩ := decodeRune_accept (List.cons_ne_nil b rest) hrej
          rw [List.length_cons] at hle
          exact ih _ _ _ (by omega) (by omega)
        · exact ih _ _ _ (Nat.le_refl _) (by omega)
      · split
        · exact ih _ _ _ (by omega) (by omega)
        · exact ih _ _ _ (Nat.le_refl _) (by omega)

theorem safeAppendStringLike_eq (happend : ∀ buf t, appendTo buf t = buf ++ bytes t)
    (hdecode : ∀ t, decode t = decodeRune (bytes t)) (buf : Bytes) (s : S) :
    safeAppendStringLike appendTo decode buf s = some (buf ++ escape (bytes s)) := by
  have hlen : len s = (bytes s).length := LawfulStringLike.len_eq s
  obtain ⟨hloop, hlast⟩ := safeAppendLoop_eq happend hdecode s (bytes s).length buf 0 0
    (Nat.le_refl 0) (Nat.zero_le _)
  obtain ⟨part, hpart, hpartBytes⟩ :=
    LawfulStringLike.slice_eq s _ (bytes s).length hlast (Nat.le_refl _)
  rw [List.take_length] at hpartBytes
  rw [safeAppendStringLike, hlen, hloop]
  simp only [Option.bind_eq_bind, Option.bind_some, hpart, happend, hpartBytes]
  rw [← safeAppend_eq]
  rfl

end StringLike

/-- The escaped form `e` of a byte string is what both instances append, for a string and for every
slice with those bytes. It has no control character, and a quote or a backslash only as part of an
escape; it is valid UTF-8; and between quotes it is a JSON string that stands for the bytes, with
U+FFFD for each byte that the decoder rejects. -/
theorem escaping_round_trips :
    ∃ e : Bytes → Bytes,
      (∀ buf s, safeAddString buf s = some (buf ++ e s)) ∧
      (∀ buf (s : ByteSlice), safeAddByteString buf s = some (buf ++ e s.toBytes)) ∧
      ∀ s, (∀ b ∈ e s, 0x20 ≤ b) ∧ (∃ us, Json.Chars (e s) us) ∧ validUtf8 (e s) = true ∧
        Json.parse (0x22 :: (e s ++ [0x22])) = some (.str (sanitize s)) := by
  refine ⟨escape, fun buf s => ?_, fun buf s => ?_, fun s => ⟨escape_ge s, ?_, escape_valid s, ?_⟩⟩
  · exact StringLike.safeAppendStringLike_eq (fun _ _ => rfl) (fun _ => rfl) buf s
  · exact StringLike.safeAppendStringLike_eq (fun _ _ => rfl) (fun _ => rfl) buf s
  · obtain ⟨us, hus, _⟩ := escape_chars s
    exact ⟨us, hus⟩
  · exact Json.parse_of_derives (quoted_derives s)

end Zap.Zapcore
