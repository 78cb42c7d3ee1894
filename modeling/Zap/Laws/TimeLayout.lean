import Zap.Laws.StringLike
import Zap.Zapcore.TimeEncoder

/-!
# The fast path for layouts

`AppendTimeLayout` writes a formatted time between quotes as it is, where `AppendString` escapes it.
The two agree on texts that need no escaping, and on no others: an escaped text is longer than the
text if there is anything to escape.
-/

set_option autoImplicit false

namespace Zap.Zapcore

open Data

/-- A text that is its own escaped form: no control character, no quote and no backslash, and valid
UTF-8. -/
def Literal (x : Bytes) : Prop :=
  (∀ b ∈ x, 0x20 ≤ b ∧ b ≠ 0x22 ∧ b ≠ 0x5C) ∧ validUtf8 x = true

theorem length_escapeByte {b : UInt8} (hb : b < 0x80) : 2 ≤ (escapeByte b).length := by
  apply forall_byte_lt ?_ (UInt8.lt_iff_toNat_lt.mp hb)
  decide

/-- Escaping never shortens a text. -/
theorem length_le_escape (s : Bytes) : s.length ≤ (escape s).length := by
  induction s using runeInduction with
  | nil => exact Nat.zero_le _
  | ascii b t hb ih =>
    cases hp : Json.isPlain b with
    | true => rw [escape_plain hp]; exact Nat.succ_le_succ ih
    | false =>
      have hlen := length_escapeByte hb
      rw [escape_special hb hp, List.length_cons, List.length_append]
      omega
  | rune c t hc ih =>
    rw [escape_rune hc, List.length_append, List.length_append]
    exact Nat.add_le_add_left ih _
  | reject b t hb hrej ih =>
    have hlen : (utf8 "\\ufffd").length = 6 := by decide
    rw [escape_reject hrej, List.length_cons, List.length_append, hlen]
    omega

/-- What is replaced by more is not kept. -/
theorem escape_ne {b : UInt8} {x t : Bytes} (hx : 2 ≤ x.length) : x ++ escape t ≠ b :: t := by
  intro heq
  have hlen := congrArg List.length heq
  have hle := length_le_escape t
  rw [List.length_append, List.length_cons] at hlen
  omega

theorem isPlain_iff {b : UInt8} (hb : b < 0x80) :
    Json.isPlain b = true ↔ 0x20 ≤ b ∧ b ≠ 0x22 ∧ b ≠ 0x5C := by
  simp [Json.isPlain, hb, and_assoc]

/-- A text is its own escaped form iff there is nothing in it to escape. -/
theorem escape_eq_self_iff (s : Bytes) : escape s = s ↔ Literal s := by
  unfold Literal
  induction s using runeInduction with
  | nil => simp [escape, escapeFrom, validUtf8, validFrom]
  | ascii b t hb ih =>
    have hvalid : validUtf8 (b :: t) = validUtf8 t := validUtf8_ascii (x := [b]) (by simpa using hb) t
    rw [List.forall_mem_cons, hvalid, ← isPlain_iff hb]
    cases hp : Json.isPlain b with
    | true => rw [escape_plain hp, List.cons_inj_right, ih]; simp
    | false =>
      rw [escape_special hb hp]
      exact iff_of_false (escape_ne (length_escapeByte hb)) (by simp)
  | rune c t hc ih =>
    have hge : ∀ b ∈ c, 0x20 ≤ b ∧ b ≠ 0x22 ∧ b ≠ 0x5C := by
      intro b hmem
      have hb := hc.ge b hmem
      refine ⟨UInt8.le_trans (by decide) hb, ?_, ?_⟩
      · rintro rfl
        exact absurd hb (by decide)
      · rintro rfl
        exact absurd hb (by decide)
    rw [escape_rune hc, List.append_cancel_left_eq, ih, hc.validUtf8, List.forall_mem_append]
    exact ⟨fun h => ⟨⟨hge, h.1⟩, h.2⟩, fun h => ⟨h.1.2, h.2⟩⟩
  | reject b t hb hrej ih =>
    rw [escape_reject hrej]
    refine iff_of_false (escape_ne (by decide)) fun h => ?_
    rw [validUtf8, validFrom, hrej] at h
    exact absurd h.2 (by simp)

/-- A literal text between quotes is a string of JSON that stands for it. -/
theorem Literal.derives {x : Bytes} (h : Literal x) :
    Json.Derives .value (0x22 :: (x ++ [0x22])) (.str x) := by
  have hderives := quoted_derives x
  rwa [quoted, (escape_eq_self_iff x).mpr h, sanitize_of_valid h.2] at hderives

/-- An encoder with the time encoder of a layout, from a configuration for example, encodes times
with `AppendTimeLayout`. -/
theorem appendTime_ofLayout {enc : JsonEncoder} {layout : Bytes}
    (hcfg : enc.cfg.encodeTime = some (timeEncoderOfLayout (Time.Layout.ofString layout)))
    (t : Time) : enc.appendTime t = enc.appendTimeLayout t (Time.Layout.ofString layout) := by
  have hcalls : enc.cfg.timeCalls t = [.timeLayout t (Time.Layout.ofString layout)] := by
    rw [EncoderConfig.timeCalls, hcfg]
    rfl
  rw [JsonEncoder.appendTime, enc.appendCalls_eq, hcalls]
  rfl

/-- `AppendTimeLayout` appends the bytes that `AppendString` of the formatted time appends iff the
formatted time needs no escaping, and then they are a string of JSON that stands for it. That is how
a time is encoded whose layout comes from `TimeEncoderOfLayout`, or from a configuration. -/
theorem appendTimeLayout_iff (enc : JsonEncoder) (t : Time) (layout : Bytes) :
    (enc.appendTimeLayout t (Time.Layout.ofString layout) = enc.appendString (t.format layout) ↔
      Literal (t.format layout)) ∧
    (Literal (t.format layout) →
      ∃ x, enc.appendTimeLayout t (Time.Layout.ofString layout) = enc.put x ∧
        Json.parse x = some (.str (t.format layout))) ∧
    (∀ string e, TimeEncoder.unmarshalYAML (.ok layout) string = .ok e →
      enc.cfg.encodeTime = some e →
        enc.appendTime t = enc.appendTimeLayout t (Time.Layout.ofString layout)) := by
  have hfast : enc.appendTimeLayout t (Time.Layout.ofString layout) =
      enc.put (0x22 :: (t.format layout ++ [0x22])) :=
    enc.appendCall_eq (.timeLayout t (Time.Layout.ofString layout))
  refine ⟨?_, fun h => ⟨_, hfast, Json.parse_of_derives h.derives⟩, fun string e he hcfg => ?_⟩
  swap
  · cases he
    exact appendTime_ofLayout hcfg t
  rw [hfast, enc.appendString_eq, quoted, ← escape_eq_self_iff]
  constructor
  · intro heq
    have hbuf := congrArg JsonEncoder.buf heq
    rw [JsonEncoder.put_buf, JsonEncoder.put_buf, List.append_cancel_left_eq,
      List.append_cancel_left_eq, List.cons_inj_right, List.append_cancel_right_eq] at hbuf
    exact hbuf.symm
  · intro heq
    rw [heq]

/-- A quote in a layout. -/
theorem appendTimeLayout_quote :
    ((newJSONEncoder newProductionEncoderConfig false).appendTimeLayout
        (.ofUnixNano 0 Location.utc) (Time.Layout.ofString (utf8 "2006\""))).buf =
      utf8 "\"1970\"\"" ∧
    ((newJSONEncoder newProductionEncoderConfig false).appendString
        ((Time.ofUnixNano 0 Location.utc).format (utf8 "2006\""))).buf = utf8 "\"1970\\\"\"" ∧
    Json.parse (utf8 "\"1970\"\"") = none := by
  refine ⟨?_, ?_, ?_⟩ <;> decide

end Zap.Zapcore
