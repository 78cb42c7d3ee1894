import Zap.Laws.Escape

/-!
# What the methods of the JSON encoder write

Every method of the encoder that takes a primitive value comes down to one operation, `put`:
a separator when one is due, and a text that does not depend on the buffer. The equations here
say so, method by method, and no later proof unfolds a method again. Each text is a JSON value,
and `Prim.json` says which.
-/

set_option autoImplicit false

namespace Zap.Zapcore

open Data

/-! ## Texts -/

/-- A string literal. -/
def quoted (s : Bytes) : Bytes := 0x22 :: (escape s ++ [0x22])

/-- A complex number, without its quotes. -/
def complexText (r i : Binary64) (narrow : Bool) : Bytes :=
  appendFloat r narrow ++
    ((if Binary64.geZero i then [0x2B] else []) ++ (appendFloat i narrow ++ [0x69]))

/-- A float: the values JSON has no number for are written as strings. -/
def floatText (f : Binary64) (narrow : Bool) : Bytes :=
  if Binary64.isNaN f then utf8 "\"NaN\""
  else if Binary64.isInf f false then utf8 "\"+Inf\""
  else if Binary64.isInf f true then utf8 "\"-Inf\""
  else appendFloat f narrow

/-- The text of a primitive value. -/
def primText : Prim → Bytes
  | .bool b => if b then utf8 "true" else utf8 "false"
  | .byteString bs => quoted bs
  | .complex128 re im => 0x22 :: (complexText re im false ++ [0x22])
  | .complex64 re im =>
    0x22 :: (complexText (Binary64.ofBinary32 re) (Binary64.ofBinary32 im) true ++ [0x22])
  | .float64 f => floatText f false
  | .float32 f => floatText (Binary64.ofBinary32 f) true
  | .int _ i => intDecimal i.toInt
  | .string s => quoted s
  | .uint _ u => natDecimal u.toNat

/-- The text of a call of an encoding function. -/
def callText : AppendCall → Bytes
  | .prim p => primText p
  | .timeLayout t layout => 0x22 :: (t.appendFormat layout ++ [0x22])

/-- The calls that count: those of the encoding function, or the fallback if it made none. -/
def effectiveCalls (calls : List AppendCall) (fallback : Prim) : List AppendCall :=
  if calls = [] then [.prim fallback] else calls

/-- The calls that write a scalar. -/
def scalarCalls (cfg : EncoderConfig) : Scalar → List AppendCall
  | .prim p => [.prim p]
  | .duration d => effectiveCalls (cfg.durationCalls d) (.int .int64 d)
  | .time t => effectiveCalls (cfg.timeCalls t) (.int .int64 t.unixNano)

/-! ## One operation -/

namespace JsonEncoder

variable (enc : JsonEncoder)

/-- Write a text after a separator, if one is due. -/
def put (x : Bytes) : JsonEncoder := enc.write (Json.separator enc.spaced enc.buf ++ x)

theorem write_write (x y : Bytes) : (enc.write x).write y = enc.write (x ++ y) := by
  simp only [write, List.append_assoc]

@[simp] theorem write_cfg (x : Bytes) : (enc.write x).cfg = enc.cfg := rfl

@[simp] theorem write_spaced (x : Bytes) : (enc.write x).spaced = enc.spaced := rfl

@[simp] theorem write_openNamespaces (x : Bytes) :
    (enc.write x).openNamespaces = enc.openNamespaces := rfl

@[simp] theorem put_cfg (x : Bytes) : (enc.put x).cfg = enc.cfg := rfl

@[simp] theorem put_spaced (x : Bytes) : (enc.put x).spaced = enc.spaced := rfl

@[simp] theorem put_openNamespaces (x : Bytes) :
    (enc.put x).openNamespaces = enc.openNamespaces := rfl

theorem put_buf (x : Bytes) :
    (enc.put x).buf = enc.buf ++ (Json.separator enc.spaced enc.buf ++ x) := rfl

theorem put_write (x y : Bytes) : (enc.put x).write y = enc.put (x ++ y) := by
  rw [put, write_write, put, List.append_assoc]

/-- Behind a text that ends in an opening byte no separator is due. -/
theorem put_put (x y : Bytes) {b : UInt8} (hb : Json.opens b = true) :
    (enc.put (x ++ [b])).put y = enc.put (x ++ b :: y) := by
  have hsep : Json.separator enc.spaced (enc.put (x ++ [b])).buf = [] := by
    rw [put_buf, ← List.append_assoc, ← List.append_assoc]
    exact Json.separator_opened enc.spaced _ [] hb
  rw [put, put_spaced, hsep, List.nil_append, put_write, List.append_assoc, List.singleton_append]

theorem addElementSeparator_eq :
    enc.addElementSeparator = enc.write (Json.separator enc.spaced enc.buf) := by
  unfold addElementSeparator Json.separator
  cases enc.buf.getLast? with
  | none => simp [write]
  | some b =>
    have hopens : (b = 0x7B ∨ b = 0x5B ∨ b = 0x3A ∨ b = 0x2C ∨ b = 0x20) ↔
        Json.opens b = true := by simp [Json.opens, or_assoc]
    simp only [hopens]
    split
    · simp [write]
    · cases hs : enc.spaced <;> simp [Json.comma]

theorem addElementSeparator_write (x : Bytes) : enc.addElementSeparator.write x = enc.put x := by
  rw [addElementSeparator_eq, write_write, put]

theorem safeAddString_eq (s : Bytes) : enc.safeAddString s = enc.write (escape s) := by
  rw [safeAddString, safeAppend_eq, write]

theorem appendString_eq (s : Bytes) : enc.appendString s = enc.put (quoted s) := by
  rw [appendString, addElementSeparator_write, safeAddString_eq, put_write, put_write, quoted]
  simp only [List.cons_append, List.nil_append]

theorem addKey_eq (key : Bytes) :
    enc.addKey key = enc.put (Json.keyText enc.spaced (escape key)) := by
  simp only [addKey, addElementSeparator_write, safeAddString_eq, put_write, put_spaced,
    Json.keyText, Json.space]
  cases enc.spaced <;> simp

/-- A value behind its key. -/
theorem addKey_put (key x : Bytes) :
    (enc.addKey key).put x = enc.put (Json.keyText enc.spaced (escape key) ++ x) := by
  rw [addKey_eq, Json.keyText]
  cases enc.spaced with
  | false =>
    have h := enc.put_put (0x22 :: (escape key ++ [0x22])) x (b := 0x3A) rfl
    simpa [Json.space] using h
  | true =>
    have h := enc.put_put (0x22 :: (escape key ++ [0x22, 0x3A])) x (b := 0x20) rfl
    simpa [Json.space] using h

theorem addKey_write (key x : Bytes) :
    (enc.addKey key).write x = enc.put (Json.keyText enc.spaced (escape key) ++ x) := by
  rw [addKey_eq, put_write]

theorem appendComplex_eq (r i : Binary64) (narrow : Bool) :
    enc.appendComplex r i narrow = enc.put (0x22 :: (complexText r i narrow ++ [0x22])) := by
  simp only [appendComplex, addElementSeparator_write, put_write, complexText]
  split <;> simp [put_write]

theorem appendFloat_eq (f : Binary64) (narrow : Bool) :
    enc.appendFloat f narrow = enc.put (floatText f narrow) := by
  simp only [appendFloat, addElementSeparator_write, floatText]
  repeat' split
  all_goals rfl

theorem appendPrim_eq (p : Prim) : enc.appendPrim p = enc.put (primText p) := by
  cases p with
  | bool b => exact enc.addElementSeparator_write _
  | byteString bs => exact enc.appendString_eq bs
  | complex128 re im => exact enc.appendComplex_eq _ _ _
  | complex64 re im => exact enc.appendComplex_eq _ _ _
  | float64 f => exact enc.appendFloat_eq _ _
  | float32 f => exact enc.appendFloat_eq _ _
  | int kind i => exact enc.addElementSeparator_write _
  | string s => exact enc.appendString_eq s
  | uint kind u => exact enc.addElementSeparator_write _

theorem appendCall_eq (c : AppendCall) : enc.appendCall c = enc.put (callText c) := by
  cases c with
  | prim p => exact enc.appendPrim_eq p
  | timeLayout t layout =>
    simp only [appendCall, appendTimeLayout, addElementSeparator_write, put_write, callText,
      List.cons_append, List.nil_append]

end JsonEncoder

/-! ## What the texts mean -/

/-- A float as JSON. -/
def floatJson (f : Binary64) (narrow : Bool) : Json :=
  if Binary64.isNaN f then .str (utf8 "NaN")
  else if Binary64.isInf f false then .str (utf8 "+Inf")
  else if Binary64.isInf f true then .str (utf8 "-Inf")
  else .num (appendFloat f narrow)

/-- A primitive value as JSON. Bytes that are no UTF-8 become U+FFFD. -/
def Prim.json : Prim → Json
  | .bool b => .bool b
  | .byteString bs => .str (sanitize bs)
  | .complex128 re im => .str (complexText re im false)
  | .complex64 re im =>
    .str (complexText (Binary64.ofBinary32 re) (Binary64.ofBinary32 im) true)
  | .float64 f => floatJson f false
  | .float32 f => floatJson (Binary64.ofBinary32 f) true
  | .int _ i => .num (intDecimal i.toInt)
  | .string s => .str (sanitize s)
  | .uint _ u => .num (natDecimal u.toNat)

/-- A call of an encoding function as JSON. -/
def AppendCall.json : AppendCall → Json
  | .prim p => p.json
  | .timeLayout t layout => .str (t.appendFormat layout)

/-- A call whose text is safe to write: a time only in a plain layout. -/
def AppendCall.plain : AppendCall → Bool
  | .prim _ => true
  | .timeLayout _ layout => Time.plainLayout layout

theorem quoted_derives (s : Bytes) : Json.Derives .value (quoted s) (.str (sanitize s)) := by
  obtain ⟨us, hus, hsame⟩ := escape_chars s
  rw [← hsame]
  exact .str hus

theorem plain_derives {t : Bytes} (h : Plain t) :
    Json.Derives .value (0x22 :: (t ++ [0x22])) (.str t) := by
  obtain ⟨us, hus, hsame⟩ := h.chars
  have hstr := Json.Derives.str hus
  rwa [hsame] at hstr

theorem plain_complexText (r i : Binary64) (narrow : Bool) : Plain (complexText r i narrow) := by
  have hsign : Plain (if Binary64.geZero i then [0x2B] else []) := by split <;> decide
  have hunit : Plain [0x69] := by decide
  simp only [complexText, plain_append, plain_appendFloat, hsign, hunit, and_self]

/-- A float is a number if the text of every finite float is. -/
theorem floatText_derives {f : Binary64} {narrow : Bool}
    (hnum : Binary64.isNaN f = false → Binary64.isInf f false = false →
      Binary64.isInf f true = false → Json.Number (appendFloat f narrow)) :
    Json.Derives .value (floatText f narrow) (floatJson f narrow) := by
  unfold floatText floatJson
  split
  · exact plain_derives (t := utf8 "NaN") (by decide)
  split
  · exact plain_derives (t := utf8 "+Inf") (by decide)
  split
  · exact plain_derives (t := utf8 "-Inf") (by decide)
  · next h₁ h₂ h₃ =>
    exact .num (hnum (Bool.eq_false_iff.mpr h₁) (Bool.eq_false_iff.mpr h₂)
      (Bool.eq_false_iff.mpr h₃))

theorem number_natDecimal (n : Nat) : Json.Number (natDecimal n) := by
  have h := number_intDecimal n
  rwa [intDecimal, if_neg (Int.not_lt.mpr (Int.natCast_nonneg n)), Int.natAbs_natCast] at h

/-- Every primitive value is written as the JSON value it stands for. -/
theorem primText_derives (p : Prim) : Json.Derives .value (primText p) p.json := by
  cases p with
  | bool b =>
    cases b
    · exact .falseWord
    · exact .trueWord
  | byteString bs => exact quoted_derives bs
  | complex128 re im => exact plain_derives (plain_complexText _ _ _)
  | complex64 re im => exact plain_derives (plain_complexText _ _ _)
  | float64 f => exact floatText_derives number_appendFloat
  | float32 f => exact floatText_derives number_appendFloat_narrow
  | int kind i => exact .num (number_intDecimal _)
  | string s => exact quoted_derives s
  | uint kind u => exact .num (number_natDecimal _)

theorem callText_derives {c : AppendCall} (h : c.plain = true) :
    Json.Derives .value (callText c) c.json := by
  cases c with
  | prim p => exact primText_derives p
  | timeLayout t layout => exact plain_derives (t.plain_appendFormat h)

/-! ## Encoding functions -/

section Calls

variable {cfg : EncoderConfig} {T : Bytes → Prop}

theorem primCalls_forall (hprim : ∀ p, T (primText p)) (ps : List Prim) :
    ∀ c ∈ ps.map AppendCall.prim, T (callText c) := by
  intro c hc
  obtain ⟨p, _, rfl⟩ := List.mem_map.mp hc
  exact hprim p

theorem effectiveCalls_ne_nil (calls : List AppendCall) (fallback : Prim) :
    effectiveCalls calls fallback ≠ [] := by
  unfold effectiveCalls
  split
  · exact List.cons_ne_nil _ _
  · assumption

theorem effectiveCalls_forall (hprim : ∀ p, T (primText p)) {calls : List AppendCall}
    (hcalls : ∀ c ∈ calls, T (callText c)) (fallback : Prim) :
    ∀ c ∈ effectiveCalls calls fallback, T (callText c) := by
  unfold effectiveCalls
  split
  · exact primCalls_forall hprim [fallback]
  · exact hcalls

/-- Besides primitive values only the calls that a time function makes write texts of their
own. -/
theorem scalarCalls_forall (hprim : ∀ p, T (primText p))
    (htime : ∀ t, ∀ c ∈ cfg.timeCalls t, T (callText c)) (s : Scalar) :
    ∀ c ∈ scalarCalls cfg s, T (callText c) := by
  cases s with
  | prim p => exact primCalls_forall hprim [p]
  | duration d =>
    refine effectiveCalls_forall hprim ?_ _
    unfold EncoderConfig.durationCalls
    split
    · exact primCalls_forall hprim _
    · exact fun _ hc => absurd hc List.not_mem_nil
  | time t => exact effectiveCalls_forall hprim (htime t) _

end Calls

namespace JsonEncoder

variable (enc : JsonEncoder)

theorem primText_ne_nil (p : Prim) : primText p ≠ [] := (primText_derives p).slot.ne_nil

theorem callText_ne_nil (c : AppendCall) : callText c ≠ [] := by
  cases c with
  | prim p => exact primText_ne_nil p
  | timeLayout t layout => exact List.cons_ne_nil _ _

theorem length_foldl_appendCall (calls : List AppendCall) (enc : JsonEncoder) :
    enc.buf.length ≤ (calls.foldl appendCall enc).buf.length := by
  induction calls generalizing enc with
  | nil => exact Nat.le_refl _
  | cons c calls ih =>
    refine Nat.le_trans ?_ (ih (enc.appendCall c))
    rw [appendCall_eq, put_buf, List.length_append]
    exact Nat.le_add_right _ _

/-- The buffer grows exactly when the encoding function makes a call, so comparing lengths
decides between its calls and the fallback. -/
theorem appendCalls_eq (calls : List AppendCall) (fallback : Prim) :
    enc.appendCalls calls fallback = (effectiveCalls calls fallback).foldl appendCall enc := by
  cases calls with
  | nil =>
    simp only [appendCalls, effectiveCalls, List.foldl_nil, ↓reduceIte, List.foldl_cons, appendCall]
  | cons c calls =>
    have hgrow : enc.buf.length < (enc.appendCall c).buf.length := by
      have hpos := List.length_pos_iff.mpr (callText_ne_nil c)
      rw [appendCall_eq, put_buf, List.length_append, List.length_append]
      omega
    have hle := length_foldl_appendCall calls (enc.appendCall c)
    have hne : enc.buf.length ≠ ((c :: calls).foldl appendCall enc).buf.length :=
      Nat.ne_of_lt (Nat.lt_of_lt_of_le hgrow hle)
    simp only [appendCalls]
    rw [if_neg hne, effectiveCalls, if_neg (List.cons_ne_nil _ _)]

theorem appendScalar_eq (s : Scalar) :
    enc.appendScalar s = (scalarCalls enc.cfg s).foldl appendCall enc := by
  cases s with
  | prim p => rfl
  | duration d => exact enc.appendCalls_eq _ _
  | time t => exact enc.appendCalls_eq _ _

end JsonEncoder

/-! ## No control characters -/

theorem plain_quote_ge {t : Bytes} (h : Plain t) : ∀ b ∈ 0x22 :: (t ++ [0x22]), 0x20 ≤ b := by
  refine List.forall_mem_cons.mpr ⟨by decide, List.forall_mem_append.mpr ⟨?_, by decide⟩⟩
  exact fun b hb => isPlain_ge (h b hb)

theorem quoted_ge (s : Bytes) : ∀ b ∈ quoted s, 0x20 ≤ b :=
  List.forall_mem_cons.mpr ⟨by decide, List.forall_mem_append.mpr ⟨escape_ge s, by decide⟩⟩

theorem floatText_ge (f : Binary64) (narrow : Bool) : ∀ b ∈ floatText f narrow, 0x20 ≤ b := by
  unfold floatText
  split
  · decide
  split
  · decide
  split
  · decide
  · exact fun b hb => isPlain_ge (plain_appendFloat f narrow b hb)

theorem primText_ge (p : Prim) : ∀ b ∈ primText p, 0x20 ≤ b := by
  cases p with
  | bool b => cases b <;> decide
  | byteString bs => exact quoted_ge bs
  | complex128 re im => exact plain_quote_ge (plain_complexText _ _ _)
  | complex64 re im => exact plain_quote_ge (plain_complexText _ _ _)
  | float64 f => exact floatText_ge _ _
  | float32 f => exact floatText_ge _ _
  | int kind i => exact fun b hb => isPlain_ge (plain_intDecimal _ b hb)
  | string s => exact quoted_ge s
  | uint kind u => exact fun b hb => isPlain_ge (plain_natDecimal _ b hb)

theorem callText_ge {c : AppendCall} (h : c.plain = true) : ∀ b ∈ callText c, 0x20 ≤ b := by
  cases c with
  | prim p => exact primText_ge p
  | timeLayout t layout => exact plain_quote_ge (t.plain_appendFormat h)

end Zap.Zapcore
