import Zap.Zapcore.Encoder

/-!
# The JSON encoder

`zapcore/json_encoder.go`. The encoder is a flat buffer and a count of open namespaces; commas
are decided by looking at the last byte of the buffer, and fallbacks by comparing buffer lengths.
Both are kept here as they are in the source. The pools and the scratch buffer for reflected
values have no place in the model: a clone starts with an empty buffer, and a reflected value is
encoded into a fresh one.

A method that takes a marshaler may panic in it, so it answers `none` then. The encoders of an
interface's methods are total.
-/

set_option autoImplicit false

namespace Zap.Zapcore

open Data

/-! ## Escaping -/

/-- What is written for a byte below `utf8.RuneSelf` that may not stand for itself. -/
def escapeByte (b : UInt8) : Bytes :=
  if b = 0x5C ∨ b = 0x22 then [0x5C, b]
  else if b = 0x0A then utf8 "\\n"
  else if b = 0x0D then utf8 "\\r"
  else if b = 0x09 then utf8 "\\t"
  else
    let hex (n : UInt8) : UInt8 := (utf8 "0123456789abcdef").getD n.toNat 0
    utf8 "\\u00" ++ [hex (b >>> 4), hex (b &&& 0x0F)]

/-- The loop of `safeAppendStringLike`. Bytes of `s` before `last` have been copied, those before
`i` have been looked at. Each turn moves `i`, so `s.length` turns are enough. -/
def safeAppendLoop (s : Bytes) : Nat → Bytes → Nat → Nat → Bytes × Nat
  | 0, buf, last, _ => (buf, last)
  | fuel + 1, buf, last, i =>
    match s.drop i with
    | [] => (buf, last)
    | b :: rest =>
      if 0x80 ≤ b then
        let (r, size) := decodeRune (b :: rest)
        if r ≠ runeError ∨ size ≠ 1 then safeAppendLoop s fuel buf last (i + size)
        else
          safeAppendLoop s fuel (buf ++ (s.take i).drop last ++ utf8 "\\ufffd") (i + 1) (i + 1)
      else if 0x20 ≤ b ∧ b ≠ 0x5C ∧ b ≠ 0x22 then safeAppendLoop s fuel buf last (i + 1)
      else safeAppendLoop s fuel (buf ++ (s.take i).drop last ++ escapeByte b) (i + 1) (i + 1)

/-- `safeAppendStringLike`. -/
def safeAppendStringLike (buf s : Bytes) : Bytes :=
  let (buf, last) := safeAppendLoop s s.length buf 0 0
  buf ++ s.drop last

/-! ## The encoder -/

@[ext]
structure JsonEncoder where
  cfg : EncoderConfig
  buf : Bytes
  spaced : Bool
  openNamespaces : Nat

/-- `newJSONEncoder`. -/
def newJSONEncoder (cfg : EncoderConfig) (spaced : Bool) : JsonEncoder where
  cfg := { cfg with
    lineEnding := cfg.effectiveLineEnding
    newReflectedEncoder := some cfg.reflectedEncoder }
  buf := []
  spaced := spaced
  openNamespaces := 0

namespace JsonEncoder

/-- `enc.buf.Write`, and every `Append` method of the buffer. -/
def write (enc : JsonEncoder) (bs : Bytes) : JsonEncoder := { enc with buf := enc.buf ++ bs }

/-- `addElementSeparator`. -/
def addElementSeparator (enc : JsonEncoder) : JsonEncoder :=
  match enc.buf.getLast? with
  | none => enc
  | some b =>
    if b = 0x7B ∨ b = 0x5B ∨ b = 0x3A ∨ b = 0x2C ∨ b = 0x20 then enc
    else if enc.spaced then enc.write [0x2C, 0x20]
    else enc.write [0x2C]

/-- `safeAddString` and `safeAddByteString`. -/
def safeAddString (enc : JsonEncoder) (s : Bytes) : JsonEncoder :=
  { enc with buf := safeAppendStringLike enc.buf s }

/-- `addKey`. -/
def addKey (enc : JsonEncoder) (key : Bytes) : JsonEncoder :=
  let enc := (enc.addElementSeparator.write [0x22]).safeAddString key
  let enc := enc.write [0x22, 0x3A]
  if enc.spaced then enc.write [0x20] else enc

/-! ### Primitive values -/

/-- `AppendString` and `AppendByteString`. -/
def appendString (enc : JsonEncoder) (s : Bytes) : JsonEncoder :=
  ((enc.addElementSeparator.write [0x22]).safeAddString s).write [0x22]

def appendBool (enc : JsonEncoder) (b : Bool) : JsonEncoder :=
  enc.addElementSeparator.write (if b then utf8 "true" else utf8 "false")

/-- `appendComplex`; `narrow` is a precision of 32. -/
def appendComplex (enc : JsonEncoder) (r i : Binary64) (narrow : Bool) : JsonEncoder :=
  let enc := (enc.addElementSeparator.write [0x22]).write (appendFloat r narrow)
  let enc := if Binary64.geZero i then enc.write [0x2B] else enc
  (enc.write (appendFloat i narrow)).write [0x69, 0x22]

/-- `appendFloat`. -/
def appendFloat (enc : JsonEncoder) (f : Binary64) (narrow : Bool) : JsonEncoder :=
  let enc := enc.addElementSeparator
  if Binary64.isNaN f then enc.write (utf8 "\"NaN\"")
  else if Binary64.isInf f false then enc.write (utf8 "\"+Inf\"")
  else if Binary64.isInf f true then enc.write (utf8 "\"-Inf\"")
  else enc.write (Data.appendFloat f narrow)

def appendInt64 (enc : JsonEncoder) (i : Int64) : JsonEncoder :=
  enc.addElementSeparator.write (intDecimal i.toInt)

def appendUint64 (enc : JsonEncoder) (u : UInt64) : JsonEncoder :=
  enc.addElementSeparator.write (natDecimal u.toNat)

/-- `AppendTimeLayout`: the formatted time is not escaped. -/
def appendTimeLayout (enc : JsonEncoder) (t : Time) (layout : Time.Layout) : JsonEncoder :=
  ((enc.addElementSeparator.write [0x22]).write (t.appendFormat layout)).write [0x22]

/-- The `Append` method of a primitive value. -/
def appendPrim (enc : JsonEncoder) : Prim → JsonEncoder
  | .bool b => enc.appendBool b
  | .byteString bs => enc.appendString bs
  | .complex128 re im => enc.appendComplex re im false
  | .complex64 re im => enc.appendComplex (Binary64.ofBinary32 re) (Binary64.ofBinary32 im) true
  | .float64 f => enc.appendFloat f false
  | .float32 f => enc.appendFloat (Binary64.ofBinary32 f) true
  | .int _ i => enc.appendInt64 i
  | .string s => enc.appendString s
  | .uint _ u => enc.appendUint64 u

/-- One call of an encoding function. -/
def appendCall (enc : JsonEncoder) : AppendCall → JsonEncoder
  | .prim p => enc.appendPrim p
  | .timeLayout t layout => enc.appendTimeLayout t layout

/-- Run an encoding function; when the buffer has not grown, fall back to a primitive value. -/
def appendCalls (enc : JsonEncoder) (calls : List AppendCall) (fallback : Prim) : JsonEncoder :=
  let enc' := calls.foldl appendCall enc
  if enc.buf.length = enc'.buf.length then enc'.appendPrim fallback else enc'

/-- `AppendDuration`. -/
def appendDuration (enc : JsonEncoder) (d : Duration) : JsonEncoder :=
  enc.appendCalls (enc.cfg.durationCalls d) (.int .int64 d)

/-- `AppendTime`. -/
def appendTime (enc : JsonEncoder) (t : Time) : JsonEncoder :=
  enc.appendCalls (enc.cfg.timeCalls t) (.int .int64 t.unixNano)

def appendScalar (enc : JsonEncoder) : Scalar → JsonEncoder
  | .prim p => enc.appendPrim p
  | .duration d => enc.appendDuration d
  | .time t => enc.appendTime t

/-! ### Compound values -/

/-- `TrimNewline` of a buffer. -/
def trimNewline (bs : Bytes) : Bytes :=
  if bs.getLast? = some 0x0A then bs.dropLast else bs

/-- `encodeReflected`. -/
def encodeReflected (enc : JsonEncoder) : Option Reflected → Except Bytes Bytes
  | none => .ok (utf8 "null")
  | some v =>
    match enc.cfg.reflectedEncoder v with
    | .error err => .error err
    | .ok bs => .ok (trimNewline bs)

/-- `closeOpenNamespaces`. -/
def closeOpenNamespaces (enc : JsonEncoder) : JsonEncoder :=
  { enc.write (List.replicate enc.openNamespaces 0x7D) with openNamespaces := 0 }

/-- The result of a method that runs a marshaler: `none` when it panics. -/
abbrev Result := Option (JsonEncoder × Option Bytes)

/-- `AppendArray`; `marshal` is `arr.MarshalLogArray`. -/
def appendArray (enc : JsonEncoder) (marshal : JsonEncoder → Result) : Result := do
  let (enc, err) ← marshal (enc.addElementSeparator.write [0x5B])
  some (enc.write [0x5D], err)

/-- `AppendObject`; `marshal` is `obj.MarshalLogObject`. -/
def appendObject (enc : JsonEncoder) (marshal : JsonEncoder → Result) : Result := do
  let old := enc.openNamespaces
  let enc := { enc with openNamespaces := 0 }
  let (enc, err) ← marshal (enc.addElementSeparator.write [0x7B])
  let enc := (enc.write [0x7D]).closeOpenNamespaces
  some ({ enc with openNamespaces := old }, err)

/-- `OpenNamespace`. -/
def openNamespace (enc : JsonEncoder) (key : Bytes) : JsonEncoder :=
  let enc := (enc.addKey key).write [0x7B]
  { enc with openNamespaces := enc.openNamespaces + 1 }

/-- Run a marshaler on the encoder. -/
def run : {i : Interface} → Marshaler i → JsonEncoder → Result
  | _, .done err, enc => some (enc, err)
  | _, .panic, _ => none
  | _, .add key s next, enc => run next ((enc.addKey key).appendScalar s)
  | _, .addBinary key val next, enc => run next ((enc.addKey key).appendString (base64 val))
  | _, .addReflected key val next, enc =>
    match enc.encodeReflected val with
    | .error err => run (next (some err)) enc
    | .ok bs => run (next none) ((enc.addKey key).write bs)
  | _, .addArray key arr next, enc => do
    let (enc, err) ← (enc.addKey key).appendArray (run arr)
    run (next err) enc
  | _, .addObject key obj next, enc => do
    let (enc, err) ← (enc.addKey key).appendObject (run obj)
    run (next err) enc
  | _, .openNamespace key next, enc => run next (enc.openNamespace key)
  | _, .append s next, enc => run next (enc.appendScalar s)
  | _, .appendReflected val next, enc =>
    match enc.encodeReflected val with
    | .error err => run (next (some err)) enc
    | .ok bs => run (next none) (enc.addElementSeparator.write bs)
  | _, .appendArray arr next, enc => do
    let (enc, err) ← enc.appendArray (run arr)
    run (next err) enc
  | _, .appendObject obj next, enc => do
    let (enc, err) ← enc.appendObject (run obj)
    run (next err) enc

/-- `addFields(enc, fields)`. -/
def addFields [Host] (enc : JsonEncoder) (fields : List Field) : Option JsonEncoder := do
  let (enc, _) ← run (Zapcore.addFields fields) enc
  some enc

/-! ### Entries -/

/-- `clone`: the buffer of the copy is empty. -/
def clone (enc : JsonEncoder) : JsonEncoder := { enc with buf := [] }

/-- The level of an entry. -/
def encodeLevel (enc : JsonEncoder) (ent : Entry) : JsonEncoder :=
  match enc.cfg.encodeLevel with
  | some e =>
    if enc.cfg.levelKey ≠ [] then
      (enc.addKey enc.cfg.levelKey).appendCalls ((e ent.level).map .prim)
        (.string (Level.string ent.level))
    else enc
  | none => enc

/-- The time of an entry. -/
def encodeTime (enc : JsonEncoder) (ent : Entry) : JsonEncoder :=
  if enc.cfg.timeKey ≠ [] ∧ !ent.time.isZero then
    (enc.addKey enc.cfg.timeKey).appendTime ent.time
  else enc

/-- The logger name of an entry. -/
def encodeName (enc : JsonEncoder) (ent : Entry) : JsonEncoder :=
  if ent.loggerName ≠ [] ∧ enc.cfg.nameKey ≠ [] then
    (enc.addKey enc.cfg.nameKey).appendCalls ((enc.cfg.nameEncoder ent.loggerName).map .prim)
      (.string ent.loggerName)
  else enc

/-- The caller of an entry. Here the encoding function is called without asking whether it is
nil. -/
def encodeCaller (enc : JsonEncoder) (ent : Entry) : Option JsonEncoder :=
  if ent.caller.defined ∧ enc.cfg.callerKey ≠ [] then
    match enc.cfg.encodeCaller with
    | some e =>
      some ((enc.addKey enc.cfg.callerKey).appendCalls ((e ent.caller).map .prim)
        (.string ent.caller.fullPath))
    | none => none
  else some enc

/-- The calling function of an entry. -/
def encodeFunction (enc : JsonEncoder) (ent : Entry) : JsonEncoder :=
  if ent.caller.defined ∧ enc.cfg.functionKey ≠ [] then
    (enc.addKey enc.cfg.functionKey).appendString ent.caller.function
  else enc

/-- The message of an entry. -/
def encodeMessage (enc : JsonEncoder) (ent : Entry) : JsonEncoder :=
  if enc.cfg.messageKey ≠ [] then (enc.addKey enc.cfg.messageKey).appendString ent.message
  else enc

/-- The opening brace of an entry and its metadata. -/
def encodeMetadata (enc : JsonEncoder) (ent : Entry) : Option JsonEncoder := do
  let final := (((enc.clone.write [0x7B]).encodeLevel ent).encodeTime ent).encodeName ent
  let final ← final.encodeCaller ent
  some ((final.encodeFunction ent).encodeMessage ent)

/-- Splice the context that was encoded before behind the metadata. -/
def spliceContext (final : JsonEncoder) (context : Bytes) : JsonEncoder :=
  if context ≠ [] then final.addElementSeparator.write context else final

/-- The stack trace of an entry. -/
def encodeStack (enc : JsonEncoder) (ent : Entry) : JsonEncoder :=
  if ent.stack ≠ [] ∧ enc.cfg.stacktraceKey ≠ [] then
    (enc.addKey enc.cfg.stacktraceKey).appendString ent.stack
  else enc

/-- `EncodeEntry`: the bytes of the returned buffer. It never returns an error. -/
def encodeEntry [Host] (enc : JsonEncoder) (ent : Entry) (fields : List Field) :
    Option Bytes := do
  let final ← enc.encodeMetadata ent
  let final ← (final.spliceContext enc.buf).addFields fields
  let final := final.closeOpenNamespaces.encodeStack ent
  some (final.write ([0x7D] ++ final.cfg.lineEnding)).buf

end JsonEncoder

end Zap.Zapcore
