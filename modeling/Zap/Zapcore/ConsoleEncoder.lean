import Zap.Zapcore.JsonEncoder

/-!
# The console encoder

`zapcore/console_encoder.go`. The metadata of an entry is collected in a slice and printed with
`fmt.Fprint`; the fields are encoded by the JSON encoder the console encoder embeds, with spaces
after its colons and commas.
-/

set_option autoImplicit false

namespace Zap.Zapcore

open Data

/-! ## Printing -/

/-- The text of `q * 10 ^ k` in format `'e'`. -/
def fmtE (q : Nat) (k : Int) : Bytes :=
  let ds := natDecimal q
  let exp := ds.length + k - 1
  let digits := natDecimal exp.natAbs
  let mantissa := if ds.length = 1 then ds else ds.take 1 ++ 0x2E :: ds.drop 1
  mantissa ++ 0x65 :: (if exp < 0 then 0x2D else 0x2B) ::
    (if digits.length < 2 then 0x30 :: digits else digits)

/-- A float with the verb `%v`, `plus` asking for a sign in any case. -/
def fmtFloat (flt : FloatInfo) (f : FloatValue) (plus : Bool) : Bytes :=
  let sign (neg : Bool) : Bytes := if neg then [0x2D] else if plus then [0x2B] else []
  match f with
  | .nan => sign false ++ utf8 "NaN"
  | .inf neg => flt.format (.inf neg)
  | .finite neg mant exp =>
    if mant = 0 then sign neg ++ [0x30]
    else
      let (q, k) := flt.shortest mant exp
      let x := (natDecimal q).length + k - 1
      sign neg ++ if x < -4 ∨ 6 ≤ x then fmtE q k else fmtF q k

/-- A complex number with the verb `%v`. -/
def fmtComplex (flt : FloatInfo) (re im : FloatValue) : Bytes :=
  0x28 :: (fmtFloat flt re false ++ (fmtFloat flt im true ++ utf8 "i)"))

/-- What `fmt.Fprint` prints of a value that `sliceArrayEncoder` collected. -/
def fprint : AppendCall → Bytes
  | .prim (.bool b) => if b then utf8 "true" else utf8 "false"
  | .prim (.byteString bs) => bs
  | .prim (.complex128 re im) => fmtComplex float64info (Binary64.decode re) (Binary64.decode im)
  | .prim (.complex64 re im) =>
    fmtComplex float32info (float32info.decode re.toNat) (float32info.decode im.toNat)
  | .prim (.float64 f) => fmtFloat float64info (Binary64.decode f) false
  | .prim (.float32 f) => fmtFloat float32info (float32info.decode f.toNat) false
  | .prim (.int _ i) => intDecimal i.toInt
  | .prim (.string s) => s
  | .prim (.uint _ u) => natDecimal u.toNat
  -- the slice encoder has no `AppendTimeLayout`: it is given the formatted string
  | .timeLayout t layout => t.appendFormat layout

/-! ## The encoder -/

structure ConsoleEncoder where
  json : JsonEncoder

/-- `NewConsoleEncoder`. -/
def newConsoleEncoder (cfg : EncoderConfig) : ConsoleEncoder :=
  let separator := if cfg.consoleSeparator = [] then [0x09] else cfg.consoleSeparator
  ⟨newJSONEncoder { cfg with consoleSeparator := separator } true⟩

namespace ConsoleEncoder

/-- `addFields(enc, fields)`: the embedded JSON encoder's methods. -/
def addFields [Host] (c : ConsoleEncoder) (fields : List Field) : Option ConsoleEncoder := do
  let json ← c.json.addFields fields
  some ⟨json⟩

/-- The values that the encoding functions append for the metadata of an entry. -/
def metadata (c : ConsoleEncoder) (ent : Entry) : List AppendCall :=
  let cfg := c.json.cfg
  let time := if cfg.timeKey ≠ [] ∧ !ent.time.isZero then cfg.timeCalls ent.time else []
  let level :=
    match cfg.encodeLevel with
    | some e => if cfg.levelKey ≠ [] then (e ent.level).map .prim else []
    | none => []
  let name :=
    if ent.loggerName ≠ [] ∧ cfg.nameKey ≠ [] then
      (cfg.nameEncoder ent.loggerName).map .prim
    else []
  let caller :=
    match cfg.encodeCaller with
    | some e =>
      if ent.caller.defined ∧ cfg.callerKey ≠ [] then (e ent.caller).map .prim else []
    | none => []
  let function :=
    if ent.caller.defined ∧ cfg.functionKey ≠ [] then [.prim (.string ent.caller.function)]
    else []
  time ++ (level ++ (name ++ (caller ++ function)))

/-- `addSeparatorIfNecessary`. -/
def addSeparatorIfNecessary (c : ConsoleEncoder) (line : Bytes) : Bytes :=
  if line ≠ [] then line ++ c.json.cfg.consoleSeparator else line

/-- `writeContext`. -/
def writeContext [Host] (c : ConsoleEncoder) (line : Bytes) (extra : List Field) :
    Option Bytes := do
  let context ← c.json.addFields extra
  let context := context.closeOpenNamespaces
  if context.buf = [] then some line
  else some (c.addSeparatorIfNecessary line ++ 0x7B :: (context.buf ++ [0x7D]))

/-- `EncodeEntry`: the bytes of the returned buffer. It never returns an error. -/
def encodeEntry [Host] (c : ConsoleEncoder) (ent : Entry) (fields : List Field) :
    Option Bytes := do
  let cfg := c.json.cfg
  let line := cfg.consoleSeparator.intercalate ((c.metadata ent).map fprint)
  let line :=
    if cfg.messageKey ≠ [] then c.addSeparatorIfNecessary line ++ ent.message else line
  let line ← c.writeContext line fields
  let line := if ent.stack ≠ [] ∧ cfg.stacktraceKey ≠ [] then line ++ 0x0A :: ent.stack else line
  some (line ++ cfg.lineEnding)

end ConsoleEncoder

end Zap.Zapcore
