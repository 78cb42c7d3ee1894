import Zap.Zapcore.JsonEncoder

/-!
# Time encoders from layouts and configurations

A layout is a string, in which `nextStdChunk` of Go's `time` package finds the standard elements; all
else is literal text. `Time.format` is `t.Format(layout)`.

`TimeEncoderOfLayout` and the `Unmarshal` methods of `TimeEncoder` in `zapcore/encoder.go` take such
strings, any string at all.
-/

set_option autoImplicit false

namespace Zap.Time

open Data

/-! ## Layout strings -/

/-- `startsWithLowerCase`. -/
def startsWithLowerCase : Bytes → Bool
  | [] => false
  | c :: _ => decide (0x61 ≤ c) && decide (c ≤ 0x7A)

/-- The zone forms behind a sign or a `Z`, with their lengths. -/
def zoneAt (s : Bytes) : Option (ZoneForm × Nat) :=
  if (utf8 "070000").isPrefixOf s then some (.hhmmss, 7)
  else if (utf8 "07:00:00").isPrefixOf s then some (.hhColonMmColonSs, 9)
  else if (utf8 "0700").isPrefixOf s then some (.hhmm, 5)
  else if (utf8 "07:00").isPrefixOf s then some (.hhColonMm, 6)
  else if (utf8 "07").isPrefixOf s then some (.hh, 3)
  else none

/-- Fractional seconds behind the byte `c`: a run of one digit, zero or nine, with no other digit
after it. -/
def fractionAt (c : UInt8) (s : Bytes) : Option (Std × Nat) :=
  match s with
  | [] => none
  | ch :: _ =>
    let digits := (s.takeWhile (· == ch)).length
    let more := (s.drop digits).head?.any isDigit
    if more then none
    else if ch = 0x30 then some (.fracSecond0 c digits, digits + 1)
    else if ch = 0x39 then some (.fracSecond9 c digits, digits + 1)
    else none

/-- The standard element at the front of a string, and its length: the `switch` of
`nextStdChunk`. -/
def stdAt : Bytes → Option (Std × Nat)
  | [] => none
  | c :: rest =>
    if c = 0x4A then
      if (utf8 "anuary").isPrefixOf rest then some (.longMonth, 7)
      else if (utf8 "an").isPrefixOf rest && !startsWithLowerCase (rest.drop 2) then
        some (.month, 3)
      else none
    else if c = 0x4D then
      if (utf8 "onday").isPrefixOf rest then some (.longWeekDay, 6)
      else if (utf8 "on").isPrefixOf rest && !startsWithLowerCase (rest.drop 2) then
        some (.weekDay, 3)
      else if (utf8 "ST").isPrefixOf rest then some (.tz, 3)
      else none
    else if c = 0x30 then
      match rest with
      | 0x31 :: _ => some (.zeroMonth, 2)
      | 0x32 :: _ => some (.zeroDay, 2)
      | 0x33 :: _ => some (.zeroHour12, 2)
      | 0x34 :: _ => some (.zeroMinute, 2)
      | 0x35 :: _ => some (.zeroSecond, 2)
      | 0x36 :: _ => some (.year, 2)
      | 0x30 :: 0x32 :: _ => some (.zeroYearDay, 3)
      | _ => none
    else if c = 0x31 then
      if (utf8 "5").isPrefixOf rest then some (.hour, 2) else some (.numMonth, 1)
    else if c = 0x32 then
      if (utf8 "006").isPrefixOf rest then some (.longYear, 4) else some (.day, 1)
    else if c = 0x5F then
      -- in `_2006` the underscore is literal text
      if (utf8 "2006").isPrefixOf rest then none
      else if (utf8 "2").isPrefixOf rest then some (.underDay, 2)
      else if (utf8 "_2").isPrefixOf rest then some (.underYearDay, 3)
      else none
    else if c = 0x33 then some (.hour12, 1)
    else if c = 0x34 then some (.minute, 1)
    else if c = 0x35 then some (.second, 1)
    else if c = 0x50 then if (utf8 "M").isPrefixOf rest then some (.PM, 2) else none
    else if c = 0x70 then if (utf8 "m").isPrefixOf rest then some (.pm, 2) else none
    else if c = 0x2D then (zoneAt rest).map fun z => (.zone false z.1, z.2)
    else if c = 0x5A then (zoneAt rest).map fun z => (.zone true z.1, z.2)
    else if c = 0x2E ∨ c = 0x2C then fractionAt c rest
    else none

/-- Literal text, if there is any. -/
def literalChunk (text : Bytes) : Layout := if text = [] then [] else [.literal text]

/-- The scan behind `ofString`: `skip` bytes still belong to the element found last, and `text` is
the literal text since then. -/
def chunksFrom : Nat → Bytes → Bytes → Layout
  | _, text, [] => literalChunk text
  | skip + 1, text, _ :: rest => chunksFrom skip text rest
  | 0, text, b :: rest =>
    match stdAt (b :: rest) with
    | some (s, n) => literalChunk text ++ .std s :: chunksFrom (n - 1) [] rest
    | none => chunksFrom 0 (text ++ [b]) rest

/-- The chunks of a layout string. -/
def Layout.ofString (layout : Bytes) : Layout := chunksFrom 0 [] layout

/-- `t.Format(layout)`. -/
def format (t : Time) (layout : Bytes) : Bytes := t.appendFormat (Layout.ofString layout)

example : Layout.ofString (utf8 "2006-01-02T15:04:05.000Z0700") = iso8601 := rfl

example : Layout.ofString (utf8 "2006-01-02T15:04:05.999999999Z07:00") = rfc3339Nano := rfl

end Zap.Time

namespace Zap.Zapcore.TimeEncoder

open Data

/-! ## Configurations -/

/-- `UnmarshalText`. -/
def unmarshalText (text : Bytes) : TimeEncoder :=
  if text = utf8 "rfc3339nano" ∨ text = utf8 "RFC3339Nano" then rfc3339NanoTimeEncoder
  else if text = utf8 "rfc3339" ∨ text = utf8 "RFC3339" then rfc3339TimeEncoder
  else if text = utf8 "iso8601" ∨ text = utf8 "ISO8601" then iso8601TimeEncoder
  else if text = utf8 "millis" then epochMillisTimeEncoder
  else if text = utf8 "nanos" then epochNanosTimeEncoder
  else epochTimeEncoder

/-- `UnmarshalYAML` and `UnmarshalJSON`. What is unmarshaled can be read as an object, whose key
`layout` has a string, or as a string, or the reader fails. -/
def unmarshalYAML (object string : Except Bytes Bytes) : Except Bytes TimeEncoder :=
  match object with
  | .ok layout => .ok (timeEncoderOfLayout (Time.Layout.ofString layout))
  | .error _ =>
    match string with
    | .ok text => .ok (unmarshalText text)
    | .error err => .error err

end Zap.Zapcore.TimeEncoder
