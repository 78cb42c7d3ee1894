import Zap.Data.Bytes

/-!
# Instants, durations and their texts

The part of Go's `time` package that the encoders use. A `Time` is a number of seconds and
nanoseconds since the Unix epoch together with a location; `unixNano` wraps to 64 bits as Go's
does. A layout is kept as the sequence of chunks into which `nextStdChunk` splits a layout
string: literal text, and the standard elements that `AppendFormat` replaces.
-/

set_option autoImplicit false

namespace Zap

open Data

/-- A `time.Duration`: nanoseconds. -/
abbrev Duration := Int64

/-- The rule in force at an instant: the zone's abbreviation and its seconds east of UTC. -/
structure Zone where
  name : Bytes
  offset : Int

/-- A `*time.Location`: the zone in force at each instant, in Unix seconds. -/
structure Location where
  lookup : Int → Zone

/-- `time.UTC`. -/
def Location.utc : Location := ⟨fun _ => ⟨utf8 "UTC", 0⟩⟩

/-- What the package reads from the process environment: `time.Local`. -/
class Host where
  localLocation : Location

/-- A `time.Time`. -/
structure Time where
  sec : Int
  nsec : Nat
  loc : Location
  nsec_lt : nsec < 1000000000

namespace Time

/-- `time.Unix(0, n).In(loc)`. -/
def ofUnixNano (n : Int) (loc : Location) : Time where
  sec := n / 1000000000
  nsec := (n % 1000000000).toNat
  loc := loc
  nsec_lt := by omega

/-- `t.UnixNano()`, modulo `2 ^ 64`. -/
def unixNano (t : Time) : Int64 := Int64.ofInt (t.sec * 1000000000 + t.nsec)

/-- `t.IsZero()`: the first instant of year 1, UTC. -/
def isZero (t : Time) : Bool := t.sec == -62135596800 && t.nsec == 0

/-! ## Calendar -/

/-- `absoluteZeroYear`. -/
def absoluteZeroYear : Int := -292277022399

/-- Seconds from the absolute zero year to the instant, shifted by the zone: `t.abs()`. -/
def abs (t : Time) : Nat :=
  ((t.sec + (t.loc.lookup t.sec).offset + 62135596800 + 9223371966579724800) % 2 ^ 64).toNat

/-- A calendar date: year, month from 1, day from 1, and day of the year from 0. -/
structure Date where
  year : Int
  month : Nat
  day : Nat
  yday : Nat

/-- `isLeap`. -/
def isLeap (year : Int) : Bool := year % 4 == 0 && (year % 100 != 0 || year % 400 == 0)

/-- `daysBefore`: days of a common year before each month. -/
def daysBefore (m : Nat) : Nat :=
  [0, 31, 59, 90, 120, 151, 181, 212, 243, 273, 304, 334, 365].getD m 0

/-- Month and day of a day of the year. -/
def monthDay (leap : Bool) (yday : Nat) : Nat × Nat :=
  if leap ∧ yday = 59 then (2, 29)
  else
    let day := if leap ∧ 59 < yday then yday - 1 else yday
    let month := day / 31
    let «end» := daysBefore (month + 1)
    if «end» ≤ day then (month + 2, day - «end» + 1) else (month + 1, day - daysBefore month + 1)

/-- `absDate`: cut off 400-year, 100-year, 4-year and 1-year cycles. -/
def date (abs : Nat) : Date :=
  let d := abs / 86400
  let n400 := d / 146097
  let d := d - 146097 * n400
  let n100 := d / 36524 - d / 36524 / 4
  let d := d - 36524 * n100
  let n4 := d / 1461
  let d := d - 1461 * n4
  let n1 := d / 365 - d / 365 / 4
  let d := d - 365 * n1
  let year := (400 * n400 + 100 * n100 + 4 * n4 + n1 : Nat) + absoluteZeroYear
  let (month, day) := monthDay (isLeap year) d
  ⟨year, month, day, d⟩

/-! ## Layouts -/

/-- How a zone offset is written. -/
inductive ZoneForm where
  | hhmm
  | hhColonMm
  | hh
  | hhmmss
  | hhColonMmColonSs

/-- The standard elements of a layout. -/
inductive Std where
  | longMonth
  | month
  | numMonth
  | zeroMonth
  | longWeekDay
  | weekDay
  | day
  | underDay
  | zeroDay
  | underYearDay
  | zeroYearDay
  | hour
  | hour12
  | zeroHour12
  | minute
  | zeroMinute
  | second
  | zeroSecond
  | longYear
  | year
  | PM
  | pm
  | tz
  | zone (iso8601 : Bool) (form : ZoneForm)
  | fracSecond0 (separator : UInt8) (digits : Nat)
  | fracSecond9 (separator : UInt8) (digits : Nat)

/-- A chunk of a layout string. -/
inductive Chunk where
  | literal (text : Bytes)
  | std (s : Std)

/-- A layout string, split by `nextStdChunk`. -/
abbrev Layout := List Chunk

/-- `appendInt`: a sign, and the digits padded with zeros to a width. -/
def appendInt (x : Int) (width : Nat) : Bytes :=
  let digits := natDecimal x.natAbs
  (if x < 0 then [0x2D] else []) ++ (List.replicate (width - digits.length) 0x30 ++ digits)

/-- `longMonthNames`. -/
def monthNames : List Bytes :=
  [utf8 "January", utf8 "February", utf8 "March", utf8 "April", utf8 "May", utf8 "June",
    utf8 "July", utf8 "August", utf8 "September", utf8 "October", utf8 "November",
    utf8 "December"]

/-- `longDayNames`. -/
def dayNames : List Bytes :=
  [utf8 "Sunday", utf8 "Monday", utf8 "Tuesday", utf8 "Wednesday", utf8 "Thursday",
    utf8 "Friday", utf8 "Saturday"]

/-- Cut trailing zeros. -/
def trimZeros (ds : Bytes) : Bytes := (ds.reverse.dropWhile (· == 0x30)).reverse

/-- `appendNano` with its digits cut at `digits` and, when `trim` is set, without trailing
zeros. -/
def appendNano (nsec : Nat) (trim : Bool) (separator : UInt8) (digits : Nat) : Bytes :=
  if trim ∧ (digits = 0 ∨ nsec = 0) then []
  else
    let ds := (padDecimal 9 nsec).take digits
    if trim then
      let ds := trimZeros ds
      if ds = [] then [] else separator :: ds
    else separator :: ds

/-- The digits of a zone offset after its sign. The sign is that of the whole minutes, so an offset of
less than a minute keeps its own in the seconds. -/
def zoneDigits (form : ZoneForm) (offset : Int) : Bytes :=
  let zone : Int := (offset.tdiv 60).natAbs
  let absoffset := if offset.tdiv 60 < 0 then -offset else offset
  let hours := appendInt (zone / 60) 2
  let minutes := appendInt (zone % 60) 2
  let seconds := appendInt (absoffset.tmod 60) 2
  match form with
  | .hhmm => hours ++ minutes
  | .hhColonMm => hours ++ 0x3A :: minutes
  | .hh => hours
  | .hhmmss => hours ++ (minutes ++ seconds)
  | .hhColonMmColonSs => hours ++ 0x3A :: (minutes ++ 0x3A :: seconds)

/-- A zone offset; the ISO 8601 forms write UTC as `Z`. -/
def appendZone (iso8601 : Bool) (form : ZoneForm) (offset : Int) : Bytes :=
  if iso8601 ∧ offset = 0 then [0x5A]
  else (if offset.tdiv 60 < 0 then 0x2D else 0x2B) :: zoneDigits form offset

/-- The text of one standard element. -/
def appendStd (t : Time) (s : Std) : Bytes :=
  let d := date t.abs
  let secs := t.abs % 86400
  let hour := secs / 3600
  let hr12 := if hour % 12 = 0 then 12 else hour % 12
  let zone := t.loc.lookup t.sec
  match s with
  | .longMonth => monthNames.getD (d.month - 1) []
  | .month => (monthNames.getD (d.month - 1) []).take 3
  | .numMonth => appendInt d.month 0
  | .zeroMonth => appendInt d.month 2
  | .longWeekDay => dayNames.getD ((t.abs / 86400 + 1) % 7) []
  | .weekDay => (dayNames.getD ((t.abs / 86400 + 1) % 7) []).take 3
  | .day => appendInt d.day 0
  | .underDay => (if d.day < 10 then [0x20] else []) ++ appendInt d.day 0
  | .zeroDay => appendInt d.day 2
  | .underYearDay =>
    (if d.yday + 1 < 100 then if d.yday + 1 < 10 then [0x20, 0x20] else [0x20] else []) ++
      appendInt (d.yday + 1 : Nat) 0
  | .zeroYearDay => appendInt (d.yday + 1 : Nat) 3
  | .hour => appendInt hour 2
  | .hour12 => appendInt hr12 0
  | .zeroHour12 => appendInt hr12 2
  | .minute => appendInt (secs % 3600 / 60 : Nat) 0
  | .zeroMinute => appendInt (secs % 3600 / 60 : Nat) 2
  | .second => appendInt (secs % 60 : Nat) 0
  | .zeroSecond => appendInt (secs % 60 : Nat) 2
  | .longYear => appendInt d.year 4
  -- what the last two digits of a negative year are differs between versions of Go
  | .year => appendInt (max d.year 0 % 100) 2
  | .PM => if 12 ≤ hour then utf8 "PM" else utf8 "AM"
  | .pm => if 12 ≤ hour then utf8 "pm" else utf8 "am"
  | .tz => if zone.name = [] then appendZone false .hhmm zone.offset else zone.name
  | .zone iso8601 form => appendZone iso8601 form zone.offset
  | .fracSecond0 separator digits => appendNano t.nsec false separator digits
  | .fracSecond9 separator digits => appendNano t.nsec true separator digits

/-- `t.AppendFormat(nil, layout)`. -/
def appendFormat (t : Time) : Layout → Bytes
  | [] => []
  | .literal text :: rest => text ++ t.appendFormat rest
  | .std s :: rest => t.appendStd s ++ t.appendFormat rest

/-- The chunks common to the two layouts below: `2006-01-02T15:04:05`. -/
def dateTime : Layout :=
  [.std .longYear, .literal [0x2D], .std .zeroMonth, .literal [0x2D], .std .zeroDay,
    .literal [0x54], .std .hour, .literal [0x3A], .std .zeroMinute, .literal [0x3A],
    .std .zeroSecond]

/-- `2006-01-02T15:04:05.000Z0700`. -/
def iso8601 : Layout := dateTime ++ [.std (.fracSecond0 0x2E 3), .std (.zone true .hhmm)]

/-- `time.RFC3339`: `2006-01-02T15:04:05Z07:00`. -/
def rfc3339 : Layout := dateTime ++ [.std (.zone true .hhColonMm)]

/-- `time.RFC3339Nano`: `2006-01-02T15:04:05.999999999Z07:00`. -/
def rfc3339Nano : Layout := dateTime ++ [.std (.fracSecond9 0x2E 9), .std (.zone true .hhColonMm)]

end Time

namespace Duration

/-- `fmtFrac`: the fraction of `u / 10 ^ prec` without trailing zeros, and without its point
when nothing is left of it. -/
def fmtFrac (u prec : Nat) : Bytes :=
  let ds := Time.trimZeros (padDecimal prec (u % 10 ^ prec))
  if ds = [] then [] else 0x2E :: ds

/-- A duration below one second in one unit. -/
def small (u prec : Nat) (unit : Bytes) : Bytes :=
  natDecimal (u / 10 ^ prec) ++ (fmtFrac u prec ++ unit)

/-- Hours, minutes and seconds of a duration of at least one second. -/
def large (u : Nat) : Bytes :=
  let s := u / 1000000000
  let m := s / 60
  let h := m / 60
  (if 0 < h then natDecimal h ++ [0x68] else []) ++
    ((if 0 < m then natDecimal (m % 60) ++ [0x6D] else []) ++
      (natDecimal (s % 60) ++ (fmtFrac u 9 ++ [0x73])))

/-- `d.String()`. -/
def string (d : Duration) : Bytes :=
  let u := d.toInt.natAbs
  (if d.toInt < 0 then [0x2D] else []) ++
    if u = 0 then utf8 "0s"
    else if u < 1000 then small u 0 (utf8 "ns")
    else if u < 1000000 then small u 3 [0xC2, 0xB5, 0x73]
    else if u < 1000000000 then small u 6 (utf8 "ms")
    else large u

end Duration

end Zap
