import Zap.Time

/-!
# Levels and entries

`zapcore/level.go`, `zapcore/level_strings.go` and the data part of `zapcore/entry.go`. A level
is any 8-bit value, as in Go: the named levels are seven of them. The program counter of a
caller is left out, since no encoder or core reads it.
-/

set_option autoImplicit false

namespace Zap.Zapcore

open Data

/-- A logging priority. -/
abbrev Level := Int8

namespace Level

def debug : Level := -1
def info : Level := 0
def warn : Level := 1
def error : Level := 2
def dpanic : Level := 3
def panic : Level := 4
def fatal : Level := 5

/-- `_minLevel`. -/
def min : Level := debug

/-- `_maxLevel`. -/
def max : Level := fatal

/-- `InvalidLevel`. -/
def invalid : Level := 6

/-- `l.String()`. -/
def string (l : Level) : Bytes :=
  if l = debug then utf8 "debug"
  else if l = info then utf8 "info"
  else if l = warn then utf8 "warn"
  else if l = error then utf8 "error"
  else if l = dpanic then utf8 "dpanic"
  else if l = panic then utf8 "panic"
  else if l = fatal then utf8 "fatal"
  else utf8 "Level(" ++ (intDecimal l.toInt ++ utf8 ")")

/-- `l.CapitalString()`. -/
def capitalString (l : Level) : Bytes :=
  if l = debug then utf8 "DEBUG"
  else if l = info then utf8 "INFO"
  else if l = warn then utf8 "WARN"
  else if l = error then utf8 "ERROR"
  else if l = dpanic then utf8 "DPANIC"
  else if l = panic then utf8 "PANIC"
  else if l = fatal then utf8 "FATAL"
  else utf8 "LEVEL(" ++ (intDecimal l.toInt ++ utf8 ")")

/-- The terminal colours that levels are printed in: `color.Red`, `Yellow`, `Blue` and
`Magenta`. -/
inductive Color where
  | red
  | yellow
  | blue
  | magenta

/-- The number of a colour in an escape sequence. -/
def Color.code : Color → Nat
  | .red => 31
  | .yellow => 33
  | .blue => 34
  | .magenta => 35

/-- `c.Add(s)`: `s` between the escape sequences that switch the colour on and off. -/
def Color.add (c : Color) (s : Bytes) : Bytes :=
  0x1B :: 0x5B :: (natDecimal c.code ++ 0x6D :: (s ++ 0x1B :: utf8 "[0m"))

/-- `_levelToColor`, and `_unknownLevelColor` for every other level. -/
def color (l : Level) : Color :=
  if l = debug then .magenta
  else if l = info then .blue
  else if l = warn then .yellow
  else .red

end Level

/-- The caller of a logging function. -/
structure EntryCaller where
  defined : Bool
  file : Bytes
  line : Int
  function : Bytes

namespace EntryCaller

/-- `strings.LastIndexByte`. -/
def lastIndexByte (s : Bytes) (c : UInt8) : Option Nat :=
  (s.reverse.findIdx? (· == c)).map (s.length - 1 - ·)

/-- A file and line, as both paths end. -/
def fileLine (file : Bytes) (line : Int) : Bytes := file ++ 0x3A :: intDecimal line

/-- `ec.FullPath()`, which is also `ec.String()`. -/
def fullPath (ec : EntryCaller) : Bytes :=
  if !ec.defined then utf8 "undefined" else fileLine ec.file ec.line

/-- `ec.TrimmedPath()`: only the leaf directory and the file name. -/
def trimmedPath (ec : EntryCaller) : Bytes :=
  if !ec.defined then utf8 "undefined"
  else
    match lastIndexByte ec.file 0x2F with
    | none => ec.fullPath
    | some idx =>
      match lastIndexByte (ec.file.take idx) 0x2F with
      | none => ec.fullPath
      | some idx => fileLine (ec.file.drop (idx + 1)) ec.line

end EntryCaller

/-- A log message without its fields. -/
structure Entry where
  level : Level
  time : Time
  loggerName : Bytes
  message : Bytes
  caller : EntryCaller
  stack : Bytes

end Zap.Zapcore
