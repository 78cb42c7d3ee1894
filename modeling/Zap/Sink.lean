import Zap.Data.Casing
import Zap.Writer

/-!
# Sinks by scheme

`sink.go`: a registry of factories by the scheme of a URL. `url.Parse`, the file system and the
platform are the affair of `Platform`. A factory may know what happened before it is called, as
`newSink` may; sinks are known by their numbers.
-/

set_option autoImplicit false

namespace Zap

open Data Zapcore

/-- What is read of a `url.URL`; `text` is how `%v` prints it. -/
structure URL where
  scheme : Bytes
  user : Option Bytes
  fragment : Bytes
  rawQuery : Bytes
  port : Bytes
  hostname : Bytes
  path : Bytes
  text : Bytes

/-- Flags of `os.OpenFile`. -/
inductive OpenFlag where
  | wronly
  | append
  | create

/-- `url.Parse`, `filepath.IsAbs`, `os.OpenFile` and the standard streams; `quote` and `quoteByte`
are how `%q` prints a string and a byte. -/
class Platform where
  parse : Bytes → Except Bytes URL
  isAbs : Bytes → Bool
  openFile : List DeviceEvent → Bytes → List OpenFlag → Nat → Except Bytes Nat
  stdout : Nat
  stderr : Nat
  quote : Bytes → Bytes
  quoteByte : UInt8 → Bytes

/-- What opens the sinks of a scheme. -/
abbrev Factory := List DeviceEvent → URL → Except Bytes Nat

/-- `sinkRegistry`: the factories by scheme. -/
structure SinkRegistry where
  factories : Bytes → Option Factory

/-- `schemeFile`. -/
def schemeFile : Bytes := utf8 "file"

/-- May the byte stand in a scheme, in lower case, after the first? -/
def schemeByte (c : UInt8) : Bool :=
  (0x61 ≤ c && c ≤ 0x7A) || (0x30 ≤ c && c ≤ 0x39) || c == 0x2E || c == 0x2B || c == 0x2D

section

variable [Casing] [Platform]

/-- The loop of `normalizeScheme`, over bytes and not runes. -/
def checkScheme : Bytes → Option Bytes
  | [] => none
  | c :: rest =>
    if schemeByte c then checkScheme rest else some (utf8 "may not contain " ++ Platform.quoteByte c)

/-- `normalizeScheme`. It looks at the first byte, so that its argument may not be empty. -/
def normalizeScheme (s : Bytes) (hs : s ≠ []) : Except Bytes Bytes :=
  let first := (toLower s).head (toLower_ne_nil hs)
  if first < 0x61 ∨ 0x7A < first then .error (utf8 "must start with a letter")
  else
    match checkScheme (toLower s).tail with
    | some err => .error err
    | none => .ok (toLower s)

/-- `sr.newFileSinkFromPath(path)`. -/
def newFileSinkFromPath (tr : List DeviceEvent) (path : Bytes) : Except Bytes Nat :=
  if path = utf8 "stdout" then .ok Platform.stdout
  else if path = utf8 "stderr" then .ok Platform.stderr
  else Platform.openFile tr path [.wronly, .append, .create] 0o666

/-- `sr.newFileSinkFromURL(u)`. -/
def newFileSinkFromURL : Factory := fun tr u =>
  if u.user.isSome then
    .error (utf8 "user and password not allowed with file URLs: got " ++ u.text)
  else if u.fragment ≠ [] then .error (utf8 "fragments not allowed with file URLs: got " ++ u.text)
  else if u.rawQuery ≠ [] then
    .error (utf8 "query parameters not allowed with file URLs: got " ++ u.text)
  else if u.port ≠ [] then .error (utf8 "ports not allowed with file URLs: got " ++ u.text)
  else if u.hostname ≠ [] ∧ u.hostname ≠ utf8 "localhost" then
    .error (utf8 "file URLs must leave host empty or use localhost: got " ++ u.text)
  else newFileSinkFromPath tr u.path

namespace SinkRegistry

/-- `sr.RegisterSink(scheme, factory)`. -/
def registerSink (sr : SinkRegistry) (scheme : Bytes) (factory : Factory) :
    Option Bytes × SinkRegistry :=
  if h : scheme = [] then (some (utf8 "can't register a sink factory for empty string"), sr)
  else
    match normalizeScheme scheme h with
    | .error err => (some (Platform.quote scheme ++ utf8 " is not a valid scheme: " ++ err), sr)
    | .ok normalized =>
      if (sr.factories normalized).isSome then
        (some (utf8 "sink factory already registered for scheme " ++ Platform.quote normalized), sr)
      else (none, ⟨Function.update sr.factories normalized (some factory)⟩)

/-- `newSinkRegistry()`. The registry is empty before, so that the error can be dropped. -/
def new : SinkRegistry := (SinkRegistry.registerSink ⟨fun _ => none⟩ schemeFile newFileSinkFromURL).2

/-- `sr.newSink(rawURL)`. -/
def newSink (sr : SinkRegistry) (tr : List DeviceEvent) (rawURL : Bytes) : Except Bytes Nat :=
  if Platform.isAbs rawURL then newFileSinkFromPath tr rawURL
  else
    match Platform.parse rawURL with
    | .error err =>
      .error (utf8 "can't parse " ++ Platform.quote rawURL ++ utf8 " as a URL: " ++ err)
    | .ok u =>
      let u := if u.scheme = [] then { u with scheme := schemeFile } else u
      match sr.factories u.scheme with
      | none => .error (utf8 "no sink found for scheme " ++ Platform.quote u.scheme)
      | some factory => factory tr u

end SinkRegistry

end

end Zap
