import Zap.Laws.Denote

/-!
# The members that fields are written as

What a field of each type is in the output, said without `AddTo`: the value under its key, read from the
field's own numbers, bytes and interface; for a marshaler the items that its calls mean; for an error or
a `fmt.Stringer` what its methods return; and a member `<key>Error` if marshaling has failed.
`Field.items_eq` says that `AddTo` adds just these, and `encodeEntry_json` is the law of whole entries.

A field has no members if `AddTo` panics on it, or if a reflected value in it has no meaning. The latter
leaves out the texts that end in a blank; `encodeEntry_without_comma` is what becomes of one.
-/

set_option autoImplicit false

namespace Zap.Zapcore

open Data

/-! ## Single values -/

/-- A duration, as the configured function writes it, or in nanoseconds. -/
def EncoderConfig.durationJson (cfg : EncoderConfig) (d : Duration) : Json :=
  match cfg.durationCalls d with
  | c :: _ => c.json
  | [] => .num (intDecimal d.toInt)

/-- A time, as the configured function writes it, or in nanoseconds from the epoch. -/
def EncoderConfig.timeJson (cfg : EncoderConfig) (t : Time) : Json :=
  match cfg.timeCalls t with
  | c :: _ => c.json
  | [] => .num (intDecimal t.unixNano.toInt)

/-- The number in the low bits of an integer, with a sign. -/
def signedJson (bits : Nat) (i : Int64) : Json := .num (intDecimal (i.toInt.bmod (2 ^ bits)))

/-- The number in the low bits of an integer. -/
def unsignedJson (bits : Nat) (i : Int64) : Json := .num (natDecimal (i.toInt % 2 ^ bits).toNat)

/-- The value of a field that has one of its own. -/
def Field.value [Host] (cfg : EncoderConfig) (f : Field) : Option Json :=
  match f.type, f.interface with
  | .binary, .bytes bs => some (.str (base64 bs))
  | .bool, _ => some (.bool (f.integer = 1))
  | .byteString, .bytes bs => some (.str (sanitize bs))
  | .complex128, .complex128 re im => some (.str (complexText re im false))
  | .complex64, .complex64 re im =>
    some (.str (complexText (Binary64.ofBinary32 re) (Binary64.ofBinary32 im) true))
  | .duration, _ => some (cfg.durationJson f.integer)
  | .float64, _ => some (floatJson f.integer.toUInt64 false)
  | .float32, _ => some (floatJson (Binary64.ofBinary32 f.integer.toUInt64.toUInt32) true)
  | .int64, _ => some (signedJson 64 f.integer)
  | .int32, _ => some (signedJson 32 f.integer)
  | .int16, _ => some (signedJson 16 f.integer)
  | .int8, _ => some (signedJson 8 f.integer)
  | .string, _ => some (.str (sanitize f.string))
  | .time, .location loc => some (cfg.timeJson (.ofUnixNano f.integer.toInt loc))
  | .time, .nil => some (cfg.timeJson (.ofUnixNano f.integer.toInt Host.localLocation))
  | .timeFull, .time t => some (cfg.timeJson t)
  | .uint64, _ => some (unsignedJson 64 f.integer)
  | .uint32, _ => some (unsignedJson 32 f.integer)
  | .uint16, _ => some (unsignedJson 16 f.integer)
  | .uint8, _ => some (unsignedJson 8 f.integer)
  | .uintptr, _ => some (unsignedJson 64 f.integer)
  | .reflect, .nil => some .null
  | _, _ => none

/-! ## Errors -/

/-- Members, and the error that is left. -/
abbrev Members := List (Bytes × Json) × Option Bytes

/-- The text that a method returns, and what comes after it. The panic of a nil pointer's method is
written as a text, any other panic is an error. -/
def spoken (nilPointer : Bool) (key : Bytes) (text : Call Bytes) (more : Bytes → Members) : Members :=
  match text with
  | .returns s => ((sanitize key, .str (sanitize s)) :: (more s).1, (more s).2)
  | .panics v =>
    if nilPointer then ([(sanitize key, .str (utf8 "<nil>"))], none)
    else ([], some (utf8 "PANIC=" ++ v))

mutual

/-- The members of an error under a key: its text, a longer text if it has another one, and the errors
it is a group of. -/
def errorMembers (key : Bytes) : GoError → Members
  | .nil =>
    ([], some (utf8 "PANIC=runtime error: invalid memory address or nil pointer dereference"))
  | .plain np text => spoken np key text fun _ => ([], none)
  | .formatter np text verbose =>
    spoken np key text fun basic =>
      if verbose = basic then ([], none)
      else ([(sanitize (key ++ utf8 "Verbose"), .str (sanitize verbose))], none)
  | .group np text errors =>
    spoken np key text fun _ =>
      ([(sanitize (key ++ utf8 "Causes"), .arr (causes errors).1)], (causes errors).2)
  | .panickingGroup np text v =>
    spoken np key text fun _ => spoken np key (.panics v) fun _ => ([], none)

/-- The errors of a group that are not nil, up to the first that leaves an error. -/
def causes : List GoError → List Json × Option Bytes
  | [] => ([], none)
  | .nil :: errs => causes errs
  | err :: errs =>
    let r := errorMembers (utf8 "error") err
    if r.2.isSome then ([.obj r.1], r.2) else (.obj r.1 :: (causes errs).1, (causes errs).2)

end

/-! ## Fields -/

/-- An error of marshaling is written under `<key>Error`. -/
def failure (key : Bytes) : Option Bytes → List Json.Item
  | none => []
  | some msg => [.member (sanitize (key ++ utf8 "Error")) (.str (sanitize msg))]

/-- The items a field is written as; `none` if `AddTo` panics or a reflected value has no meaning. -/
def Field.items [Host] (cfg : EncoderConfig) (f : Field) : Option (List Json.Item) :=
  match f.type, f.interface with
  | .arrayMarshaler, .array m =>
    (denote cfg m).map fun r =>
      .member (sanitize f.key) (.arr (Json.elements r.1)) :: failure f.key r.2
  | .objectMarshaler, .object m =>
    (denote cfg m).map fun r => .member (sanitize f.key) (.obj (Json.nest r.1)) :: failure f.key r.2
  | .inlineMarshaler, .object m => (denote cfg m).map fun r => r.1 ++ failure f.key r.2
  | .reflect, .reflected v =>
    (reflectedJson cfg (some v)).map fun r =>
      match r with
      | .ok j => [.member (sanitize f.key) j]
      | .error msg => failure f.key (some msg)
  | .namespace, _ => some [.openObject (sanitize f.key)]
  | .stringer, .stringer np text =>
    let ms := spoken np f.key text fun _ => ([], none)
    some (Json.members ms.1 ++ failure f.key ms.2)
  | .stringer, _ =>
    some (failure f.key
      (some (utf8 "PANIC=interface conversion: interface is nil, not fmt.Stringer")))
  | .error, .error .nil => none
  | .error, .error err =>
    some (Json.members (errorMembers f.key err).1 ++ failure f.key (errorMembers f.key err).2)
  | .skip, _ => some []
  | _, _ => (f.value cfg).map fun j => [.member (sanitize f.key) j]

/-! ## `AddTo` adds them -/

theorem denote_reportError (cfg : EncoderConfig) (key : Bytes) (err : Option Bytes) :
    denote cfg (reportError key err) = some (failure key err, none) := by
  cases err <;> rfl

/-- A marshaler and the report of its error. -/
theorem denote_reported (cfg : EncoderConfig) (m : ObjectMarshaler) (key : Bytes) :
    (denote cfg (m.andThen (reportError key))).map Prod.fst =
      (denote cfg m).map fun r => r.1 ++ failure key r.2 := by
  rw [denote_andThen]
  cases denote cfg m with
  | none => rfl
  | some r => simp only [Option.bind_some, denote_reportError, Option.map_some]

/-- What `encodeText` writes. -/
theorem denote_encodeText (cfg : EncoderConfig) (np : Bool) (key : Bytes) (text : Call Bytes)
    {next : Bytes → ObjectMarshaler} (more : Bytes → Members)
    (hnext : ∀ s, denote cfg (next s) = some (Json.members (more s).1, (more s).2)) :
    denote cfg (encodeText np key text next) =
      some (Json.members (spoken np key text more).1, (spoken np key text more).2) := by
  cases text with
  | returns s =>
    simp only [encodeText, addString, denote, hnext, Option.bind_eq_bind, Option.bind_some, spoken,
      Json.members]
    rfl
  | panics v => cases np <;> rfl

theorem causes_cons {err : GoError} (hnil : err ≠ .nil) (errs : List GoError) :
    causes (err :: errs) =
      let r := errorMembers (utf8 "error") err
      if r.2.isSome then ([.obj r.1], r.2) else (.obj r.1 :: (causes errs).1, (causes errs).2) := by
  cases err with
  | nil => exact absurd rfl hnil
  | _ => rfl

mutual

theorem denote_encodeError (cfg : EncoderConfig) (key : Bytes) (err : GoError) :
    denote cfg (encodeError key err) =
      some (Json.members (errorMembers key err).1, (errorMembers key err).2) := by
  cases err with
  | nil => rfl
  | plain np text => exact denote_encodeText cfg np key text _ fun _ => rfl
  | formatter np text verbose =>
    refine denote_encodeText cfg np key text _ fun basic => ?_
    split <;> rfl
  | group np text errors =>
    refine denote_encodeText cfg np key text _ fun _ => ?_
    obtain ⟨is, hden, his⟩ := denote_errArray cfg errors
    simp only [denote, hden, Option.bind_eq_bind, Option.bind_some, his]
    rfl
  | panickingGroup np text v =>
    refine denote_encodeText cfg np key text _ fun _ => ?_
    cases np <;> rfl

theorem denote_errArray (cfg : EncoderConfig) (errs : List GoError) :
    ∃ is, denote cfg (errArray errs) = some (is, (causes errs).2) ∧
      Json.elements is = (causes errs).1 := by
  cases errs with
  | nil => exact ⟨[], rfl, rfl⟩
  | cons err errs =>
    obtain ⟨is, hden, his⟩ := denote_errArray cfg errs
    by_cases hnil : err = .nil
    · subst hnil
      exact ⟨is, hden, his⟩
    · have herr := denote_encodeError cfg (utf8 "error") err
      rw [errArray_cons hnil, causes_cons hnil]
      simp only [denote, herr, Option.bind_eq_bind, Option.bind_some, Json.nest_members_nil]
      generalize errorMembers (utf8 "error") err = r
      cases r.2 with
      | none => exact ⟨.elem (.obj r.1) :: is, by simp [hden], by simp [Json.elements, his]⟩
      | some msg => exact ⟨[.elem (.obj r.1)], rfl, rfl⟩

end

theorem durationJson_eq (cfg : EncoderConfig) (d : Duration) :
    callsJson (scalarCalls cfg (.duration d)) = cfg.durationJson d := by
  rw [EncoderConfig.durationJson, scalarCalls]
  cases cfg.durationCalls d <;> rfl

theorem timeJson_eq (cfg : EncoderConfig) (t : Time) :
    callsJson (scalarCalls cfg (.time t)) = cfg.timeJson t := by
  rw [EncoderConfig.timeJson, scalarCalls]
  cases cfg.timeCalls t <;> rfl

/-- The bits of an integer, as a natural number. -/
theorem toInt_eq_bits (i : Int64) :
    i.toInt = if i.toUInt64.toNat < 2 ^ 63 then (i.toUInt64.toNat : Int)
      else i.toUInt64.toNat - 2 ^ 64 := by
  have h : i.toInt = if 2 * i.toUInt64.toNat < 2 ^ 64 then (i.toUInt64.toNat : Int)
      else i.toUInt64.toNat - ((2 ^ 64 : Nat) : Int) := BitVec.toInt_eq_toNat_cond _
  rw [h]
  split <;> split <;> omega

/-- An unsigned number, from the low bits of an integer. -/
theorem unsignedJson_eq {bits : Nat} (hbits : bits ∈ [8, 16, 32, 64]) (i : Int64) :
    Json.num (natDecimal (i.toUInt64.toNat % 2 ^ bits)) = unsignedJson bits i := by
  have hlt := i.toUInt64.toNat_lt
  have hsame : i.toUInt64.toNat % 2 ^ bits = (i.toInt % 2 ^ bits).toNat := by
    rw [toInt_eq_bits]
    simp only [List.mem_cons, List.not_mem_nil, or_false] at hbits
    rcases hbits with rfl | rfl | rfl | rfl <;> split <;> omega
  rw [hsame]
  rfl

/-- `AddTo` adds the items of a field, or panics if there are none. -/
theorem Field.items_eq [Host] (cfg : EncoderConfig) (f : Field) :
    (denote cfg f.addTo).map Prod.fst = f.items cfg := by
  obtain ⟨key, type, integer, string, interface⟩ := f
  have hvalue {j j' : Json} (h : j = j') :
      some [Json.Item.member (sanitize key) j] = some [Json.Item.member (sanitize key) j'] := by
    rw [h]
  have hsigned {n : Int} {bits : Nat} (h : n = integer.toInt.bmod (2 ^ bits)) :
      some [Json.Item.member (sanitize key) (.num (intDecimal n))] =
        some [Json.Item.member (sanitize key) (signedJson bits integer)] :=
    hvalue (congrArg (fun n => Json.num (intDecimal n)) h)
  have hunsigned {n bits : Nat} (hbits : bits ∈ [8, 16, 32, 64])
      (h : n = integer.toUInt64.toNat % 2 ^ bits) :
      some [Json.Item.member (sanitize key) (.num (natDecimal n))] =
        some [Json.Item.member (sanitize key) (unsignedJson bits integer)] :=
    hvalue ((congrArg (fun n => Json.num (natDecimal n)) h).trans (unsignedJson_eq hbits integer))
  cases type with
  | arrayMarshaler =>
    cases interface with
    | array m =>
      show (denote cfg (.addArray key m (reportError key))).map Prod.fst = _
      simp only [denote, denote_reportError, items]
      cases denote cfg m <;> rfl
    | _ => rfl
  | objectMarshaler =>
    cases interface with
    | object m =>
      show (denote cfg (.addObject key m (reportError key))).map Prod.fst = _
      simp only [denote, denote_reportError, items]
      cases denote cfg m <;> rfl
    | _ => rfl
  | inlineMarshaler =>
    cases interface with
    | object m => exact denote_reported cfg m key
    | _ => rfl
  | reflect =>
    cases interface with
    | reflected v =>
      show (denote cfg (.addReflected key (some v) (reportError key))).map Prod.fst = _
      simp only [denote, denote_reportError, items]
      cases reflectedJson cfg (some v) with
      | none => rfl
      | some r => cases r <;> rfl
    | _ => rfl
  | stringer =>
    cases interface with
    | stringer np text =>
      refine (denote_reported cfg _ key).trans ?_
      rw [encodeStringer, denote_encodeText cfg np key text (fun _ => ([], none)) fun _ => rfl]
      rfl
    | _ => rfl
  | error =>
    cases interface with
    | error err =>
      cases err with
      | nil => rfl
      | _ =>
        refine (denote_reported cfg _ key).trans ?_
        rw [denote_encodeError]
        rfl
    | _ => rfl
  | time =>
    cases interface with
    | location loc => exact hvalue (timeJson_eq cfg _)
    | nil => exact hvalue (timeJson_eq cfg _)
    | _ => rfl
  | timeFull =>
    cases interface with
    | time t => exact hvalue (timeJson_eq cfg t)
    | _ => rfl
  | duration => exact hvalue (durationJson_eq cfg integer)
  | bool => exact hvalue (congrArg Json.bool (beq_eq_decide integer 1))
  | int64 => exact hsigned (by simp)
  | int32 => exact hsigned (by simp)
  | int16 => exact hsigned (by simp)
  | int8 => exact hsigned (by simp)
  | uint64 => exact hunsigned (by decide) (by simp)
  | uint32 => exact hunsigned (by decide) (by simp)
  | uint16 => exact hunsigned (by decide) (by simp)
  | uint8 => exact hunsigned (by decide) (by simp)
  | uintptr => exact hunsigned (by decide) (by simp)
  | _ =>
    -- the bytes of the field, or a panic if there are none
    first
    | rfl
    | cases interface <;> rfl

/-- Fields mean the items of each, in order. -/
theorem denote_addFields [Host] (cfg : EncoderConfig) {fields : List Field}
    (h : ∀ f ∈ fields, (f.items cfg).isSome) :
    denote cfg (addFields fields) = some (fields.flatMap fun f => (f.items cfg).getD [], none) := by
  induction fields with
  | nil => rfl
  | cons f fields ih =>
    obtain ⟨hf, hrest⟩ := List.forall_mem_cons.mp h
    obtain ⟨is, his⟩ := Option.isSome_iff_exists.mp hf
    obtain ⟨⟨is', err⟩, hden, hfst⟩ := Option.map_eq_some_iff.mp ((f.items_eq cfg).trans his)
    simp only [addFields, denote_andThen, hden, ih hrest, Option.bind_some, List.flatMap_cons, his,
      Option.getD_some, ← hfst]

/-! ## Entries -/

/-- Encoding an entry gives one JSON object and the line ending. The members of the object are
the entry's metadata, then the members of the context and of the entry's fields, where what
follows a namespace is inside it, then the stack trace. -/
theorem encodeEntry_json [Host] {cfg : EncoderConfig} (hproper : cfg.Proper)
    (context fields : List Field) (ent : Entry)
    (hfields : ∀ f ∈ context ++ fields, (f.items cfg).isSome) :
    ∃ enc ms text, (newJSONEncoder cfg false).addFields context = some enc ∧
      enc.encodeEntry ent fields = some (text ++ cfg.effectiveLineEnding) ∧
      metadata cfg ent = some ms ∧
      Json.parse text = some (.obj (ms.map memberJson ++
        Json.nest ((context ++ fields).flatMap fun f => (f.items cfg).getD []) ++
        (stackMember cfg ent).map memberJson)) := by
  obtain ⟨hctx, hflds⟩ := List.forall_mem_append.mp hfields
  rw [List.flatMap_append]
  exact encodeEntry_denote hproper ent (denote_addFields cfg hctx) (denote_addFields cfg hflds)

/-- A namespace in the context, and an array that fails after its first element. -/
def nested : Logged where
  context := [⟨utf8 "ns", .namespace, 0, [], .nil⟩]
  entry :=
    { level := Level.info, time := Time.ofUnixNano 0 Location.utc, loggerName := [],
      message := [0x68, 0xFF, 0x22], caller := ⟨false, [], 0, []⟩, stack := utf8 "trace" }
  fields := [⟨utf8 "xs", .arrayMarshaler, 0, [],
    .array (.append (.prim (.bool true)) (.done (some (utf8 "stop"))))⟩]

theorem encodeEntry_json_nested :
    let _ : Host := ⟨Location.utc⟩
    let cfg := newDevelopmentEncoderConfig
    ∃ enc text, (newJSONEncoder cfg false).addFields nested.context = some enc ∧
      enc.encodeEntry nested.entry nested.fields = some (text ++ [0x0A]) ∧
      Json.parse text = some (.obj [
        (utf8 "L", .str (utf8 "INFO")),
        (utf8 "T", .str (utf8 "1970-01-01T00:00:00.000Z")),
        (utf8 "M", .str [0x68, 0xEF, 0xBF, 0xBD, 0x22]),
        (utf8 "ns", .obj [
          (utf8 "xs", .arr [.bool true]),
          (utf8 "xsError", .str (utf8 "stop"))]),
        (utf8 "S", .str (utf8 "trace"))]) := by
  intro host cfg
  obtain ⟨enc, ms, text, hctx, henc, hms, hparse⟩ := encodeEntry_json
    newDevelopmentEncoderConfig_proper nested.context nested.fields nested.entry (by decide)
  refine ⟨enc, text, hctx, henc, hparse.trans ?_⟩
  cases hms
  rfl

/-- A reflected encoder that ends a value with a blank. -/
def blankConfig : EncoderConfig where
  messageKey := []
  levelKey := []
  timeKey := []
  nameKey := []
  callerKey := []
  functionKey := []
  stacktraceKey := []
  skipLineEnding := false
  lineEnding := []
  encodeLevel := none
  encodeTime := none
  encodeDuration := none
  encodeCaller := none
  encodeName := none
  newReflectedEncoder := some fun _ => .ok (utf8 "1 ")
  consoleSeparator := []

/-- Behind a reflected value that is one JSON value and a blank, the comma is left out. -/
theorem encodeEntry_without_comma :
    let _ : Host := ⟨Location.utc⟩
    let v : Reflected := ⟨0, .error [], nofun⟩
    Json.parse (utf8 "1 ") = some (.num (utf8 "1")) ∧
      (newJSONEncoder blankConfig false).encodeEntry nested.entry
        [⟨utf8 "a", .reflect, 0, [], .reflected v⟩, ⟨utf8 "b", .bool, 1, [], .nil⟩] =
          some (utf8 "\x7b\"a\":1 \"b\":true\x7d" ++ [0x0A]) ∧
      Json.parse (utf8 "\x7b\"a\":1 \"b\":true\x7d") = none := by
  intro _ _
  exact ⟨rfl, rfl, rfl⟩

end Zap.Zapcore
