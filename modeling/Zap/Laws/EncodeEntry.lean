import Zap.Data.JsonUnique
import Zap.Laws.Denote
import Zap.Zapcore.CheckedEntry

/-!
# Encoding under any configuration

Both encoders take configurations with keys left empty and encoding functions left nil.
`encodesEntries_iff` says for which of them encoding an entry always returns, and gives one JSON
object with the JSON encoder. A nil function for callers makes the JSON encoder panic, unless
callers have no key; the console encoder asks first. Everything else is up to what the functions
write: each has to write one JSON value. That this is enough is the invariant of `Denote` without
the meaning (`run_valid`); that it is needed is shown by entries and fields that put the text of a
function behind a colon, between brackets, or in front of another member.
-/

set_option autoImplicit false

namespace Zap.Zapcore

open Data

/-! ## The text of calls -/

/-- What calls of an encoding function write, without spaces. -/
def callsText : List AppendCall → Bytes
  | [] => []
  | c :: calls => callText c ++ calls.flatMap fun c => 0x2C :: callText c

theorem callsText_ends {calls : List AppendCall} (h : calls ≠ []) :
    ∃ p c, callsText calls = p ++ callText c := by
  cases calls with
  | nil => exact absurd rfl h
  | cons c calls =>
    obtain rfl | ⟨init, c', rfl⟩ := List.eq_nil_or_concat calls
    · exact ⟨[], c, by rw [callsText, List.flatMap_nil, List.append_nil, List.nil_append]⟩
    · refine ⟨callText c ++ (init.flatMap (fun c => 0x2C :: callText c) ++ [0x2C]), c', ?_⟩
      simp only [callsText, List.concat_eq_append, List.flatMap_append, List.flatMap_cons,
        List.flatMap_nil, List.append_nil, List.append_assoc, List.cons_append, List.nil_append]

/-- Calls that write one JSON value. -/
def WritesOne (calls : List AppendCall) : Prop := ∃ v, Json.Slot (callsText calls) v

theorem callText_last (c : AppendCall) :
    ∃ b, (callText c).getLast? = some b ∧ Json.opens b = false := by
  cases c with
  | prim p => exact (primText_derives p).getLast
  | timeLayout t layout =>
    refine ⟨0x22, ?_, rfl⟩
    rw [callText, ← List.cons_append, List.getLast?_concat]

/-- Behind the text of a call a comma is due. -/
theorem separator_callText (p : Bytes) (c : AppendCall) :
    Json.separator false (p ++ callText c) = [0x2C] := by
  obtain ⟨b, hb, ho⟩ := callText_last c
  rw [Json.separator_append false p (JsonEncoder.callText_ne_nil c), Json.separator, hb]
  simp [ho, Json.comma]

namespace JsonEncoder

variable {enc : JsonEncoder}

theorem foldl_appendCall_put (calls : List AppendCall) (hspaced : enc.spaced = false) (p : Bytes)
    (c : AppendCall) :
    calls.foldl appendCall (enc.put (p ++ callText c)) =
      enc.put (p ++ (callText c ++ calls.flatMap fun c => 0x2C :: callText c)) := by
  induction calls generalizing p c with
  | nil => rw [List.foldl_nil, List.flatMap_nil, List.append_nil]
  | cons c' calls ih =>
    have hstep : (enc.put (p ++ callText c)).appendCall c' =
        enc.put ((p ++ (callText c ++ [0x2C])) ++ callText c') := by
      have hsep : Json.separator enc.spaced (enc.put (p ++ callText c)).buf = [0x2C] := by
        rw [hspaced, put_buf, ← List.append_assoc, ← List.append_assoc]
        exact separator_callText _ c
      rw [appendCall_eq, put, put_spaced, hsep, put_write]
      simp only [List.append_assoc]
    rw [List.foldl_cons, hstep, ih, List.flatMap_cons]
    simp only [List.append_assoc, List.cons_append, List.nil_append]

/-- Calls are put behind one another, a comma between them. -/
theorem foldl_appendCall (hspaced : enc.spaced = false) {calls : List AppendCall}
    (hcalls : calls ≠ []) : calls.foldl appendCall enc = enc.put (callsText calls) := by
  cases calls with
  | nil => exact absurd rfl hcalls
  | cons c calls =>
    rw [List.foldl_cons, appendCall_eq]
    exact foldl_appendCall_put calls hspaced [] c

/-- A member with its text. -/
theorem addMember_put (hspaced : enc.spaced = false) (m : Member) (hcalls : m.2 ≠ []) :
    enc.addMember m = (enc.addKey m.1).put (callsText m.2) := by
  have hkey : (enc.addKey m.1).spaced = false := by rw [addKey_eq, put_spaced, hspaced]
  exact foldl_appendCall hkey hcalls

end JsonEncoder

theorem WritesOne.ne_nil {calls : List AppendCall} (h : WritesOne calls) : calls ≠ [] := by
  obtain ⟨v, hslot⟩ := h
  rintro rfl
  exact hslot.ne_nil rfl

theorem writesOne_prim (p : Prim) : WritesOne [.prim p] := by
  refine ⟨p.json, ?_⟩
  rw [callsText, List.flatMap_nil, List.append_nil]
  exact (primText_derives p).slot

theorem writesOne_prims {ps : List Prim} (h : ps.length ≤ 1) (fallback : Prim) :
    WritesOne (effectiveCalls (ps.map .prim) fallback) := by
  match ps, h with
  | [], _ => exact writesOne_prim fallback
  | [p], _ => exact writesOne_prim p

/-! ## WritesValid texts -/

/-- A marshaler keeps the text of the encoder in place, whatever it writes. -/
def WritesValid (cfg : EncoderConfig) {i : Interface} (m : Marshaler i) : Prop :=
  ∀ {base : Nat} {enc : JsonEncoder} {p t : Bytes} {is : List Json.Item} {n : Nat},
    Place cfg false base enc i.category p t is n →
    ∀ {enc' : JsonEncoder} {err : Option Bytes}, JsonEncoder.run m enc = some (enc', err) →
      ∃ t' is' n', Place cfg false base enc' i.category p t' is' n'

namespace JsonEncoder

variable {cfg : EncoderConfig} {enc enc' : JsonEncoder} {err : Option Bytes}

theorem appendArray_valid {arr : ArrayMarshaler} (harr : WritesValid cfg arr) (hcfg : enc.cfg = cfg)
    (hspaced : enc.spaced = false) (h : enc.appendArray (run arr) = some (enc', err)) :
    ∃ x v, enc' = enc.put x ∧ Json.Derives .value x v := by
  obtain ⟨c, buf, spaced, count⟩ := enc
  obtain rfl : spaced = false := hspaced
  obtain ⟨⟨inner, e⟩, hinner, _⟩ := Option.bind_eq_some_iff.mp h
  rw [addElementSeparator_write] at hinner
  obtain ⟨t, is, n, hplace⟩ := harr (place_array hcfg) hinner
  obtain ⟨x, happend, hval⟩ := appendArray_place hcfg hinner hplace
  rw [happend] at h
  cases h
  exact ⟨x, _, rfl, hval⟩

theorem appendObject_valid {obj : ObjectMarshaler} (hobj : WritesValid cfg obj) (hcfg : enc.cfg = cfg)
    (hspaced : enc.spaced = false) (h : enc.appendObject (run obj) = some (enc', err)) :
    ∃ x v, enc' = enc.put x ∧ Json.Derives .value x v := by
  obtain ⟨c, buf, spaced, count⟩ := enc
  obtain rfl : spaced = false := hspaced
  obtain ⟨⟨inner, e⟩, hinner, _⟩ := Option.bind_eq_some_iff.mp h
  rw [addElementSeparator_write] at hinner
  obtain ⟨t, is, n, hplace⟩ := hobj (place_object hcfg) hinner
  obtain ⟨x, happend, hval⟩ := appendObject_place hcfg hinner hplace
  rw [happend] at h
  cases h
  exact ⟨x, _, rfl, hval⟩

end JsonEncoder

open JsonEncoder in
/-- If scalars and reflected values are written as one value each, every marshaler leaves a valid
text. -/
theorem run_valid {cfg : EncoderConfig} (hscalar : ∀ s, WritesOne (scalarCalls cfg s))
    (hreflect : ∀ v bs, encodeReflected ⟨cfg, [], false, 0⟩ v = .ok bs → ∃ j, Json.Slot bs j)
    {i : Interface} (m : Marshaler i) : WritesValid cfg m := by
  -- the text of a scalar does not depend on what stands before it
  have scalar : ∀ {enc : JsonEncoder} (s : Scalar), enc.cfg = cfg → enc.spaced = false →
      ∃ x v, enc.appendScalar s = enc.put x ∧ Json.Slot x v := by
    intro enc s hcfg hspaced
    obtain ⟨v, hslot⟩ := hscalar s
    refine ⟨_, v, ?_, hslot⟩
    rw [appendScalar_eq, hcfg]
    exact foldl_appendCall hspaced (hscalar s).ne_nil
  have reflect : ∀ {enc : JsonEncoder} {v : Option Reflected} {bs : Bytes}, enc.cfg = cfg →
      enc.encodeReflected v = .ok bs → ∃ j, Json.Slot bs j := by
    intro enc v bs hcfg hbs
    refine hreflect v bs (hbs ▸ ?_)
    cases v with
    | none => rfl
    | some v => simp only [encodeReflected, hcfg]
  have key : ∀ {enc : JsonEncoder} (k : Bytes), enc.spaced = false →
      (enc.addKey k).spaced = false := by
    intro enc k hspaced
    rw [addKey_eq, put_spaced, hspaced]
  induction m with
  | done err =>
    intro base enc p t is n hplace enc' e hrun
    cases hrun
    exact ⟨t, is, n, hplace⟩
  | panic => intro _ _ _ _ _ _ _ _ _ hrun; cases hrun
  | add k s next ih =>
    intro base enc p t is n hplace enc' e hrun
    obtain ⟨x, v, hput, hslot⟩ := scalar s ((enc.addKey_cfg k).trans hplace.cfg_eq)
      (key k hplace.spaced_eq)
    rw [run, hput] at hrun
    exact ih (hplace.member k hslot) hrun
  | addBinary k val next ih =>
    intro base enc p t is n hplace enc' e hrun
    rw [run, appendString_eq] at hrun
    exact ih (hplace.member k (quoted_derives (base64 val)).slot) hrun
  | addReflected k v next ih =>
    intro base enc p t is n hplace enc' e hrun
    rw [run] at hrun
    split at hrun
    · next e' _ => exact ih (some e') hplace hrun
    · next bs hbs =>
      obtain ⟨j, hslot⟩ := reflect hplace.cfg_eq hbs
      rw [addKey_write, ← addKey_put] at hrun
      exact ih none (hplace.member k hslot) hrun
  | addArray k arr next iharr ih =>
    intro base enc p t is n hplace enc' e hrun
    obtain ⟨⟨enc₁, e₁⟩, happend, hrest⟩ := Option.bind_eq_some_iff.mp hrun
    obtain ⟨x, v, rfl, hval⟩ := appendArray_valid iharr ((enc.addKey_cfg k).trans hplace.cfg_eq)
      (key k hplace.spaced_eq) happend
    exact ih e₁ (hplace.member k hval.slot) hrest
  | addObject k obj next ihobj ih =>
    intro base enc p t is n hplace enc' e hrun
    obtain ⟨⟨enc₁, e₁⟩, happend, hrest⟩ := Option.bind_eq_some_iff.mp hrun
    obtain ⟨x, v, rfl, hval⟩ := appendObject_valid ihobj ((enc.addKey_cfg k).trans hplace.cfg_eq)
      (key k hplace.spaced_eq) happend
    exact ih e₁ (hplace.member k hval.slot) hrest
  | openNamespace k next ih =>
    intro base enc p t is n hplace enc' e hrun
    exact ih (hplace.openNamespace k) hrun
  | append s next ih =>
    intro base enc p t is n hplace enc' e hrun
    obtain ⟨x, v, hput, hslot⟩ := scalar s hplace.cfg_eq hplace.spaced_eq
    rw [run, hput] at hrun
    exact ih (hplace.elem hslot) hrun
  | appendReflected v next ih =>
    intro base enc p t is n hplace enc' e hrun
    rw [run] at hrun
    split at hrun
    · next e' _ => exact ih (some e') hplace hrun
    · next bs hbs =>
      obtain ⟨j, hslot⟩ := reflect hplace.cfg_eq hbs
      rw [addElementSeparator_write] at hrun
      exact ih none (hplace.elem hslot) hrun
  | appendArray arr next iharr ih =>
    intro base enc p t is n hplace enc' e hrun
    obtain ⟨⟨enc₁, e₁⟩, happend, hrest⟩ := Option.bind_eq_some_iff.mp hrun
    obtain ⟨x, v, rfl, hval⟩ := appendArray_valid iharr hplace.cfg_eq hplace.spaced_eq happend
    exact ih e₁ (hplace.elem hval.slot) hrest
  | appendObject obj next ihobj ih =>
    intro base enc p t is n hplace enc' e hrun
    obtain ⟨⟨enc₁, e₁⟩, happend, hrest⟩ := Option.bind_eq_some_iff.mp hrun
    obtain ⟨x, v, rfl, hval⟩ := appendObject_valid ihobj hplace.cfg_eq hplace.spaced_eq happend
    exact ih e₁ (hplace.elem hval.slot) hrest

/-- Members whose calls write one value each are written in place. -/
theorem Place.addOnes {cfg : EncoderConfig} {base : Nat} {enc : JsonEncoder} {p t : Bytes}
    {is : List Json.Item} {n : Nat} {ms : List Member} (hms : ∀ m ∈ ms, WritesOne m.2)
    (h : Place cfg false base enc .members p t is n) :
    ∃ t' is', Place cfg false base (enc.addMembers ms) .members p t' is' n := by
  have hvalue : ∀ m ∈ ms, ∃ v, Json.Slot (callsText m.2) v := hms
  have : Nonempty Json := ⟨.null⟩
  choose! value hslot using hvalue
  obtain ⟨t', hplace⟩ := h.addMembers_values value fun m hm =>
    ⟨_, hslot m hm, fun enc hspaced => enc.addMember_put hspaced m (hms m hm).ne_nil⟩
  exact ⟨t', _, hplace⟩

/-! ## Configurations -/

/-- There is a function for callers if they are to be written, and every function that is called
writes one JSON value, or nothing where there is a fallback. -/
structure EncoderConfig.Encodes (cfg : EncoderConfig) : Prop where
  callerKey : cfg.callerKey ≠ [] → cfg.encodeCaller ≠ none
  level : cfg.levelKey ≠ [] → ∀ e, cfg.encodeLevel = some e → ∀ l, (e l).length ≤ 1
  name : cfg.nameKey ≠ [] → ∀ s ≠ [], (cfg.nameEncoder s).length ≤ 1
  caller : cfg.callerKey ≠ [] → ∀ e, cfg.encodeCaller = some e →
    ∀ ec : EntryCaller, ec.defined → (e ec).length ≤ 1
  duration : ∀ e, cfg.encodeDuration = some e → ∀ d, (e d).length ≤ 1
  time : ∀ e, cfg.encodeTime = some e → ∀ t, e t ≠ [] → WritesOne (e t)
  reflected : ∀ e, cfg.newReflectedEncoder = some e → ∀ v bs, e v = .ok bs →
    ∃ j, Json.Slot (JsonEncoder.trimNewline bs) j

/-- Encoding an entry returns, with fields whose marshalers do; what the JSON encoder returns is one
JSON object and the line ending. -/
def EncodesEntries [Host] (cfg : EncoderConfig) : Prop :=
  ∀ (ent : Entry) (fields : List Field),
    (∀ refl, ((addFields fields).transcript refl).isSome) →
    (∃ text ms, (newJSONEncoder cfg false).encodeEntry ent fields =
        some (text ++ cfg.effectiveLineEnding) ∧ Json.parse text = some (.obj ms)) ∧
      ((newConsoleEncoder cfg).encodeEntry ent fields).isSome

namespace EncoderConfig.Encodes

variable {cfg : EncoderConfig} (h : cfg.Encodes)
include h

theorem scalar (s : Scalar) : WritesOne (scalarCalls cfg s) := by
  cases s with
  | prim p => exact writesOne_prim p
  | duration d =>
    simp only [scalarCalls, durationCalls]
    split
    · next e he => exact writesOne_prims (h.duration e he d) _
    · exact writesOne_prim _
  | time t =>
    simp only [scalarCalls, timeCalls]
    split
    · next e he =>
      unfold effectiveCalls
      split
      · exact writesOne_prim _
      · next hne => exact h.time e he t hne
    · exact writesOne_prim _

theorem metadata {ent : Entry} {ms : List Member} (hms : Zapcore.metadata cfg ent = some ms) :
    ∀ m ∈ ms, WritesOne m.2 :=
  metadata_forall hms (fun hkey e he => writesOne_prims (h.level hkey e he _) _) (h.scalar _)
    (fun hkey => writesOne_prims (h.name hkey.2 _ hkey.1) _)
    (fun hkey e he => writesOne_prims (h.caller hkey.2 e he _ hkey.1) _)
    fun s => writesOne_prim (.string s)

theorem reflects {v : Option Reflected} {bs : Bytes}
    (hbs : JsonEncoder.encodeReflected ⟨cfg, [], false, 0⟩ v = .ok bs) : ∃ j, Json.Slot bs j := by
  cases v with
  | none =>
    cases hbs
    exact ⟨_, Json.Derives.null.slot⟩
  | some v =>
    simp only [JsonEncoder.encodeReflected, reflectedEncoder] at hbs
    split at hbs
    · cases hbs
    · next text htext =>
      cases hbs
      cases hnew : cfg.newReflectedEncoder with
      | some e =>
        rw [hnew] at htext
        exact h.reflected e hnew v text htext
      | none =>
        -- the standard library's encoder writes one line
        rw [hnew] at htext
        obtain ⟨x, j, rfl, hval, _⟩ := v.json_line text htext
        rw [JsonEncoder.trimNewline, List.getLast?_concat, if_pos rfl, List.dropLast_concat]
        exact ⟨j, hval.slot⟩

theorem completed : cfg.completed.Encodes where
  callerKey := h.callerKey
  level := h.level
  name := h.name
  caller := h.caller
  duration := h.duration
  time := h.time
  reflected e he v bs hbs := by
    cases he
    refine h.reflects (v := some v) ?_
    simp only [JsonEncoder.encodeReflected, hbs]

end EncoderConfig.Encodes

/-! ## Encoding returns -/

/-- The encoder behind the opening brace of an entry. -/
def opened (cfg : EncoderConfig) : JsonEncoder := ⟨cfg.completed, [0x7B], false, 0⟩

theorem place_opened (cfg : EncoderConfig) :
    Place cfg.completed false 0 (opened cfg) .members [0x7B] [] [] 0 :=
  ⟨rfl, rfl, rfl, rfl, rfl, .nil⟩

section Returns

variable [Host] {cfg : EncoderConfig} {fields : List Field}

/-- Fields whose marshalers return are added by every encoder. -/
theorem addFields_returns (hcalm : ∀ refl, ((addFields fields).transcript refl).isSome)
    (enc : JsonEncoder) : ∃ full err, JsonEncoder.run (addFields fields) enc = some (full, err) := by
  have hsome := hcalm enc.cfg.reflectError
  rw [← Option.isSome_map, ← JsonEncoder.run_outcome (addFields fields) rfl, Option.isSome_map] at hsome
  obtain ⟨⟨full, err⟩, hrun⟩ := Option.isSome_iff_exists.mp hsome
  exact ⟨full, err, hrun⟩

/-- The console encoder returns under every configuration. -/
theorem ConsoleEncoder.encodeEntry_returns
    (hcalm : ∀ refl, ((Zapcore.addFields fields).transcript refl).isSome) (c : ConsoleEncoder)
    (ent : Entry) : (c.encodeEntry ent fields).isSome := by
  obtain ⟨full, err, hrun⟩ := addFields_returns hcalm c.json
  have hcontext : ∀ line, ∃ text, c.writeContext line fields = some text := by
    intro line
    simp only [writeContext, JsonEncoder.addFields, hrun, Option.bind_eq_bind, Option.bind_some]
    split
    · exact ⟨_, rfl⟩
    · exact ⟨_, rfl⟩
  choose text htext using hcontext
  simp only [encodeEntry, htext, Option.bind_eq_bind, Option.bind_some, Option.isSome_some]

/-- An entry is its metadata, the fields and the end. -/
theorem encodeEntry_opened {ent : Entry} {ms : List Member} (hms : metadata cfg ent = some ms)
    (fields : List Field) :
    (newJSONEncoder cfg false).encodeEntry ent fields =
      (((opened cfg).addMembers ms).addFields fields).map fun full => full.finish ent := by
  have hmetadata : metadata (newJSONEncoder cfg false).cfg ent = some ms := hms
  have hfront := (newJSONEncoder cfg false).addMembers_eq ms
  have hbehind := (newJSONEncoder cfg false).spliceContext_eq
    (JsonEncoder.metadataText cfg.completed false ms)
  rw [JsonEncoder.encodeEntry_eq, hmetadata, Option.bind_some]
  exact congrArg (fun e : JsonEncoder => (e.addFields fields).map fun full => full.finish ent)
    (hbehind.symm.trans hfront.symm)

/-- Configurations whose functions write one value each encode every entry. -/
theorem EncoderConfig.Encodes.entries (h : cfg.Encodes) : EncodesEntries cfg := by
  intro ent fields hcalm
  refine ⟨?_, ConsoleEncoder.encodeEntry_returns hcalm _ ent⟩
  obtain ⟨ms, hms⟩ := metadata_isSome h.callerKey ent
  obtain ⟨t, is, hmeta⟩ := (place_opened cfg).addOnes (h.metadata hms)
  obtain ⟨full, err, hrun⟩ := addFields_returns hcalm ((opened cfg).addMembers ms)
  obtain ⟨t', is', n, hplace⟩ :=
    run_valid h.completed.scalar (fun v bs => h.completed.reflects) _ hmeta hrun
  obtain ⟨text, htext, hparse⟩ := hplace.finish ent
  refine ⟨text, _, ?_, hparse⟩
  rw [encodeEntry_opened hms]
  simp only [JsonEncoder.addFields, hrun, Option.bind_eq_bind, Option.bind_some, Option.map_some,
    htext]
  rfl

end Returns

/-! ## Functions put to the test -/

/-- The field that calls a marshaler on the encoder itself. -/
def inlined (m : ObjectMarshaler) : Field := ⟨[], .inlineMarshaler, 0, [], .object m⟩

/-- The end of an entry without a stack trace, if no namespace is open. -/
theorem finish_plain {full : JsonEncoder} {ent : Entry} (hopen : full.openNamespaces = 0)
    (hstack : ent.stack = []) : full.finish ent = full.buf ++ [0x7D] ++ full.cfg.lineEnding := by
  simp [JsonEncoder.finish, JsonEncoder.closeOpenNamespaces, JsonEncoder.encodeStack,
    JsonEncoder.write, hopen, hstack]

/-- What stands behind the key of a member that was put behind complete members. -/
theorem Place.sequel {cfg : EncoderConfig} {enc : JsonEncoder} {t k x : Bytes}
    {is : List Json.Item} {js : List (Bytes × Json)} (hplace : Place cfg.completed false 0 enc .members [0x7B] t is 0)
    (hparse : Json.parse ((enc.put (Json.keyText false (escape k) ++ x)).buf ++ [0x7D]) =
      some (.obj js)) : Json.Sequel .members x := by
  rw [hplace.put_buf, List.append_assoc] at hparse
  obtain ⟨us, hus, _⟩ := escape_chars k
  have hquote : (0x22 : UInt8) ∈
      t ++ (Json.separator false t ++ (Json.keyText false (escape k) ++ x)) :=
    List.mem_append_right _ (List.mem_append_right _ (List.mem_append_left _ List.mem_cons_self))
  obtain ⟨v, hmembers⟩ := Json.members_of_parse hparse hquote (by decide)
  exact hplace.frag.sequel hus hmembers

theorem addMembers_openNamespaces (enc : JsonEncoder) (ms : List Member) :
    (enc.addMembers ms).openNamespaces = enc.openNamespaces :=
  (congrArg JsonEncoder.openNamespaces (enc.addMembers_namespaces enc.openNamespaces ms)).trans rfl

/-- Members begin with a comma behind a value. -/
theorem addMembers_tail {enc : JsonEncoder} (hspaced : enc.spaced = false)
    (hsep : Json.separator false enc.buf = [0x2C]) (ms : List Member) :
    ∃ r, (enc.addMembers ms).buf = enc.buf ++ r ∧ (r = [] ∨ ∃ s, r = 0x2C :: s) := by
  cases ms with
  | nil => exact ⟨[], (List.append_nil _).symm, .inl rfl⟩
  | cons m ms =>
    have hcalls : ∀ cs : List AppendCall, ∀ c ∈ cs, True := fun _ _ _ => trivial
    obtain ⟨x, hx, _⟩ := (Extends.calls (textClass_univ enc.cfg) (hcalls m.2) (enc.addKey m.1)).buf
    have hrest : Extends (fun _ => True) (enc.addMember m) ((enc.addMember m).addMembers ms) :=
      Extends.addMembers (textClass_univ enc.cfg) (fun m _ => hcalls m.2) _
    obtain ⟨y, hy, _⟩ := hrest.buf
    refine ⟨0x2C :: (Json.keyText false (escape m.1) ++ (x ++ y)), ?_, .inr ⟨_, rfl⟩⟩
    have hmember : (enc.addMember m).buf = (enc.addKey m.1).buf ++ x := hx
    have hkey : (enc.addKey m.1).buf = enc.buf ++ ([0x2C] ++ Json.keyText false (escape m.1)) := by
      rw [enc.addKey_eq, JsonEncoder.put_buf, hspaced, hsep]
    calc (enc.addMembers (m :: ms)).buf = (enc.addMember m).buf ++ y := hy
      _ = enc.buf ++ 0x2C :: (Json.keyText false (escape m.1) ++ (x ++ y)) := by
        rw [hmember, hkey]
        simp only [List.append_assoc, List.cons_append, List.nil_append]

/-- Primitive values behind a key are at most one. -/
theorem length_prims_le {ps : List Prim} {fallback : Prim} {r : Bytes}
    (h : Json.Sequel .members (callsText (effectiveCalls (ps.map .prim) fallback) ++ r))
    (hr : r = [] ∨ ∃ s, r = 0x2C :: s) : ps.length ≤ 1 := by
  match ps, h with
  | [], _ => exact Nat.zero_le 1
  | [_], _ => exact Nat.le_refl 1
  | p :: q :: ps, h =>
    have htext : callsText (effectiveCalls ((p :: q :: ps).map .prim) fallback) ++ r =
        primText p ++ 0x2C :: (primText q ++
          ((ps.map AppendCall.prim).flatMap (fun c => 0x2C :: callText c) ++ r)) := by
      simp [effectiveCalls, callsText, callText]
    rw [htext] at h
    refine (h.not_two (primText_derives p) (primText_derives q) ?_).elim
    cases ps with
    | nil => simpa using hr
    | cons p' ps => exact .inr ⟨_, rfl⟩

theorem slot_of_single {x : Bytes} (h : Json.Single x) (hlast : x.getLast? ≠ some 0x20) :
    ∃ v, Json.Slot x v := by
  obtain ⟨v, hparse⟩ := h.parse
  exact ⟨v, textJson_slot (by rw [textJson, if_neg hlast, hparse])⟩

/-! ### Marshalers for the tests -/

namespace JsonEncoder

variable {cfg : EncoderConfig} {enc : JsonEncoder}

/-- A marshaler puts a text, whatever stands before. -/
def Puts {i : Interface} (cfg : EncoderConfig) (m : Marshaler i) (x : Bytes) : Prop :=
  ∀ enc : JsonEncoder, enc.cfg = cfg → enc.spaced = false → run m enc = some (enc.put x, none)

theorem appendScalar_put (hcfg : enc.cfg = cfg) (hspaced : enc.spaced = false) {s : Scalar}
    (hcalls : scalarCalls cfg s ≠ []) :
    enc.appendScalar s = enc.put (callsText (scalarCalls cfg s)) := by
  rw [appendScalar_eq, hcfg]
  exact foldl_appendCall hspaced hcalls

theorem puts_add {s : Scalar} (key : Bytes) (hcalls : scalarCalls cfg s ≠ []) :
    Puts cfg (.add key s (.done none))
      (Json.keyText false (escape key) ++ callsText (scalarCalls cfg s)) := by
  intro enc hcfg hspaced
  have hkey : (enc.addKey key).spaced = false := by rw [addKey_eq, put_spaced, hspaced]
  rw [run, appendScalar_put ((enc.addKey_cfg key).trans hcfg) hkey hcalls, addKey_put, hspaced]
  rfl

theorem puts_append {s : Scalar} (hcalls : scalarCalls cfg s ≠ []) :
    Puts cfg (.append s (.done none)) (callsText (scalarCalls cfg s)) := by
  intro enc hcfg hspaced
  rw [run, appendScalar_put hcfg hspaced hcalls]
  rfl

theorem puts_addArray {arr : ArrayMarshaler} {x : Bytes} (key : Bytes) (h : Puts cfg arr x) :
    Puts cfg (.addArray key arr fun _ => .done none)
      (Json.keyText false (escape key) ++ 0x5B :: (x ++ [0x5D])) := by
  intro enc hcfg hspaced
  have hinner := h ((enc.addKey key).put [0x5B]) ((enc.addKey_cfg key).trans hcfg)
    (by rw [put_spaced, addKey_eq, put_spaced, hspaced])
  have hbracket := (enc.addKey key).put_put [] x (b := 0x5B) rfl
  rw [List.nil_append, List.nil_append] at hbracket
  simp only [run, appendArray, addElementSeparator_write, hinner, hbracket, put_write,
    Option.bind_eq_bind, Option.bind_some]
  rw [addKey_put, hspaced, List.cons_append]

theorem encodeReflected_trim {v : Reflected} {bs : Bytes} (hcfg : enc.cfg = cfg)
    (hbs : cfg.reflectedEncoder v = .ok bs) : enc.encodeReflected (some v) = .ok (trimNewline bs) := by
  simp only [encodeReflected, hcfg, hbs]

theorem puts_addReflected {v : Reflected} {bs : Bytes} (key : Bytes)
    (hbs : cfg.reflectedEncoder v = .ok bs) :
    Puts cfg (.addReflected key (some v) fun _ => .done none)
      (Json.keyText false (escape key) ++ trimNewline bs) := by
  intro enc hcfg hspaced
  simp only [run, encodeReflected_trim hcfg hbs, addKey_write, hspaced]

theorem puts_appendReflected {v : Reflected} {bs : Bytes} (hbs : cfg.reflectedEncoder v = .ok bs) :
    Puts cfg (.appendReflected (some v) fun _ => .done none) (trimNewline bs) := by
  intro enc hcfg _
  simp only [run, encodeReflected_trim hcfg hbs, addElementSeparator_write]

/-- Behind a blank the next key stands without a comma. -/
theorem puts_blank {v : Reflected} {bs : Bytes} (hbs : cfg.reflectedEncoder v = .ok bs)
    (hblank : (trimNewline bs).getLast? = some 0x20) :
    Puts cfg (.addReflected [] (some v) fun _ => .add [] (.prim (.string [])) (.done none))
      (Json.keyText false (escape []) ++
        (trimNewline bs ++ (Json.keyText false (escape []) ++ quoted []))) := by
  intro enc hcfg hspaced
  have hne : trimNewline bs ≠ [] := by
    intro hnil
    rw [hnil] at hblank
    cases hblank
  have hsep : Json.separator false (enc.put (Json.keyText false (escape []) ++ trimNewline bs)).buf =
      [] := by
    rw [put_buf, ← List.append_assoc, ← List.append_assoc, Json.separator_append false _ hne,
      Json.separator, hblank]
    rfl
  simp only [run, encodeReflected_trim hcfg hbs, addKey_write, hspaced, appendScalar, appendPrim,
    appendString_eq, addKey_put, put_spaced]
  rw [put, put_spaced, hspaced, hsep, List.nil_append, put_write]
  simp only [List.append_assoc]

end JsonEncoder

section Tests

variable [Host] {cfg : EncoderConfig} {ent : Entry} {ms : List Member}

/-- Encoding with a marshaler that only puts a text ends in an object. -/
theorem EncodesEntries.parsed (h : EncodesEntries cfg) (hstack : ent.stack = [])
    (hms : metadata cfg ent = some ms) {m : ObjectMarshaler}
    (hcalm : ∀ refl, (m.transcript refl).isSome) {full : JsonEncoder}
    (hrun : JsonEncoder.run m ((opened cfg).addMembers ms) = some (full, none))
    (hopen : full.openNamespaces = 0) :
    ∃ js, Json.parse (full.buf ++ [0x7D]) = some (.obj js) := by
  have hfields : ∀ refl, ((addFields [inlined m]).transcript refl).isSome := by
    intro refl
    obtain ⟨⟨c, err⟩, hc⟩ := Option.isSome_iff_exists.mp (hcalm refl)
    simp only [addFields, inlined, Field.addTo, Marshaler.transcript_andThen, hc, Option.bind_some]
    cases err <;> rfl
  obtain ⟨⟨text, js, htext, hparse⟩, _⟩ := h ent [inlined m] hfields
  have hfull : ((opened cfg).addMembers ms).addFields [inlined m] = some full := by
    simp only [JsonEncoder.addFields, addFields, inlined, Field.addTo, run_andThen, hrun,
      Option.bind_eq_bind, Option.bind_some, reportError, JsonEncoder.run]
  have hcfg : full.cfg = cfg.completed :=
    (JsonEncoder.run_keeps rfl hrun).trans ((opened cfg).addMembers_cfg ms)
  rw [encodeEntry_opened hms, hfull, Option.map_some, finish_plain hopen hstack, hcfg] at htext
  have hsame : full.buf ++ [0x7D] = text := List.append_cancel_right (Option.some.inj htext)
  exact ⟨js, hsame ▸ hparse⟩

/-- A marshaler that puts one member puts something behind the key that may stand there. -/
theorem EncodesEntries.field (h : EncodesEntries cfg) (hstack : ent.stack = [])
    (hms : metadata cfg ent = some ms) (hones : ∀ m ∈ ms, WritesOne m.2) {m : ObjectMarshaler}
    (hcalm : ∀ refl, (m.transcript refl).isSome) {x : Bytes}
    (hputs : JsonEncoder.Puts cfg.completed m (Json.keyText false (escape []) ++ x)) :
    Json.Sequel .members x := by
  obtain ⟨t, is, hplace⟩ := (place_opened cfg).addOnes hones
  have hrun := hputs _ hplace.cfg_eq hplace.spaced_eq
  obtain ⟨js, hparse⟩ := h.parsed hstack hms hcalm hrun hplace.count
  exact hplace.sequel hparse

/-- What stands behind the key of a member of the metadata may stand there. -/
theorem EncodesEntries.metadata (h : EncodesEntries cfg) (hstack : ent.stack = [])
    {pre post : List Member} {m : Member} (hms : Zapcore.metadata cfg ent = some (pre ++ m :: post))
    (hones : ∀ m ∈ pre, WritesOne m.2) (hcalls : m.2 ≠ []) :
    ∃ r, (r = [] ∨ ∃ s, r = 0x2C :: s) ∧ Json.Sequel .members (callsText m.2 ++ r) := by
  obtain ⟨t, is, hplace⟩ := (place_opened cfg).addOnes hones
  have hput : ((opened cfg).addMembers pre).addMember m =
      ((opened cfg).addMembers pre).put (Json.keyText false (escape m.1) ++ callsText m.2) := by
    rw [JsonEncoder.addMember_put hplace.spaced_eq m hcalls, JsonEncoder.addKey_put,
      hplace.spaced_eq]
  -- behind the calls come the other members, or nothing
  have hsep : Json.separator false (((opened cfg).addMembers pre).addMember m).buf = [0x2C] := by
    obtain ⟨p, c, hends⟩ := callsText_ends hcalls
    rw [hput, hplace.put_buf, hends]
    simp only [← List.append_assoc]
    exact separator_callText _ c
  have hspaced : (((opened cfg).addMembers pre).addMember m).spaced = false := by
    rw [hput, JsonEncoder.put_spaced, hplace.spaced_eq]
  obtain ⟨r, hbuf, hr⟩ := addMembers_tail hspaced hsep post
  have hfull : (opened cfg).addMembers (pre ++ m :: post) =
      (((opened cfg).addMembers pre).addMember m).addMembers post :=
    (opened cfg).addMembers_append pre (m :: post)
  obtain ⟨js, hparse⟩ := h.parsed hstack hms (m := .done none) (fun _ => rfl) rfl
    (addMembers_openNamespaces _ _)
  have htext : ((opened cfg).addMembers (pre ++ m :: post)).buf =
      (((opened cfg).addMembers pre).put
        (Json.keyText false (escape m.1) ++ (callsText m.2 ++ r))).buf := by
    rw [hfull, hbuf, hput, ← List.append_assoc (Json.keyText _ _)]
    exact congrArg JsonEncoder.buf (JsonEncoder.put_write _ _ r)
  rw [htext] at hparse
  exact ⟨r, hr, hplace.sequel hparse⟩

end Tests

/-! ### Every function is tested -/

/-- An entry with nothing but a level. -/
def bare (l : Level) : Entry := { Entry.zero with level := l }

theorem metadata_bare (cfg : EncoderConfig) (l : Level) :
    metadata cfg (bare l) = some (levelMember cfg (bare l) ++ messageMember cfg (bare l)) := by
  simp [metadata, bare, Entry.zero, timeMember, nameMember, callerMember, functionMember, stringMember,
    Time.isZero]

theorem messageMember_ones (cfg : EncoderConfig) (ent : Entry) :
    ∀ m ∈ messageMember cfg ent, WritesOne m.2 :=
  stringMember_forall (fun s => writesOne_prim (.string s)) _ _ _

namespace EncodesEntries

variable [Host] {cfg : EncoderConfig} (h : EncodesEntries cfg)
include h

/-- A nil function for callers is called. -/
theorem callerKey (hkey : cfg.callerKey ≠ []) : cfg.encodeCaller ≠ none := by
  intro hnone
  obtain ⟨⟨text, ms, htext, _⟩, _⟩ := h { bare Level.info with caller := ⟨true, [], 0, []⟩ } []
    fun _ => rfl
  have hmetadata : Zapcore.metadata (newJSONEncoder cfg false).cfg
      { bare Level.info with caller := ⟨true, [], 0, []⟩ } = none := by
    have hcaller : callerMember (newJSONEncoder cfg false).cfg
        { bare Level.info with caller := ⟨true, [], 0, []⟩ } = none := by
      simp [callerMember, newJSONEncoder, hkey, hnone]
    rw [Zapcore.metadata, hcaller]
    rfl
  rw [JsonEncoder.encodeEntry_eq, hmetadata] at htext
  cases htext

theorem level (hkey : cfg.levelKey ≠ []) {e : LevelEncoder} (he : cfg.encodeLevel = some e)
    (l : Level) : (e l).length ≤ 1 := by
  have hmember : levelMember cfg (bare l) =
      [(cfg.levelKey, effectiveCalls ((e l).map .prim) (.string (Level.string l)))] := by
    simp [levelMember, he, hkey, bare]
  have hms : Zapcore.metadata cfg (bare l) = some ([] ++ (cfg.levelKey,
      effectiveCalls ((e l).map .prim) (.string (Level.string l))) ::
        messageMember cfg (bare l)) := by
    rw [metadata_bare, hmember]
    rfl
  obtain ⟨r, hr, hseq⟩ := h.metadata rfl hms (List.forall_mem_nil _) (effectiveCalls_ne_nil _ _)
  exact length_prims_le hseq hr

theorem level_ones (ent : Entry) : ∀ m ∈ levelMember cfg ent, WritesOne m.2 := by
  unfold levelMember
  split
  · next e he =>
    split
    · next hkey => exact List.forall_mem_singleton.mpr (writesOne_prims (h.level hkey he _) _)
    · exact List.forall_mem_nil _
  · exact List.forall_mem_nil _

theorem name (hkey : cfg.nameKey ≠ []) {s : Bytes} (hs : s ≠ []) :
    (cfg.nameEncoder s).length ≤ 1 := by
  let ent := { bare Level.info with loggerName := s }
  have hms : Zapcore.metadata cfg ent = some (levelMember cfg ent ++
      (cfg.nameKey, effectiveCalls ((cfg.nameEncoder s).map .prim) (.string s)) ::
        messageMember cfg ent) := by
    simp [Zapcore.metadata, ent, bare, Entry.zero, timeMember, nameMember, callerMember,
      functionMember, stringMember, Time.isZero, hkey, hs]
  obtain ⟨r, hr, hseq⟩ := h.metadata rfl hms (h.level_ones ent) (effectiveCalls_ne_nil _ _)
  exact length_prims_le hseq hr

theorem caller (hkey : cfg.callerKey ≠ []) {e : CallerEncoder} (he : cfg.encodeCaller = some e)
    {ec : EntryCaller} (hdefined : ec.defined) : (e ec).length ≤ 1 := by
  let ent := { bare Level.info with caller := ec }
  have hms : Zapcore.metadata cfg ent = some (levelMember cfg ent ++
      (cfg.callerKey, effectiveCalls ((e ec).map .prim) (.string ec.fullPath)) ::
        (functionMember cfg ent ++ messageMember cfg ent)) := by
    simp [Zapcore.metadata, ent, bare, Entry.zero, timeMember, nameMember, callerMember, Time.isZero,
      hkey, he, hdefined]
  obtain ⟨r, hr, hseq⟩ := h.metadata rfl hms (h.level_ones ent) (effectiveCalls_ne_nil _ _)
  exact length_prims_le hseq hr

/-- What a marshaler puts behind a key may stand there. -/
theorem puts {m : ObjectMarshaler} (hcalm : ∀ refl, (m.transcript refl).isSome) {x : Bytes}
    (hputs : JsonEncoder.Puts cfg.completed m (Json.keyText false (escape []) ++ x)) :
    Json.Sequel .members x :=
  h.field rfl (metadata_bare cfg Level.info)
    (List.forall_mem_append.mpr ⟨h.level_ones _, messageMember_ones cfg _⟩) hcalm hputs

theorem duration {e : DurationEncoder} (he : cfg.encodeDuration = some e) (d : Duration) :
    (e d).length ≤ 1 := by
  have hseq := h.puts (fun _ => rfl)
    (JsonEncoder.puts_add (s := .duration d) [] (effectiveCalls_ne_nil _ _))
  have hcalls : scalarCalls cfg.completed (.duration d) =
      effectiveCalls ((e d).map .prim) (.int .int64 d) := by
    have hcompleted : cfg.completed.encodeDuration = some e := he
    simp only [scalarCalls, EncoderConfig.durationCalls, hcompleted]
  rw [hcalls, ← List.append_nil (callsText _)] at hseq
  exact length_prims_le hseq (.inl rfl)

/-- What is put behind a key, and between brackets, is one value. -/
theorem single {m : ObjectMarshaler} (hcalm : ∀ refl, (m.transcript refl).isSome)
    {arr : ArrayMarshaler} (harrCalm : ∀ refl, (arr.transcript refl).isSome) {x : Bytes}
    (hputs : JsonEncoder.Puts cfg.completed m (Json.keyText false (escape []) ++ x))
    (harr : JsonEncoder.Puts cfg.completed arr x) : Json.Single x := by
  refine Json.single_of_both (h.puts hcalm hputs) (h.puts ?_ (JsonEncoder.puts_addArray [] harr))
  intro refl
  obtain ⟨⟨c, err⟩, hc⟩ := Option.isSome_iff_exists.mp (harrCalm refl)
  simp only [Marshaler.transcript, hc, Option.bind_some]
  rfl

theorem time {e : TimeEncoder} (he : cfg.encodeTime = some e) {t : Time} (hne : e t ≠ []) :
    WritesOne (e t) := by
  have hcalls : scalarCalls cfg.completed (.time t) = e t := by
    have hcompleted : cfg.completed.encodeTime = some e := he
    simp only [scalarCalls, EncoderConfig.timeCalls, hcompleted, effectiveCalls, if_neg hne]
  have hsingle := h.single (fun _ => rfl) (fun _ => rfl)
    (JsonEncoder.puts_add (s := .time t) [] (hcalls.symm ▸ hne))
    (JsonEncoder.puts_append (hcalls.symm ▸ hne))
  rw [hcalls] at hsingle
  refine slot_of_single hsingle ?_
  obtain ⟨p, c, hends⟩ := callsText_ends hne
  obtain ⟨b, hb, hopens⟩ := callText_last c
  rw [hends, List.getLast?_append_of_ne_nil p (JsonEncoder.callText_ne_nil c), hb]
  rintro ⟨⟩
  cases hopens

theorem reflected {e : ReflectedEncoder} (he : cfg.newReflectedEncoder = some e) {v : Reflected}
    {bs : Bytes} (hbs : e v = .ok bs) : ∃ j, Json.Slot (JsonEncoder.trimNewline bs) j := by
  have hencoder : cfg.completed.reflectedEncoder v = .ok bs := by
    rw [← hbs, ← Option.getD_some (a := e), ← he]
    rfl
  have hsingle : Json.Single (JsonEncoder.trimNewline bs) := by
    refine h.single (fun refl => ?_) (fun refl => ?_) (JsonEncoder.puts_addReflected [] hencoder)
      (JsonEncoder.puts_appendReflected hencoder)
    · simp only [Marshaler.transcript]
      split <;> rfl
    · simp only [Marshaler.transcript]
      split <;> rfl
  refine slot_of_single hsingle fun hblank => ?_
  -- the next key would follow without a comma
  have hseq : Json.Sequel .members (JsonEncoder.trimNewline bs ++
      (Json.keyText false (escape []) ++ quoted [])) := by
    refine h.puts (fun refl => ?_) (JsonEncoder.puts_blank hencoder hblank)
    simp only [Marshaler.transcript]
    split <;> rfl
  obtain ⟨w, t, w', j, htext, hw, ht, hw'⟩ := hsingle
  rw [htext, List.append_assoc, List.append_assoc] at hseq
  have hcont := hseq.continues hw ht (Json.follow_ws hw' (by decide) _)
  exact absurd (hcont.comma hw' (by decide)).1 (by decide)

end EncodesEntries

/-- Encoding returns for every entry and all fields, with one JSON object from the JSON encoder, iff
there is a function for callers if they are to be written, and each function writes one JSON
value. -/
theorem encodesEntries_iff [Host] (cfg : EncoderConfig) : EncodesEntries cfg ↔ cfg.Encodes := by
  refine ⟨fun h => ?_, EncoderConfig.Encodes.entries⟩
  exact {
    callerKey := h.callerKey
    level := fun hkey _ he l => h.level hkey he l
    name := fun hkey _ hs => h.name hkey hs
    caller := fun hkey _ he _ hdefined => h.caller hkey he hdefined
    duration := fun _ he d => h.duration he d
    time := fun _ he _ hne => h.time he hne
    reflected := fun _ he _ _ hbs => h.reflected he hbs }

/-- An entry with a caller, and no function for callers: the JSON encoder calls it, the console
encoder does not. -/
theorem nil_caller_panics :
    let _ : Host := ⟨Location.utc⟩
    let cfg := { newProductionEncoderConfig with encodeCaller := none }
    let ent := { bare Level.info with caller := ⟨true, utf8 "main.go", 7, utf8 "main.main"⟩ }
    (newJSONEncoder cfg false).encodeEntry ent [] = none ∧
      (newConsoleEncoder cfg).encodeEntry ent [] = some (utf8 "info\t\n") := by
  exact ⟨rfl, rfl⟩

end Zap.Zapcore
