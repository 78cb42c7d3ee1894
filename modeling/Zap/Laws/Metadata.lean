import Zap.Laws.JsonText

/-!
# The metadata of an entry

`EncodeEntry` writes the level, time, logger name, caller, calling function, message and stack
trace of an entry as members of one kind: a key, and the calls of an encoding function or their
fallback. `metadata` lists the members that a configuration and an entry call for, and the
equations here say that the encoder writes these, in this order. The one way for it to fail is a
defined caller with a key but no encoding function.
-/

set_option autoImplicit false

namespace Zap.Zapcore

open Data

/-- A key and the calls that write the value behind it. -/
abbrev Member := Bytes × List AppendCall

/-- The member of the level. -/
def levelMember (cfg : EncoderConfig) (ent : Entry) : List Member :=
  match cfg.encodeLevel with
  | some e =>
    if cfg.levelKey ≠ [] then
      [(cfg.levelKey, effectiveCalls ((e ent.level).map .prim) (.string (Level.string ent.level)))]
    else []
  | none => []

/-- The member of the time. -/
def timeMember (cfg : EncoderConfig) (ent : Entry) : List Member :=
  if cfg.timeKey ≠ [] ∧ !ent.time.isZero then [(cfg.timeKey, scalarCalls cfg (.time ent.time))]
  else []

/-- The member of the logger name. -/
def nameMember (cfg : EncoderConfig) (ent : Entry) : List Member :=
  if ent.loggerName ≠ [] ∧ cfg.nameKey ≠ [] then
    [(cfg.nameKey, effectiveCalls ((cfg.nameEncoder ent.loggerName).map .prim)
      (.string ent.loggerName))]
  else []

/-- The member of the caller; `none` is the panic of calling a nil function. -/
def callerMember (cfg : EncoderConfig) (ent : Entry) : Option (List Member) :=
  if ent.caller.defined ∧ cfg.callerKey ≠ [] then
    match cfg.encodeCaller with
    | some e =>
      some [(cfg.callerKey, effectiveCalls ((e ent.caller).map .prim) (.string ent.caller.fullPath))]
    | none => none
  else some []

/-- A member whose value is a string, written under a condition. -/
def stringMember (p : Prop) [Decidable p] (key s : Bytes) : List Member :=
  if p then [(key, [.prim (.string s)])] else []

/-- The member of the calling function. -/
def functionMember (cfg : EncoderConfig) (ent : Entry) : List Member :=
  stringMember (ent.caller.defined ∧ cfg.functionKey ≠ []) cfg.functionKey ent.caller.function

/-- The member of the message. -/
def messageMember (cfg : EncoderConfig) (ent : Entry) : List Member :=
  stringMember (cfg.messageKey ≠ []) cfg.messageKey ent.message

/-- The member of the stack trace. -/
def stackMember (cfg : EncoderConfig) (ent : Entry) : List Member :=
  stringMember (ent.stack ≠ [] ∧ cfg.stacktraceKey ≠ []) cfg.stacktraceKey ent.stack

/-- The members in front of the context, in their order. -/
def metadata (cfg : EncoderConfig) (ent : Entry) : Option (List Member) := do
  let caller ← callerMember cfg ent
  some (levelMember cfg ent ++ (timeMember cfg ent ++ (nameMember cfg ent ++
    (caller ++ (functionMember cfg ent ++ messageMember cfg ent)))))

/-- Only a nil function for a caller that is to be written is in the way of the metadata. -/
theorem metadata_isSome_iff (cfg : EncoderConfig) (ent : Entry) :
    (metadata cfg ent).isSome = true ↔
      (ent.caller.defined = true → cfg.callerKey ≠ [] → cfg.encodeCaller ≠ none) := by
  have hmeta : (metadata cfg ent).isSome = (callerMember cfg ent).isSome := by
    unfold metadata
    cases callerMember cfg ent <;> rfl
  rw [hmeta]
  unfold callerMember
  split
  · next hcaller =>
    cases cfg.encodeCaller with
    | none => exact ⟨fun h => (by cases h), fun h => absurd rfl (h hcaller.1 hcaller.2)⟩
    | some e => exact ⟨fun _ _ _ => nofun, fun _ => rfl⟩
  · next hcaller => exact ⟨fun _ hdefined hkey => absurd ⟨hdefined, hkey⟩ hcaller, fun _ => rfl⟩

theorem stringMember_forall {P : List AppendCall → Prop} (h : ∀ s, P [.prim (.string s)])
    (p : Prop) [Decidable p] (key s : Bytes) : ∀ m ∈ stringMember p key s, P m.2 := by
  unfold stringMember
  split
  · exact List.forall_mem_singleton.mpr (h s)
  · exact List.forall_mem_nil _

/-- What holds of the calls for each part of an entry holds of all its metadata. -/
theorem metadata_forall {P : List AppendCall → Prop} {cfg : EncoderConfig} {ent : Entry}
    {ms : List Member} (hms : metadata cfg ent = some ms)
    (level : cfg.levelKey ≠ [] → ∀ e, cfg.encodeLevel = some e →
      P (effectiveCalls ((e ent.level).map .prim) (.string (Level.string ent.level))))
    (time : P (scalarCalls cfg (.time ent.time)))
    (name : ent.loggerName ≠ [] ∧ cfg.nameKey ≠ [] →
      P (effectiveCalls ((cfg.nameEncoder ent.loggerName).map .prim) (.string ent.loggerName)))
    (caller : ent.caller.defined ∧ cfg.callerKey ≠ [] → ∀ e, cfg.encodeCaller = some e →
      P (effectiveCalls ((e ent.caller).map .prim) (.string ent.caller.fullPath)))
    (string : ∀ s, P [.prim (.string s)]) : ∀ m ∈ ms, P m.2 := by
  obtain ⟨callers, hcaller, hans⟩ := Option.bind_eq_some_iff.mp hms
  cases hans
  simp only [List.forall_mem_append]
  refine ⟨?_, ?_, ?_, ?_, stringMember_forall string _ _ _, stringMember_forall string _ _ _⟩
  · unfold levelMember
    split
    · next e he =>
      split
      · next hkey => exact List.forall_mem_singleton.mpr (level hkey e he)
      · exact List.forall_mem_nil _
    · exact List.forall_mem_nil _
  · unfold timeMember
    split
    · exact List.forall_mem_singleton.mpr time
    · exact List.forall_mem_nil _
  · unfold nameMember
    split
    · next hkey => exact List.forall_mem_singleton.mpr (name hkey)
    · exact List.forall_mem_nil _
  · unfold callerMember at hcaller
    split at hcaller
    · next hkey =>
      split at hcaller
      · next e he =>
        cases hcaller
        exact List.forall_mem_singleton.mpr (caller hkey e he)
      · cases hcaller
    · cases hcaller
      exact List.forall_mem_nil _

namespace JsonEncoder

/-- Write one member. -/
def addMember (enc : JsonEncoder) (m : Member) : JsonEncoder :=
  m.2.foldl appendCall (enc.addKey m.1)

/-- Write members in order. -/
def addMembers (enc : JsonEncoder) (ms : List Member) : JsonEncoder := ms.foldl addMember enc

variable (enc : JsonEncoder)

theorem addMembers_append (ms ns : List Member) :
    enc.addMembers (ms ++ ns) = (enc.addMembers ms).addMembers ns := List.foldl_append

@[simp] theorem addKey_cfg (key : Bytes) : (enc.addKey key).cfg = enc.cfg := by
  rw [addKey_eq, put_cfg]

/-- Writing members leaves the configuration alone. -/
theorem addMembers_fixed (ms : List Member) :
    (enc.addMembers ms).cfg = enc.cfg ∧ (enc.addMembers ms).spaced = enc.spaced := by
  have calls : ∀ (cs : List AppendCall) (e : JsonEncoder),
      (cs.foldl appendCall e).cfg = e.cfg ∧ (cs.foldl appendCall e).spaced = e.spaced := by
    intro cs
    induction cs with
    | nil => exact fun e => ⟨rfl, rfl⟩
    | cons c cs ih =>
      intro e
      have hrest := ih (e.appendCall c)
      rwa [appendCall_eq, put_cfg, put_spaced, ← appendCall_eq] at hrest
  induction ms generalizing enc with
  | nil => exact ⟨rfl, rfl⟩
  | cons m ms ih =>
    have hcalls := calls m.2 (enc.addKey m.1)
    rw [addKey_eq, put_cfg, put_spaced, ← addKey_eq] at hcalls
    have hrest := ih (enc.addMember m)
    exact ⟨hrest.1.trans hcalls.1, hrest.2.trans hcalls.2⟩

@[simp] theorem addMembers_cfg (ms : List Member) : (enc.addMembers ms).cfg = enc.cfg :=
  (enc.addMembers_fixed ms).1

@[simp] theorem addMembers_spaced (ms : List Member) : (enc.addMembers ms).spaced = enc.spaced :=
  (enc.addMembers_fixed ms).2

/-! ## The steps of `EncodeEntry` -/

theorem encodeLevel_eq (ent : Entry) :
    enc.encodeLevel ent = enc.addMembers (levelMember enc.cfg ent) := by
  unfold encodeLevel levelMember
  cases enc.cfg.encodeLevel with
  | none => rfl
  | some e =>
    simp only
    split
    · rw [appendCalls_eq]
      rfl
    · rfl

theorem encodeTime_eq (ent : Entry) :
    enc.encodeTime ent = enc.addMembers (timeMember enc.cfg ent) := by
  unfold encodeTime timeMember
  split
  · have h := (enc.addKey enc.cfg.timeKey).appendScalar_eq (.time ent.time)
    rw [addKey_cfg] at h
    exact h
  · rfl

theorem encodeName_eq (ent : Entry) :
    enc.encodeName ent = enc.addMembers (nameMember enc.cfg ent) := by
  unfold encodeName nameMember
  split
  · rw [appendCalls_eq]
    rfl
  · rfl

theorem encodeCaller_eq (ent : Entry) :
    enc.encodeCaller ent = (callerMember enc.cfg ent).map enc.addMembers := by
  unfold encodeCaller callerMember
  split
  · cases enc.cfg.encodeCaller with
    | none => rfl
    | some e =>
      simp only [appendCalls_eq]
      rfl
  · rfl

/-- The three members whose value is always a string. -/
theorem stringMember_eq (p : Prop) [Decidable p] (key s : Bytes) :
    (if p then (enc.addKey key).appendString s else enc) =
      enc.addMembers (stringMember p key s) := by
  unfold stringMember
  split
  · rfl
  · rfl

theorem encodeFunction_eq (ent : Entry) :
    enc.encodeFunction ent = enc.addMembers (functionMember enc.cfg ent) :=
  enc.stringMember_eq _ _ _

theorem encodeMessage_eq (ent : Entry) :
    enc.encodeMessage ent = enc.addMembers (messageMember enc.cfg ent) :=
  enc.stringMember_eq _ _ _

theorem encodeStack_eq (ent : Entry) :
    enc.encodeStack ent = enc.addMembers (stackMember enc.cfg ent) := enc.stringMember_eq _ _ _

/-- The metadata is an opening brace and the listed members. -/
theorem encodeMetadata_eq (ent : Entry) :
    enc.encodeMetadata ent =
      (metadata enc.cfg ent).map fun ms => (enc.clone.write [0x7B]).addMembers ms := by
  have hcfg : (enc.clone.write [0x7B]).cfg = enc.cfg := rfl
  simp only [encodeMetadata, metadata, encodeLevel_eq, encodeTime_eq, encodeName_eq,
    encodeCaller_eq, addMembers_cfg, hcfg]
  cases callerMember enc.cfg ent with
  | none => rfl
  | some caller =>
    simp only [Option.bind_eq_bind, Option.map_some, Option.bind_some, encodeFunction_eq,
      encodeMessage_eq, addMembers_cfg, hcfg, addMembers_append]

end JsonEncoder

end Zap.Zapcore
