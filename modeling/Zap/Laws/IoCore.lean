import Zap.Laws.Context
import Zap.Laws.Write
import Zap.Zapcore.Unwinding

/-!
# Encoders in cores

Cores work with any encoder. This module makes the JSON and the console encoder encoders in that
sense and carries the law about context over to `ioCore`: with either of them, what `With` has
added and what `Write` is given reach the destination as one list of fields.

A marshaler may panic, and the cores of `Zap.Zapcore.Core` know nothing of that. So an encoder in a
core is an `Option`: for them a call that panics in Go leaves `none`, with which nothing is ever
written, and goes on. The cores of `Zap.Zapcore.Unwinding` do not get there: for them such a call is
one that panics.
-/

set_option autoImplicit false

namespace Zap.Zapcore

open Data

/-- An encoder of this package. Its operations answer `none` when a marshaler panics. -/
class FieldEncoder (E : Type) where
  addFields : E → List Field → Option E
  encodeEntry : E → Entry → List Field → Option Bytes
  encodeEntry_addFields : ∀ enc ent as bs,
    ((addFields enc as).bind fun enc => encodeEntry enc ent bs) = encodeEntry enc ent (as ++ bs)

instance [Host] : FieldEncoder JsonEncoder where
  addFields := JsonEncoder.addFields
  encodeEntry := JsonEncoder.encodeEntry
  encodeEntry_addFields := fun enc => enc.encodeEntry_addFields

instance [Host] : FieldEncoder ConsoleEncoder where
  addFields := ConsoleEncoder.addFields
  encodeEntry := ConsoleEncoder.encodeEntry
  encodeEntry_addFields := ConsoleEncoder.encodeEntry_addFields

instance {E : Type} [FieldEncoder E] : Encoder (Option E) Field where
  addFields enc fields := enc.bind fun enc => FieldEncoder.addFields enc fields
  encodeEntry enc ent fields :=
    match enc.bind fun enc => FieldEncoder.encodeEntry enc ent fields with
    | some buf => .ok buf
    | none => .error (utf8 "panic")

/-- What panics is a marshaler. -/
instance {E : Type} [FieldEncoder E] : Panics (Option E) Field where
  addFields enc fields := enc.any fun enc => (FieldEncoder.addFields enc fields).isNone
  encodeEntry enc ent fields := enc.any fun enc => (FieldEncoder.encodeEntry enc ent fields).isNone

/-- An encoder for which fields that were added in advance are fields of the entry. -/
class LawfulEncoder (E F : Type) [Encoder E F] : Prop where
  encodeEntry_addFields : ∀ (enc : E) (as bs : List F) (ent : Entry),
    Encoder.encodeEntry (Encoder.addFields enc as) ent bs = Encoder.encodeEntry enc ent (as ++ bs)

instance {E : Type} [FieldEncoder E] : LawfulEncoder (Option E) Field where
  encodeEntry_addFields enc as bs ent := by
    have hbind : ((enc.bind fun e => FieldEncoder.addFields e as).bind fun e =>
        FieldEncoder.encodeEntry e ent bs) =
          enc.bind fun e => FieldEncoder.encodeEntry e ent (as ++ bs) := by
      rw [Option.bind_assoc]
      exact congrArg enc.bind (funext fun e => FieldEncoder.encodeEntry_addFields e ent as bs)
    simp only [Encoder.encodeEntry, Encoder.addFields, hbind]

/-- What `With` adds in several calls is emitted in front of the fields of the entry. -/
theorem emitted_withFields {E F : Type} [Encoder E F] [LawfulEncoder E F] (core : IoCore E)
    (ent : Entry) (contexts : List (List F)) (fields : List F) :
    (contexts.foldl IoCore.withFields core).emitted ent fields =
      core.emitted ent (contexts.flatten ++ fields) := by
  induction contexts generalizing core with
  | nil => rfl
  | cons fs contexts ih =>
    rw [List.foldl_cons, ih, List.flatten_cons, List.append_assoc]
    simp only [IoCore.emitted, IoCore.withFields, LawfulEncoder.encodeEntry_addFields]

/-- The line that `Write` puts out for a list of fields, wherever they come from. -/
theorem withs_write_outputs {E : Type} [FieldEncoder E] [Environment (Option E) Field]
    (level : LevelEnabler) (enc : E) (out : Nat) (ent : Entry) (as : List (List Field))
    (bs : List Field) (w : World (Option E) Field) :
    outputsOf (IoCore.write (as.foldl IoCore.withFields ⟨level, some enc, out⟩) ent bs w).2.trace =
      outputsOf w.trace ++
        (FieldEncoder.encodeEntry enc ent (as.flatten ++ bs)).toList.map fun buf => (out, buf) := by
  have hcalls := (as.foldl IoCore.withFields ⟨level, some enc, out⟩).write_calls ent bs w
  rw [hcalls.outputs, emitted_withFields]
  simp only [IoCore.emitted, Encoder.encodeEntry, Option.bind_some]
  cases FieldEncoder.encodeEntry enc ent (as.flatten ++ bs) <;> rfl

/-- Context that is encoded in advance cannot be told from fields at the call: with the JSON and
with the console encoder, `With(A₁) … With(Aₖ)` and `Write(ent, B)` put out the bytes of
`Write(ent, A₁ ++ … ++ Aₖ ++ B)`, which are those of `EncodeEntry`. -/
theorem with_write_bytes [Host] :
    (∀ [Environment (Option JsonEncoder) Field] (level : LevelEnabler) (enc : JsonEncoder)
        (out : Nat) (ent : Entry) (as : List (List Field)) (bs : List Field)
        (w : World (Option JsonEncoder) Field),
      let core : IoCore (Option JsonEncoder) := ⟨level, some enc, out⟩
      let line := (enc.encodeEntry ent (as.flatten ++ bs)).toList.map fun buf => (out, buf)
      outputsOf ((as.foldl IoCore.withFields core).write ent bs w).2.trace =
          outputsOf w.trace ++ line ∧
        outputsOf (core.write ent (as.flatten ++ bs) w).2.trace = outputsOf w.trace ++ line) ∧
    (∀ [Environment (Option ConsoleEncoder) Field] (level : LevelEnabler) (enc : ConsoleEncoder)
        (out : Nat) (ent : Entry) (as : List (List Field)) (bs : List Field)
        (w : World (Option ConsoleEncoder) Field),
      let core : IoCore (Option ConsoleEncoder) := ⟨level, some enc, out⟩
      let line := (enc.encodeEntry ent (as.flatten ++ bs)).toList.map fun buf => (out, buf)
      outputsOf ((as.foldl IoCore.withFields core).write ent bs w).2.trace =
          outputsOf w.trace ++ line ∧
        outputsOf (core.write ent (as.flatten ++ bs) w).2.trace = outputsOf w.trace ++ line) := by
  constructor
  · intro _ level enc out ent as bs w
    exact ⟨withs_write_outputs level enc out ent as bs w,
      withs_write_outputs level enc out ent [] (as.flatten ++ bs) w⟩
  · intro _ level enc out ent as bs w
    exact ⟨withs_write_outputs level enc out ent as bs w,
      withs_write_outputs level enc out ent [] (as.flatten ++ bs) w⟩

/-! ## A leaf with the JSON encoder -/

/-- An environment in which nothing fails. -/
abbrev Environment.reliable (E F : Type) : Environment E F :=
  ⟨fun _ _ _ => none, fun _ _ => none, fun _ _ _ => none⟩

/-- A message at the info level. -/
def greeting : Entry where
  level := Level.info
  time := Time.ofUnixNano 0 Location.utc
  loggerName := []
  message := utf8 "hello"
  caller := ⟨false, [], 0, []⟩
  stack := []

/-- A leaf with the JSON encoder. -/
def jsonLeaf (level : Level) (out : Nat) : IoCore (Option JsonEncoder) :=
  ⟨.level level, some (newJSONEncoder newProductionEncoderConfig false), out⟩

/-- `Array("k", nil)`. -/
def nilArray : Field := ⟨utf8 "k", .arrayMarshaler, 0, [], .nil⟩

/-- Whatever the entry is, its fields panic. -/
theorem jsonLeaf_encodeEntry_panics [Host] (level : Level) (out : Nat) (ent : Entry) :
    Panics.encodeEntry (jsonLeaf level out).enc ent [nilArray] = true := by
  have hnone : (newJSONEncoder newProductionEncoderConfig false).encodeEntry ent [nilArray] = none := by
    unfold JsonEncoder.encodeEntry
    cases (newJSONEncoder newProductionEncoderConfig false).encodeMetadata ent with
    | none => rfl
    | some final => rfl
  exact congrArg Option.isNone hnone

end Zap.Zapcore
