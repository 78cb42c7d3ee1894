import Zap.Construction
import Zap.Laws.ErrorArray
import Zap.Laws.Transcript

/-!
# Nil arguments

Which fields can be added to an encoder without a panic, for every constructor and every argument.
`Safe` goes through the constructors, and through the types of fields where a field is a literal;
`returns_iff` says that it is exact.
-/

set_option autoImplicit false

namespace Zap

open Data Zapcore

variable {panics : Reflected → Bool} {refl : Option Reflected → Option Bytes}

/-! ## Marshalers that return -/

/-- The marshaler returns from an encoder that panics on some reflected values and answers the others
with the errors `refl`. -/
def ReturnsOn (panics : Reflected → Bool) (refl : Option Reflected → Option Bytes) {i : Interface}
    (m : Marshaler i) : Prop :=
  Returns refl (m.reflecting panics)

theorem not_returnsOn_panic {i : Interface} : ¬ ReturnsOn panics refl (.panic : Marshaler i) :=
  not_returns_panic

theorem reflecting_reportError (key : Bytes) (e : Option Bytes) :
    (reportError key e).reflecting panics = reportError key e := by
  cases e <;> rfl

theorem reportError_returns (panics : Reflected → Bool) (refl : Option Reflected → Option Bytes)
    (key : Bytes) (e : Option Bytes) : ReturnsOn panics refl (reportError key e) := by
  cases e <;> rfl

theorem returnsOn_andThen {i : Interface} {m : Marshaler i} {k : Option Bytes → Marshaler i}
    (hk : ∀ e, ReturnsOn panics refl (k e)) :
    ReturnsOn panics refl (m.andThen k) ↔ ReturnsOn panics refl m := by
  rw [ReturnsOn, Marshaler.reflecting_andThen]
  exact returns_andThen hk

theorem returnsOn_addArray {key : Bytes} {arr : ArrayMarshaler} :
    ReturnsOn panics refl (.addArray key arr (reportError key)) ↔ ReturnsOn panics refl arr := by
  rw [ReturnsOn, ReturnsOn, Returns, Returns, Marshaler.reflecting, Marshaler.transcript]
  cases (arr.reflecting panics).transcript refl with
  | none => exact Iff.rfl
  | some r =>
    obtain ⟨r', hr'⟩ := returns_iff_exists.mp (reportError_returns panics refl key r.2)
    simp only [Option.bind_some, hr', Option.map_some, Option.isSome_some]

theorem returnsOn_addObject {key : Bytes} {obj : ObjectMarshaler} :
    ReturnsOn panics refl (.addObject key obj (reportError key)) ↔ ReturnsOn panics refl obj := by
  rw [ReturnsOn, ReturnsOn, Returns, Returns, Marshaler.reflecting, Marshaler.transcript]
  cases (obj.reflecting panics).transcript refl with
  | none => exact Iff.rfl
  | some r =>
    obtain ⟨r', hr'⟩ := returns_iff_exists.mp (reportError_returns panics refl key r.2)
    simp only [Option.bind_some, hr', Option.map_some, Option.isSome_some]

theorem returnsOn_addFields [Host] (f : Zapcore.Field) (fs : List Zapcore.Field) :
    ReturnsOn panics refl (addFields (f :: fs)) ↔
      ReturnsOn panics refl f.addTo ∧ ReturnsOn panics refl (addFields fs) := by
  rw [addFields, ReturnsOn, ReturnsOn, ReturnsOn, Marshaler.reflecting_andThen, returns_andThen_const]

/-! ## Constructors that take care of nil -/

theorem scalars_return (ss : List Scalar) : ReturnsOn panics refl (scalars ss) := by
  induction ss with
  | nil => rfl
  | cons s ss ih =>
    rw [ReturnsOn, Returns, scalars, Marshaler.reflecting, Marshaler.transcript, Option.isSome_map]
    exact ih

mutual

/-- `encodeError` reflects on nothing. -/
theorem reflecting_encodeError (key : Bytes) (err : GoError) :
    (encodeError key err).reflecting panics = encodeError key err := by
  have htext (np : Bool) (text : Call Bytes) {next : Bytes → ObjectMarshaler}
      (hnext : ∀ basic, (next basic).reflecting panics = next basic) :
      (encodeText np key text next).reflecting panics = encodeText np key text next := by
    cases text with
    | returns basic => rw [encodeText, addString, Marshaler.reflecting, hnext]
    | panics v => cases np <;> rfl
  cases err with
  | nil => rfl
  | plain np text => exact htext np text fun _ => rfl
  | formatter np text verbose =>
    refine htext np text fun basic => ?_
    split <;> rfl
  | group np text errors =>
    refine htext np text fun basic => ?_
    rw [Marshaler.reflecting, reflecting_errArray errors]
    rfl
  | panickingGroup np text v =>
    refine htext np text fun basic => ?_
    cases np <;> rfl

theorem reflecting_errArray (errs : List GoError) :
    (errArray errs).reflecting panics = errArray errs := by
  cases errs with
  | nil => rfl
  | cons err errs =>
    by_cases hnil : err = .nil
    · rw [hnil]
      exact reflecting_errArray errs
    · rw [errArray_cons hnil, Marshaler.reflecting, reflecting_encodeError (utf8 "error") err]
      refine congrArg (Marshaler.appendObject _) (funext fun e => ?_)
      cases e with
      | none => exact reflecting_errArray errs
      | some msg => rfl

end

/-- The field of an error that is not nil. -/
theorem error_returns (key : Bytes) (err : GoError) :
    ReturnsOn panics refl ((encodeError key err).andThen (reportError key)) := by
  rw [returnsOn_andThen (reportError_returns panics refl key), ReturnsOn, reflecting_encodeError]
  exact returns_iff_exists.mpr ⟨_, encodeError_transcript refl key err⟩

theorem encodeStringer_returns (key : Bytes) (v : Zapcore.Dynamic) :
    ReturnsOn panics refl ((encodeStringer key v).andThen (reportError key)) := by
  rw [returnsOn_andThen (reportError_returns panics refl key)]
  cases v with
  | stringer np text =>
    cases text with
    | returns s => rfl
    | panics p => cases np <;> rfl
  | _ => rfl

section

variable [Host]

theorem reflectField_returns_iff (key : Bytes) (v : Option Reflected) :
    ReturnsOn panics refl (reflectField key v).addTo ↔ v.any panics = false := by
  have haddTo : (reflectField key v).addTo = .addReflected key v (reportError key) := by
    cases v <;> rfl
  rw [haddTo, ReturnsOn, Marshaler.reflecting]
  split
  · next h => exact ⟨fun hreturns => (not_returns_panic hreturns).elim, fun hany => absurd h (by simp [hany])⟩
  · next h =>
    refine ⟨fun _ => Bool.eq_false_iff.mpr h, fun _ => ?_⟩
    rw [Returns, Marshaler.transcript]
    cases refl v <;> rfl

theorem scalarField_returns (key : Bytes) (s : Scalar) :
    ReturnsOn panics refl (scalarField key s).addTo := by
  cases s with
  | prim p =>
    cases p with
    | int kind i => cases kind <;> rfl
    | uint kind u => cases kind <;> rfl
    | _ => rfl
  | duration d => rfl
  | time t =>
    simp only [scalarField, timeField]
    split <;> rfl

theorem scalarpField_returns (key : Bytes) (s : Option Scalar) :
    ReturnsOn panics refl (scalarpField key s).addTo := by
  cases s with
  | none => exact (reflectField_returns_iff key none).mpr rfl
  | some s =>
    rw [scalarpField_some]
    exact scalarField_returns key s

theorem scalarsField_returns (key : Bytes) (ss : ScalarSlice) :
    ReturnsOn panics refl (scalarsField key ss).addTo := by
  rw [scalarsField_eq]
  exact returnsOn_addArray.mpr (scalars_return ss.scalars)

theorem namedErrorField_returns (key : Bytes) (err : GoError) :
    ReturnsOn panics refl (namedErrorField key err).addTo := by
  cases err with
  | nil => rfl
  | _ => exact error_returns key _

theorem errorsArray_returns (errs : List GoError) : ReturnsOn panics refl (errorsArray errs) := by
  have hsame : (errorsArray errs).reflecting panics = errorsArray errs := by
    induction errs with
    | nil => rfl
    | cons err errs ih =>
      by_cases hnil : err = .nil
      · rw [hnil]
        exact ih
      · rw [errorsArray_cons hnil, Marshaler.reflecting, Marshaler.reflecting_andThen,
          Marshaler.reflecting_andThen, reflecting_encodeError]
        simp only [reflecting_reportError]
        refine congrArg (Marshaler.appendObject _) (funext fun e => ?_)
        cases e with
        | none => exact ih
        | some msg => rfl
  rw [ReturnsOn, hsame]
  exact returns_iff_exists.mpr ⟨_, errorsArray_transcript refl errs⟩

theorem stringerField_returns (key : Bytes) (v : Option (Bool × Call Bytes)) :
    ReturnsOn panics refl (stringerFieldOf key v).addTo := by
  have haddTo : (stringerFieldOf key v).addTo =
      (encodeStringer key (stringerFieldOf key v).interface).andThen (reportError key) := by
    cases v <;> rfl
  rw [haddTo]
  exact encodeStringer_returns key _

end

/-! ## Constructors that do not -/

/-- The method of a marshaler that is not nil returns. -/
def Receiver.Safe (refl : Option Reflected → Option Bytes) {i : Interface} :
    UserMarshaler panics i → Prop
  | .value _ => True
  | .typedNil _ m => ReturnsOn panics refl m

/-- The method of a `fmt.Stringer` that is not nil returns. -/
def Receiver.Speaks : UserStringer → Prop
  | .value _ => True
  | .typedNil _ (.returns _) => True
  | .typedNil _ (.panics _) => False

/-- The encoder returns from a reflected value. -/
def Receiver.Reflects : UserValue panics → Prop
  | .value _ => True
  | .typedNil _ v => panics v = false

/-- No element is nil or a nil whose method panics. -/
def AllSpeak : List (Option UserStringer) → Prop
  | [] => True
  | none :: _ => False
  | some r :: rs => r.Speaks ∧ AllSpeak rs

/-- The type of a literal is known, its interface holds what the type asks for, and the marshaler or the
reflected value in it, if any, does not panic. -/
def Literal.Safe (panics : Reflected → Bool) (refl : Option Reflected → Option Bytes) (l : Literal) :
    Prop :=
  match l.field.type, l.field.interface with
  | .unknown, _ => False
  | .arrayMarshaler, .array m => ReturnsOn panics refl m
  | .objectMarshaler, .object m => ReturnsOn panics refl m
  | .inlineMarshaler, .object m => ReturnsOn panics refl m
  | .binary, .bytes _ => True
  | .byteString, .bytes _ => True
  | .complex128, .complex128 _ _ => True
  | .complex64, .complex64 _ _ => True
  | .time, .location _ => True
  | .time, .nil => True
  | .timeFull, .time _ => True
  | .reflect, .nil => True
  | .reflect, .reflected v => panics v = false
  | .error, .error err => err ≠ .nil
  | .arrayMarshaler, _ => False
  | .objectMarshaler, _ => False
  | .inlineMarshaler, _ => False
  | .binary, _ => False
  | .byteString, _ => False
  | .complex128, _ => False
  | .complex64, _ => False
  | .time, _ => False
  | .timeFull, _ => False
  | .reflect, _ => False
  | .error, _ => False
  | _, _ => True

mutual

/-- The field can be added. -/
def Construction.Safe [Host] (refl : Option Reflected → Option Bytes) : Construction panics → Prop
  | .reflect _ (some v) => v.Reflects
  | .array _ none => False
  | .array _ (some r) => r.Safe refl
  | .object _ none => True
  | .object _ (some val) => val.Safe refl
  | .inline none => False
  | .inline (some val) => val.Safe refl
  | .objects _ vals => ObjectArgument.AllSafe refl vals
  | .dict _ val => DictArgument.AllSafe refl val
  | .stringers _ vals => AllSpeak vals
  | .any _ val => val.Safe refl
  | _ => True

def DictArgument.Safe [Host] (refl : Option Reflected → Option Bytes) : DictArgument panics → Prop
  | .made c => c.Safe refl
  | .literal l => l.Safe panics refl

def DictArgument.AllSafe [Host] (refl : Option Reflected → Option Bytes) :
    List (DictArgument panics) → Prop
  | [] => True
  | arg :: args => arg.Safe refl ∧ DictArgument.AllSafe refl args

def ObjectArgument.Safe [Host] (refl : Option Reflected → Option Bytes) :
    ObjectArgument panics → Prop
  | .user r => r.Safe refl
  | .dictObject val => DictArgument.AllSafe refl val

/-- As far as the elements are reached: the first that returns an error is the last. -/
def ObjectArgument.AllSafe [Host] (refl : Option Reflected → Option Bytes) :
    List (Option (ObjectArgument panics)) → Prop
  | [] => True
  | none :: _ => False
  | some val :: vals => val.Safe refl ∧
      (((val.marshaler.reflecting panics).transcript refl).map Prod.snd = some none →
        ObjectArgument.AllSafe refl vals)

def AnyArgument.Safe [Host] (refl : Option Reflected → Option Bytes) : AnyArgument panics → Prop
  | .objectMarshaler m => m.Safe refl
  | .arrayMarshaler m => m.Safe refl
  | .fields fs => DictArgument.AllSafe refl fs
  | .other v => v.Reflects
  | _ => True

end

theorem Receiver.returns_iff {i : Interface} (r : UserMarshaler panics i) :
    ReturnsOn panics refl r.marshaler ↔ r.Safe refl := by
  cases r with
  | value m => exact ⟨fun _ => trivial, fun _ => m.property refl⟩
  | typedNil np m => exact Iff.rfl

theorem Receiver.reflects_iff [Host] (key : Bytes) (v : UserValue panics) :
    ReturnsOn panics refl (reflectField key (some v.reflected)).addTo ↔ v.Reflects := by
  rw [reflectField_returns_iff]
  cases v with
  | value v => exact ⟨fun _ => trivial, fun _ => v.property⟩
  | typedNil np v => exact Iff.rfl

theorem stringersArray_returns_iff (vals : List (Option UserStringer)) :
    ReturnsOn panics refl (stringersArray (vals.map (Option.map Receiver.text))) ↔ AllSpeak vals := by
  have hcons (s : Bytes) (rest : ArrayMarshaler) :
      ReturnsOn panics refl (.append (.prim (.string s)) rest) ↔ ReturnsOn panics refl rest := by
    rw [ReturnsOn, Returns, Marshaler.reflecting, Marshaler.transcript, Option.isSome_map]
    rfl
  induction vals with
  | nil => exact ⟨fun _ => trivial, fun _ => rfl⟩
  | cons val vals ih =>
    cases val with
    | none => exact ⟨not_returnsOn_panic, False.elim⟩
    | some r =>
      cases r with
      | value s => exact (hcons s _).trans (ih.trans ⟨fun h => ⟨trivial, h⟩, And.right⟩)
      | typedNil np text =>
        cases text with
        | returns s => exact (hcons s _).trans (ih.trans ⟨fun h => ⟨trivial, h⟩, And.right⟩)
        | panics v => exact ⟨fun h => (not_returnsOn_panic h).elim, fun h => h.1.elim⟩

/-- An array of objects returns if its first one does, and the others do where they are reached. -/
theorem objectsArray_returns_cons (m : ObjectMarshaler) (os : List (Option ObjectMarshaler)) :
    ReturnsOn panics refl (objectsArray (some m :: os)) ↔
      ReturnsOn panics refl m ∧
        (((m.reflecting panics).transcript refl).map Prod.snd = some none →
          ReturnsOn panics refl (objectsArray os)) := by
  simp only [ReturnsOn, Returns, objectsArray, Option.getD_some, Marshaler.reflecting,
    Marshaler.transcript]
  cases (m.reflecting panics).transcript refl with
  | none => exact ⟨fun h => (by cases h), fun h => (by cases h.1)⟩
  | some r =>
    obtain ⟨c, e⟩ := r
    cases e with
    | none =>
      simp only [Option.bind_some, Option.isSome_map, Option.isSome_some, Option.map_some, true_and,
        forall_const]
    | some msg => exact ⟨fun _ => ⟨rfl, fun h => (by cases h)⟩, fun _ => rfl⟩

theorem objectValues_return (vals : List (Calm panics .object)) :
    ReturnsOn panics refl (objectsArray (vals.map fun m => some m.val)) := by
  induction vals with
  | nil => rfl
  | cons m vals ih => exact (objectsArray_returns_cons m.val _).mpr ⟨m.property refl, fun _ => ih⟩

/-- A literal can be added if it is of a known type and holds what the type asks for, and only then. -/
theorem Literal.returns_iff [Host] (l : Literal) :
    ReturnsOn panics refl l.field.addTo ↔ l.Safe panics refl := by
  obtain ⟨⟨key, type, integer, string, interface⟩, reflects⟩ := l
  have hsafe {P : Prop} (h : P) : P ↔ True := ⟨fun _ => trivial, fun _ => h⟩
  cases type with
  | arrayMarshaler =>
    cases interface with
    | array m => exact returnsOn_addArray
    | _ => exact ⟨not_returnsOn_panic, False.elim⟩
  | objectMarshaler =>
    cases interface with
    | object m => exact returnsOn_addObject
    | _ => exact ⟨not_returnsOn_panic, False.elim⟩
  | inlineMarshaler =>
    cases interface with
    | object m => exact returnsOn_andThen (reportError_returns panics refl key)
    | _ => exact ⟨not_returnsOn_panic, False.elim⟩
  | reflect =>
    obtain hnil | ⟨v, hv⟩ := reflects rfl
    · obtain rfl : interface = .nil := hnil
      exact hsafe ((reflectField_returns_iff key none).mpr rfl)
    · obtain rfl : interface = .reflected v := hv
      exact reflectField_returns_iff key (some v)
  | stringer => exact hsafe (encodeStringer_returns key interface)
  | error =>
    cases interface with
    | error err =>
      cases err with
      | nil => exact ⟨fun h => (not_returnsOn_panic h).elim, fun h => absurd rfl h⟩
      | _ => exact ⟨fun _ => nofun, fun _ => error_returns key _⟩
    | _ => exact ⟨not_returnsOn_panic, False.elim⟩
  | unknown => exact ⟨not_returnsOn_panic, False.elim⟩
  | _ =>
    -- The other types ask for nothing in the interface, or for a value of one type.
    first
    | exact hsafe rfl
    | cases interface with
      | _ => first
        | exact ⟨not_returnsOn_panic, False.elim⟩
        | exact hsafe rfl

mutual

/-- A field can be added if the argument of its constructor is as required, and only then. -/
theorem Construction.returns_iff [Host] (c : Construction panics) :
    ReturnsOn panics refl c.field.addTo ↔ c.Safe refl := by
  have hsafe {P : Prop} (h : P) : P ↔ True := ⟨fun _ => trivial, fun _ => h⟩
  cases c with
  | skip => exact hsafe rfl
  | «namespace» key => exact hsafe rfl
  | scalar key val => exact hsafe (scalarField_returns key val)
  | scalarp key val => exact hsafe (scalarpField_returns key val)
  | scalars key vals => exact hsafe (scalarsField_returns key vals)
  | binary key val => exact hsafe rfl
  | reflect key val =>
    cases val with
    | none => exact hsafe ((reflectField_returns_iff key none).mpr rfl)
    | some v => exact v.reflects_iff key
  | array key val =>
    cases val with
    | none => exact ⟨not_returnsOn_panic, False.elim⟩
    | some r => exact returnsOn_addArray.trans r.returns_iff
  | object key val =>
    cases val with
    | none => exact hsafe ((reflectField_returns_iff key none).mpr rfl)
    | some val => exact returnsOn_addObject.trans (ObjectArgument.returns_iff val)
  | inline val =>
    cases val with
    | none => exact ⟨not_returnsOn_panic, False.elim⟩
    | some val =>
      exact (returnsOn_andThen (reportError_returns panics refl _)).trans
        (ObjectArgument.returns_iff val)
  | objects key vals => exact returnsOn_addArray.trans (ObjectArgument.allReturn_iff vals)
  | objectValues key vals => exact hsafe (returnsOn_addArray.mpr (objectValues_return vals))
  | dict key val => exact returnsOn_addObject.trans (DictArgument.allReturn_iff val)
  | stringer key val => exact hsafe (stringerField_returns key _)
  | stringers key vals => exact returnsOn_addArray.trans (stringersArray_returns_iff vals)
  | namedError key err => exact hsafe (namedErrorField_returns key err)
  | errors key errs => exact hsafe (returnsOn_addArray.mpr (errorsArray_returns errs))
  | any key val =>
    cases val with
    | nil => exact hsafe ((reflectField_returns_iff key none).mpr rfl)
    | objectMarshaler m => exact returnsOn_addObject.trans (ObjectArgument.returns_iff m)
    | arrayMarshaler m => exact returnsOn_addArray.trans m.returns_iff
    | fields fs => exact returnsOn_addObject.trans (DictArgument.allReturn_iff fs)
    | scalar s => exact hsafe (scalarField_returns key s)
    | pointer s => exact hsafe (scalarpField_returns key s)
    | slice ss => exact hsafe (scalarsField_returns key ss)
    | bytes bs => exact hsafe rfl
    | error err not_nil => exact hsafe (namedErrorField_returns key err)
    | errors errs => exact hsafe (returnsOn_addArray.mpr (errorsArray_returns errs))
    | stringer s => exact hsafe (stringerField_returns key (some (s.nilPointer, s.text)))
    | other v => exact v.reflects_iff key

theorem DictArgument.returns_iff [Host] (arg : DictArgument panics) :
    ReturnsOn panics refl arg.field.addTo ↔ arg.Safe refl := by
  cases arg with
  | made c => exact Construction.returns_iff c
  | literal l => exact l.returns_iff

theorem DictArgument.allReturn_iff [Host] (args : List (DictArgument panics)) :
    ReturnsOn panics refl (addFields (DictArgument.fields args)) ↔ DictArgument.AllSafe refl args := by
  cases args with
  | nil => exact ⟨fun _ => trivial, fun _ => rfl⟩
  | cons arg args =>
    exact (returnsOn_addFields _ _).trans
      (and_congr (DictArgument.returns_iff arg) (DictArgument.allReturn_iff args))

theorem ObjectArgument.returns_iff [Host] (val : ObjectArgument panics) :
    ReturnsOn panics refl val.marshaler ↔ val.Safe refl := by
  cases val with
  | user r => exact r.returns_iff
  | dictObject val => exact DictArgument.allReturn_iff val

theorem ObjectArgument.allReturn_iff [Host] (vals : List (Option (ObjectArgument panics))) :
    ReturnsOn panics refl (objectsArray (ObjectArgument.marshalers vals)) ↔
      ObjectArgument.AllSafe refl vals := by
  cases vals with
  | nil => exact ⟨fun _ => trivial, fun _ => rfl⟩
  | cons val vals =>
    cases val with
    | none => exact ⟨fun h => (by cases h), False.elim⟩
    | some val =>
      exact (objectsArray_returns_cons _ _).trans
        (and_congr (ObjectArgument.returns_iff val)
          (imp_congr_right fun _ => ObjectArgument.allReturn_iff vals))

end

/-! ## Encoders -/

end Zap
