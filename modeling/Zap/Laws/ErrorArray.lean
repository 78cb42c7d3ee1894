import Zap.Field
import Zap.Laws.ErrorTree

/-!
# The two arrays of errors

`errArray` is there twice: in `error.go`, for `Errors`, and in `zapcore/error.go`, for the causes of a
group. An element of the first is a field of its own, which reports an error that panics in its own
object. An element of the second returns the error, and that is the end of the array.
-/

set_option autoImplicit false

namespace Zap

open Data Zapcore

/-! ## Errors that are logged without an error -/

namespace Zapcore

mutual

/-- Encoding the error returns nil: what panics is a method of a nil pointer, here and in all that
is grouped. -/
def GoError.Logs : GoError → Prop
  | .nil => True
  | .plain np (.panics _) => np = true
  | .plain _ (.returns _) => True
  | .formatter np (.panics _) _ => np = true
  | .formatter _ (.returns _) _ => True
  | .group np (.panics _) _ => np = true
  | .group _ (.returns _) errors => GoError.AllLog errors
  | .panickingGroup np _ _ => np = true

def GoError.AllLog : List GoError → Prop
  | [] => True
  | err :: errs => err.Logs ∧ GoError.AllLog errs

end

/-- What is recovered is an error, unless it was a nil pointer. -/
theorem recovered_calls (np : Bool) (key v : Bytes) :
    (recovered np key v).calls.2 = none ↔ np = true := by
  cases np with
  | true => exact ⟨fun _ => rfl, fun _ => rfl⟩
  | false => exact ⟨fun h => (by cases h), fun h => (by cases h)⟩

mutual

theorem logs_iff (key : Bytes) {err : GoError} (hnil : err ≠ .nil) :
    (encodeError key err).calls.2 = none ↔ err.Logs := by
  cases err with
  | nil => exact absurd rfl hnil
  | plain np text =>
    cases text with
    | returns basic => exact ⟨fun _ => trivial, fun _ => rfl⟩
    | panics v => exact recovered_calls np key v
  | formatter np text verbose =>
    cases text with
    | returns basic =>
      refine ⟨fun _ => trivial, fun _ => ?_⟩
      by_cases hsame : verbose = basic
      · simp only [encodeError, encodeText, hsame, ↓reduceIte]
        rfl
      · simp only [encodeError, encodeText, hsame, ↓reduceIte]
        rfl
    | panics v => exact recovered_calls np key v
  | group np text errors =>
    cases text with
    | returns basic =>
      rw [encodeError_calls_group]
      exact allLog_iff errors
    | panics v => exact recovered_calls np key v
  | panickingGroup np text v =>
    cases text with
    | returns basic =>
      cases np with
      | true => exact ⟨fun _ => rfl, fun _ => rfl⟩
      | false => exact ⟨fun h => (by cases h), fun h => (by cases h)⟩
    | panics v' => exact recovered_calls np key v'

theorem allLog_iff (errs : List GoError) :
    (errArray errs).calls.2 = none ↔ GoError.AllLog errs := by
  cases errs with
  | nil => exact ⟨fun _ => trivial, fun _ => rfl⟩
  | cons err errs =>
    have hrest := allLog_iff errs
    by_cases hnil : err = .nil
    · rw [hnil]
      exact hrest.trans ⟨fun h => ⟨trivial, h⟩, And.right⟩
    · have herr := logs_iff (utf8 "error") hnil
      cases hresult : (encodeError (utf8 "error") err).calls.2 with
      | some msg =>
        rw [hresult] at herr
        rw [errArray_calls_fails hnil hresult]
        exact ⟨fun h => (by cases h), fun h => absurd (herr.mpr h.1) (fun h => by cases h)⟩
      | none =>
        rw [errArray_calls_goes hnil hresult]
        exact hrest.trans ⟨fun h => ⟨herr.mp hresult, h⟩, And.right⟩

end

end Zapcore

/-! ## The array of `Errors` -/

/-- An array of objects. -/
def ofObjects : List (Transcript .object) → Transcript .array
  | [] => .nil
  | obj :: objs => .appendObject obj (ofObjects objs)

/-- The errors that are not nil. -/
def nonNil : List GoError → List GoError
  | [] => []
  | .nil :: errs => nonNil errs
  | err :: errs => err :: nonNil errs

/-- The object that the field `Error(err)` adds: what `encodeError` adds, and the error that it
returns, if any. -/
def errorObject (err : GoError) : Transcript .object :=
  let r := (encodeError (utf8 "error") err).calls
  r.1.concat (r.2.elim .nil fun msg => .add (utf8 "errorError") (.prim (.string msg)) .nil)

theorem nonNil_cons {err : GoError} (hnil : err ≠ .nil) (errs : List GoError) :
    nonNil (err :: errs) = err :: nonNil errs := by
  cases err with
  | nil => exact absurd rfl hnil
  | _ => rfl

theorem errorsArray_cons [Host] {err : GoError} (hnil : err ≠ .nil) (errs : List GoError) :
    errorsArray (err :: errs) =
      .appendObject
        (((encodeError (utf8 "error") err).andThen (reportError (utf8 "error"))).andThen
          fun _ => .done none)
        fun e => e.elim (errorsArray errs) fun msg => .done (some msg) := by
  cases err with
  | nil => exact absurd rfl hnil
  | _ =>
    refine congrArg (Marshaler.appendObject _) (funext fun e => ?_)
    cases e <;> rfl

theorem errorField_transcript (refl : Option Reflected → Option Bytes) (err : GoError) :
    (((encodeError (utf8 "error") err).andThen (reportError (utf8 "error"))).andThen
      fun _ => .done none).transcript refl = some (errorObject err, none) := by
  rw [Marshaler.transcript_andThen, Marshaler.transcript_andThen, encodeError_transcript,
    Option.bind_some, errorObject]
  cases (encodeError (utf8 "error") err).calls.2 with
  | none => simp only [reportError, Marshaler.transcript, Option.map_some, Option.bind_some, Prod.map,
      Transcript.concat_nil, Option.elim_none, id]
  | some msg => simp only [reportError, addString, Marshaler.transcript, Option.map_some,
      Option.bind_some, Prod.map, Transcript.concat_nil, Option.elim_some, id]; rfl

/-- One object for each error that is not nil. -/
theorem errorsArray_transcript [Host] (refl : Option Reflected → Option Bytes)
    (errs : List GoError) :
    (errorsArray errs).transcript refl =
      some (ofObjects ((nonNil errs).map errorObject), none) := by
  induction errs with
  | nil => rfl
  | cons err errs ih =>
    by_cases hnil : err = .nil
    · rw [hnil]
      exact ih
    · rw [errorsArray_cons hnil, nonNil_cons hnil, Marshaler.transcript, errorField_transcript,
        Option.bind_some, Option.elim_none, ih]
      rfl

/-! ## Agreement -/

/-- The arrays are the same, if every error is logged without an error, and only then. -/
theorem sameArray_iff (errs : List GoError) :
    (errArray errs).calls.1 = ofObjects ((nonNil errs).map errorObject) ↔ GoError.AllLog errs := by
  induction errs with
  | nil => exact ⟨fun _ => trivial, fun _ => rfl⟩
  | cons err errs ih =>
    by_cases hnil : err = .nil
    · rw [hnil]
      exact ih.trans ⟨fun h => ⟨trivial, h⟩, And.right⟩
    have herr := logs_iff (utf8 "error") hnil
    rw [nonNil_cons hnil, List.map_cons, ofObjects, errorObject]
    cases hresult : (encodeError (utf8 "error") err).calls.2 with
    | some msg =>
      rw [hresult] at herr
      rw [errArray_calls_fails hnil hresult]
      constructor
      · -- the object of the other array has one member more
        intro h
        have hobj := (Transcript.appendObject.inj h).1
        cases Transcript.concat_eq_self hobj.symm
      · exact fun h => absurd (herr.mpr h.1) (fun h => by cases h)
    | none =>
      rw [errArray_calls_goes hnil hresult, Option.elim_none, Transcript.concat_nil]
      have hhead : err.Logs := herr.mp hresult
      constructor
      · exact fun h => ⟨hhead, ih.mp (Transcript.appendObject.inj h).2⟩
      · exact fun h => congrArg _ (ih.mpr h.2)

/-- The array of `Errors(key, errs)` is the array of causes of a group of the same errors, and it has
one object for each error that is not nil, in their order. -/
def ArraysAgree [Host] (refl : Option Reflected → Option Bytes) (key : Bytes) (np : Bool)
    (text : Bytes) (errs : List GoError) : Prop :=
  ∃ arr e, (arrayField key (errorsArray errs)).addTo.transcript refl =
      some (.addArray key arr .nil, none) ∧
    (encodeError key (.group np (.returns text) errs)).transcript refl =
      some (.add key (.prim (.string text)) (.addArray (key ++ utf8 "Causes") arr .nil), e) ∧
    arr = ofObjects ((nonNil errs).map errorObject)

/-- The two arrays agree if encoding none of the errors returns an error, and only then. -/
theorem errors_agree_iff [Host] (refl : Option Reflected → Option Bytes) (key : Bytes) (np : Bool)
    (text : Bytes) (errs : List GoError) :
    ArraysAgree refl key np text errs ↔ GoError.AllLog errs := by
  have hzap : (arrayField key (errorsArray errs)).addTo.transcript refl =
      some (.addArray key (ofObjects ((nonNil errs).map errorObject)) .nil, none) := by
    simp only [arrayField, Field.addTo, Marshaler.transcript, errorsArray_transcript]
    rfl
  have hgroup := encodeError_transcript refl key (.group np (.returns text) errs)
  rw [encodeError_calls_group] at hgroup
  rw [← sameArray_iff]
  constructor
  · rintro ⟨arr, e, _, hcauses, harr⟩
    rw [hgroup] at hcauses
    have hcalls := congrArg Prod.fst (Option.some.inj hcauses)
    exact (Transcript.addArray.inj (Transcript.add.inj hcalls).2.2).2.1.trans harr
  · intro hsame
    exact ⟨_, _, hzap, by rw [← hsame]; exact hgroup, rfl⟩

/-- An error that panics, before another one. -/
theorem errors_cut_off :
    let _ : Host := ⟨Location.utc⟩
    ¬ ArraysAgree (fun _ => none) (utf8 "errors") false (utf8 "two errors")
      [.plain false (.panics (utf8 "boom")), .plain false (.returns (utf8 "lost"))] := by
  rintro host ⟨arr, e, hzap, hcauses, _⟩
  cases hzap
  cases hcauses

end Zap
