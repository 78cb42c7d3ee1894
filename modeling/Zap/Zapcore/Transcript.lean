import Zap.Zapcore.Field

/-!
# Transcripts

The calls that one run of a marshaler makes on an encoder. A marshaler may go on differently after
an error, so that it is a tree of what could happen; a transcript is what did happen on an encoder
whose own methods fail only where it is told to, on values that it does not encode. An encoder that
panics on some reflected values runs a marshaler as one that panics when it gets to them
(`Marshaler.reflecting`).
-/

set_option autoImplicit false

namespace Zap.Zapcore

open Data

/-- Calls of the methods of an `ObjectEncoder` or an `ArrayEncoder`, in their order. -/
inductive Transcript : Interface → Type where
  | nil {i : Interface} : Transcript i
  | add (key : Bytes) (s : Scalar) (rest : Transcript .object) : Transcript .object
  | addBinary (key val : Bytes) (rest : Transcript .object) : Transcript .object
  | addReflected (key : Bytes) (val : Option Reflected) (rest : Transcript .object) :
      Transcript .object
  | addArray (key : Bytes) (arr : Transcript .array) (rest : Transcript .object) :
      Transcript .object
  | addObject (key : Bytes) (obj : Transcript .object) (rest : Transcript .object) :
      Transcript .object
  | openNamespace (key : Bytes) (rest : Transcript .object) : Transcript .object
  | append (s : Scalar) (rest : Transcript .array) : Transcript .array
  | appendReflected (val : Option Reflected) (rest : Transcript .array) : Transcript .array
  | appendArray (arr : Transcript .array) (rest : Transcript .array) : Transcript .array
  | appendObject (obj : Transcript .object) (rest : Transcript .array) : Transcript .array

namespace Transcript

/-- The calls of one transcript and then those of another. -/
def concat : {i : Interface} → Transcript i → Transcript i → Transcript i
  | _, .nil, c => c
  | _, .add key s rest, c => .add key s (rest.concat c)
  | _, .addBinary key val rest, c => .addBinary key val (rest.concat c)
  | _, .addReflected key val rest, c => .addReflected key val (rest.concat c)
  | _, .addArray key arr rest, c => .addArray key arr (rest.concat c)
  | _, .addObject key obj rest, c => .addObject key obj (rest.concat c)
  | _, .openNamespace key rest, c => .openNamespace key (rest.concat c)
  | _, .append s rest, c => .append s (rest.concat c)
  | _, .appendReflected val rest, c => .appendReflected val (rest.concat c)
  | _, .appendArray arr rest, c => .appendArray arr (rest.concat c)
  | _, .appendObject obj rest, c => .appendObject obj (rest.concat c)

end Transcript

/-- What a marshaler does on an encoder that answers reflected values with the errors `refl`, and
the error it returns. It has no transcript if it panics. -/
def Marshaler.transcript (refl : Option Reflected → Option Bytes) :
    {i : Interface} → Marshaler i → Option (Transcript i × Option Bytes)
  | _, .done err => some (.nil, err)
  | _, .panic => none
  | _, .add key s next => (next.transcript refl).map (Prod.map (.add key s) id)
  | _, .addBinary key val next => (next.transcript refl).map (Prod.map (.addBinary key val) id)
  | _, .addReflected key val next =>
    match refl val with
    | some e => (next (some e)).transcript refl
    | none => ((next none).transcript refl).map (Prod.map (.addReflected key val) id)
  | _, .addArray key arr next =>
    (arr.transcript refl).bind fun r =>
      ((next r.2).transcript refl).map (Prod.map (.addArray key r.1) id)
  | _, .addObject key obj next =>
    (obj.transcript refl).bind fun r =>
      ((next r.2).transcript refl).map (Prod.map (.addObject key r.1) id)
  | _, .openNamespace key next => (next.transcript refl).map (Prod.map (.openNamespace key) id)
  | _, .append s next => (next.transcript refl).map (Prod.map (.append s) id)
  | _, .appendReflected val next =>
    match refl val with
    | some e => (next (some e)).transcript refl
    | none => ((next none).transcript refl).map (Prod.map (.appendReflected val) id)
  | _, .appendArray arr next =>
    (arr.transcript refl).bind fun r =>
      ((next r.2).transcript refl).map (Prod.map (.appendArray r.1) id)
  | _, .appendObject obj next =>
    (obj.transcript refl).bind fun r =>
      ((next r.2).transcript refl).map (Prod.map (.appendObject r.1) id)

/-- The marshaler on an encoder whose reflected encoder, or a method that it calls, panics on some
values. Nil is not given to it. -/
def Marshaler.reflecting (panics : Reflected → Bool) : {i : Interface} → Marshaler i → Marshaler i
  | _, .done err => .done err
  | _, .panic => .panic
  | _, .add key s next => .add key s (next.reflecting panics)
  | _, .addBinary key val next => .addBinary key val (next.reflecting panics)
  | _, .addReflected key val next =>
    if val.any panics then .panic else .addReflected key val fun err => (next err).reflecting panics
  | _, .addArray key arr next =>
    .addArray key (arr.reflecting panics) fun err => (next err).reflecting panics
  | _, .addObject key obj next =>
    .addObject key (obj.reflecting panics) fun err => (next err).reflecting panics
  | _, .openNamespace key next => .openNamespace key (next.reflecting panics)
  | _, .append s next => .append s (next.reflecting panics)
  | _, .appendReflected val next =>
    if val.any panics then .panic else .appendReflected val fun err => (next err).reflecting panics
  | _, .appendArray arr next =>
    .appendArray (arr.reflecting panics) fun err => (next err).reflecting panics
  | _, .appendObject obj next =>
    .appendObject (obj.reflecting panics) fun err => (next err).reflecting panics

namespace Transcript

theorem concat_nil {i : Interface} (c : Transcript i) : c.concat .nil = c := by
  induction c with
  | nil => rfl
  | add key s rest ih => rw [concat, ih]
  | addBinary key val rest ih => rw [concat, ih]
  | addReflected key val rest ih => rw [concat, ih]
  | addArray key arr rest _ ih => rw [concat, ih]
  | addObject key obj rest _ ih => rw [concat, ih]
  | openNamespace key rest ih => rw [concat, ih]
  | append s rest ih => rw [concat, ih]
  | appendReflected val rest ih => rw [concat, ih]
  | appendArray arr rest _ ih => rw [concat, ih]
  | appendObject obj rest _ ih => rw [concat, ih]

theorem concat_eq_self {i : Interface} {c d : Transcript i} (h : c.concat d = c) : d = .nil := by
  induction c with
  | nil => exact h
  | add key s rest ih => exact ih (Transcript.add.inj h).2.2
  | addBinary key val rest ih => exact ih (Transcript.addBinary.inj h).2.2
  | addReflected key val rest ih => exact ih (Transcript.addReflected.inj h).2.2
  | addArray key arr rest _ ih => exact ih (Transcript.addArray.inj h).2.2
  | addObject key obj rest _ ih => exact ih (Transcript.addObject.inj h).2.2
  | openNamespace key rest ih => exact ih (Transcript.openNamespace.inj h).2
  | append s rest ih => exact ih (Transcript.append.inj h).2
  | appendReflected val rest ih => exact ih (Transcript.appendReflected.inj h).2
  | appendArray arr rest _ ih => exact ih (Transcript.appendArray.inj h).2
  | appendObject obj rest _ ih => exact ih (Transcript.appendObject.inj h).2

end Transcript

/-- A call that comes first comes first of all the calls. -/
theorem Transcript.bind_call {i : Interface} (call : Transcript i → Transcript i)
    (hcall : ∀ c d, (call c).concat d = call (c.concat d))
    (first : Option (Transcript i × Option Bytes))
    (rest : Option Bytes → Option (Transcript i × Option Bytes)) :
    (first.bind fun r => (rest r.2).map (Prod.map r.1.concat id)).map (Prod.map call id) =
      (first.map (Prod.map call id)).bind fun r => (rest r.2).map (Prod.map r.1.concat id) := by
  cases first with
  | none => rfl
  | some r =>
    have hcomp : Prod.map call id ∘ Prod.map r.1.concat id =
        Prod.map (call r.1).concat (id : Option Bytes → Option Bytes) :=
      funext fun d => congrArg (Prod.mk · d.2) (hcall r.1 d.1).symm
    rw [Option.bind_some, Option.map_map, hcomp]
    rfl

/-- One marshaler and then another. -/
theorem Marshaler.transcript_andThen (refl : Option Reflected → Option Bytes) {i : Interface}
    (m : Marshaler i) (k : Option Bytes → Marshaler i) :
    (m.andThen k).transcript refl =
      (m.transcript refl).bind fun r =>
        ((k r.2).transcript refl).map (Prod.map r.1.concat id) := by
  induction m with
  | done err =>
    simp only [andThen, transcript, Option.bind_some]
    cases (k err).transcript refl <;> rfl
  | panic => rfl
  | add key s next ih =>
    exact (congrArg _ (ih k)).trans
      (Transcript.bind_call (.add key s) (fun _ _ => rfl) _ fun e => (k e).transcript refl)
  | addBinary key val next ih =>
    exact (congrArg _ (ih k)).trans
      (Transcript.bind_call (.addBinary key val) (fun _ _ => rfl) _ fun e => (k e).transcript refl)
  | addReflected key val next ih =>
    simp only [andThen, transcript]
    cases refl val with
    | some e => exact ih (some e) k
    | none =>
      exact (congrArg _ (ih none k)).trans
        (Transcript.bind_call (.addReflected key val) (fun _ _ => rfl) _ fun e => (k e).transcript refl)
  | addArray key arr next _ ih =>
    simp only [andThen, transcript, Option.bind_assoc]
    refine congrArg (Option.bind _) (funext fun r => ?_)
    exact (congrArg _ (ih r.2 k)).trans
      (Transcript.bind_call (.addArray key r.1) (fun _ _ => rfl) _ fun e =>
        (k e).transcript refl)
  | addObject key obj next _ ih =>
    simp only [andThen, transcript, Option.bind_assoc]
    refine congrArg (Option.bind _) (funext fun r => ?_)
    exact (congrArg _ (ih r.2 k)).trans
      (Transcript.bind_call (.addObject key r.1) (fun _ _ => rfl) _ fun e =>
        (k e).transcript refl)
  | openNamespace key next ih =>
    exact (congrArg _ (ih k)).trans
      (Transcript.bind_call (.openNamespace key) (fun _ _ => rfl) _ fun e => (k e).transcript refl)
  | append s next ih =>
    exact (congrArg _ (ih k)).trans
      (Transcript.bind_call (.append s) (fun _ _ => rfl) _ fun e => (k e).transcript refl)
  | appendReflected val next ih =>
    simp only [andThen, transcript]
    cases refl val with
    | some e => exact ih (some e) k
    | none =>
      exact (congrArg _ (ih none k)).trans
        (Transcript.bind_call (.appendReflected val) (fun _ _ => rfl) _ fun e => (k e).transcript refl)
  | appendArray arr next _ ih =>
    simp only [andThen, transcript, Option.bind_assoc]
    refine congrArg (Option.bind _) (funext fun r => ?_)
    exact (congrArg _ (ih r.2 k)).trans
      (Transcript.bind_call (.appendArray r.1) (fun _ _ => rfl) _ fun e =>
        (k e).transcript refl)
  | appendObject obj next _ ih =>
    simp only [andThen, transcript, Option.bind_assoc]
    refine congrArg (Option.bind _) (funext fun r => ?_)
    exact (congrArg _ (ih r.2 k)).trans
      (Transcript.bind_call (.appendObject r.1) (fun _ _ => rfl) _ fun e =>
        (k e).transcript refl)

namespace Marshaler

variable {panics : Reflected → Bool}

theorem reflecting_andThen {i : Interface} (m : Marshaler i) (k : Option Bytes → Marshaler i) :
    (m.andThen k).reflecting panics = (m.reflecting panics).andThen fun e => (k e).reflecting panics := by
  induction m with
  | done err => rfl
  | panic => rfl
  | add key s next ih => rw [andThen, reflecting, ih, reflecting, andThen]
  | addBinary key val next ih => rw [andThen, reflecting, ih, reflecting, andThen]
  | addReflected key val next ih =>
    simp only [andThen, reflecting]
    split
    · rfl
    · simp only [andThen, ih]
  | addArray key arr next _ ih => simp only [andThen, reflecting, ih]
  | addObject key obj next _ ih => simp only [andThen, reflecting, ih]
  | openNamespace key next ih => rw [andThen, reflecting, ih, reflecting, andThen]
  | append s next ih => rw [andThen, reflecting, ih, reflecting, andThen]
  | appendReflected val next ih =>
    simp only [andThen, reflecting]
    split
    · rfl
    · simp only [andThen, ih]
  | appendArray arr next _ ih => simp only [andThen, reflecting, ih]
  | appendObject obj next _ ih => simp only [andThen, reflecting, ih]

end Marshaler

end Zap.Zapcore
