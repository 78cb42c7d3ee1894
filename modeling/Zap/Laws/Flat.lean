import Zap.Laws.Denote

/-!
# Marshalers that open no namespace

A namespace takes up what follows it, so what a sequence of fields means is not in general the
meanings of the fields put together. It is for marshalers that open no namespace of their own.
Every field is of this kind but namespaces and inlined objects.
-/

set_option autoImplicit false

namespace Zap.Zapcore

open Data

/-- The members that a marshaler adds, with what follows a namespace inside it. -/
def meaning (cfg : EncoderConfig) (m : ObjectMarshaler) : Option (List (Bytes × Json)) :=
  (denote cfg m).map fun r => Json.nest r.1

/-- The marshaler opens no namespace, except in objects that it adds. -/
def Marshaler.Flat : {i : Interface} → Marshaler i → Prop
  | _, .done _ => True
  | _, .panic => True
  | _, .add _ _ next => next.Flat
  | _, .addBinary _ _ next => next.Flat
  | _, .addReflected _ _ next => ∀ err, (next err).Flat
  | _, .addArray _ _ next => ∀ err, (next err).Flat
  | _, .addObject _ _ next => ∀ err, (next err).Flat
  | _, .openNamespace _ _ => False
  | .array, _ => True

theorem Marshaler.Flat.andThen {i : Interface} {m : Marshaler i} {k : Option Bytes → Marshaler i}
    (hm : m.Flat) (hk : ∀ err, (k err).Flat) : (m.andThen k).Flat := by
  induction m with
  | done err => exact hk err
  | panic => trivial
  | add key s next ih => exact ih hm hk
  | addBinary key val next ih => exact ih hm hk
  | addReflected key val next ih => exact fun err => ih err (hm err) hk
  | addArray key arr next _ ih => exact fun err => ih err (hm err) hk
  | addObject key obj next _ ih => exact fun err => ih err (hm err) hk
  | openNamespace key next ih => exact hm.elim
  | append s next _ => trivial
  | appendReflected val next _ => trivial
  | appendArray arr next _ _ => trivial
  | appendObject obj next _ _ => trivial

/-! ## Meaning -/

/-- Items that belong to the object they were added to. -/
def Stays (is : List Json.Item) : Prop := ∀ rest, Json.nest (is ++ rest) = Json.nest is ++ Json.nest rest

theorem Stays.member {is : List Json.Item} (h : Stays is) (key : Bytes) (v : Json) :
    Stays (.member key v :: is) :=
  fun rest => congrArg ((key, v) :: ·) (h rest)

theorem Marshaler.Flat.stays {cfg : EncoderConfig} {i : Interface} (hi : i = .object)
    {m : Marshaler i} (hm : m.Flat) {is : List Json.Item} {err : Option Bytes}
    (h : denote cfg m = some (is, err)) : Stays is := by
  induction m generalizing is err with
  | done e =>
    cases h
    exact fun _ => rfl
  | panic => cases h
  | add key s next ih =>
    obtain ⟨⟨is', e⟩, hnext, hans⟩ := Option.bind_eq_some_iff.mp h
    cases hans
    exact (ih hi hm hnext).member _ _
  | addBinary key val next ih =>
    obtain ⟨⟨is', e⟩, hnext, hans⟩ := Option.bind_eq_some_iff.mp h
    cases hans
    exact (ih hi hm hnext).member _ _
  | addReflected key val next ih =>
    rw [denote] at h
    split at h
    · cases h
    · exact ih _ hi (hm _) h
    · obtain ⟨⟨is', e⟩, hnext, hans⟩ := Option.bind_eq_some_iff.mp h
      cases hans
      exact (ih _ hi (hm _) hnext).member _ _
  | addArray key arr next _ ih =>
    obtain ⟨⟨inner, e⟩, _, hrest⟩ := Option.bind_eq_some_iff.mp h
    obtain ⟨⟨is', e'⟩, hnext, hans⟩ := Option.bind_eq_some_iff.mp hrest
    cases hans
    exact (ih _ hi (hm _) hnext).member _ _
  | addObject key obj next _ ih =>
    obtain ⟨⟨inner, e⟩, _, hrest⟩ := Option.bind_eq_some_iff.mp h
    obtain ⟨⟨is', e'⟩, hnext, hans⟩ := Option.bind_eq_some_iff.mp hrest
    cases hans
    exact (ih _ hi (hm _) hnext).member _ _
  | openNamespace key next ih => exact hm.elim
  | append s next ih => cases hi
  | appendReflected val next ih => cases hi
  | appendArray arr next _ ih => cases hi
  | appendObject obj next _ ih => cases hi

/-- What follows a flat marshaler is beside it. -/
theorem Marshaler.Flat.meaning_andThen (cfg : EncoderConfig) {m : ObjectMarshaler} (hm : m.Flat)
    (k : ObjectMarshaler) :
    meaning cfg (m.andThen fun _ => k) =
      (meaning cfg m).bind fun ms => (meaning cfg k).map fun rest => ms ++ rest := by
  rw [meaning, denote_andThen, meaning, meaning]
  cases h : denote cfg m with
  | none => rfl
  | some r =>
    have hstays := Marshaler.Flat.stays rfl hm h
    cases denote cfg k with
    | none => rfl
    | some r' => exact congrArg some (hstays r'.1)

/-! ## Fields -/

theorem flat_reportError (key : Bytes) (err : Option Bytes) : (reportError key err).Flat := by
  cases err <;> exact trivial

theorem flat_recovered (nilPointer : Bool) (key v : Bytes) : (recovered nilPointer key v).Flat := by
  cases nilPointer <;> exact trivial

theorem flat_encodeText (nilPointer : Bool) (key : Bytes) (text : Call Bytes)
    {next : Bytes → ObjectMarshaler} (h : ∀ basic, (next basic).Flat) :
    (encodeText nilPointer key text next).Flat := by
  cases text with
  | returns basic => exact h basic
  | panics v => exact flat_recovered nilPointer key v

theorem flat_encodeError (key : Bytes) (e : GoError) : (encodeError key e).Flat := by
  cases e with
  | nil => exact flat_recovered false key _
  | plain np text => exact flat_encodeText np key text fun _ => trivial
  | formatter np text verbose =>
    refine flat_encodeText np key text fun basic => ?_
    split <;> exact trivial
  | group np text errors => exact flat_encodeText np key text fun _ _ => trivial
  | panickingGroup np text v => exact flat_encodeText np key text fun _ => flat_recovered np key v

theorem flat_encodeStringer (key : Bytes) (v : Zapcore.Dynamic) : (encodeStringer key v).Flat := by
  unfold encodeStringer
  split
  · exact flat_encodeText _ key _ fun _ => trivial
  · exact flat_recovered false key _

/-- What `AddTo` does for a field that is not inlined. -/
inductive Field.Adds (f : Field) : ObjectMarshaler → Prop where
  | scalar (s : Scalar) : f.Adds (f.addScalar s)
  | binary (val : Bytes) : f.Adds (.addBinary f.key val (.done none))
  | reflected (val : Option Reflected) : f.Adds (.addReflected f.key val (reportError f.key))
  | array (arr : ArrayMarshaler) : f.Adds (.addArray f.key arr (reportError f.key))
  | object (obj : ObjectMarshaler) : f.Adds (.addObject f.key obj (reportError f.key))
  | stringer (v : Zapcore.Dynamic) : f.Adds ((encodeStringer f.key v).andThen (reportError f.key))
  | error (e : GoError) : f.Adds ((encodeError f.key e).andThen (reportError f.key))
  | opens (h : f.type = .namespace) : f.Adds (.openNamespace f.key (.done none))
  | skips (h : f.type = .skip) : f.Adds (.done none)
  | panics : f.Adds .panic

theorem Field.adds_addTo [Host] {f : Field} (hinline : f.type ≠ .inlineMarshaler) :
    f.Adds f.addTo := by
  unfold Field.addTo
  split
  all_goals first
    | exact .scalar _
    | exact .panics
    | exact .binary _
    | exact .reflected _
    | exact .array _
    | exact .object _
    | exact .stringer _
    | exact .error _
    | exact .opens (by assumption)
    | exact .skips (by assumption)
    | exact absurd (by assumption) hinline

theorem Field.Adds.flat {f : Field} {m : ObjectMarshaler} (h : f.Adds m)
    (hnamespace : f.type ≠ .namespace) : m.Flat := by
  cases h with
  | scalar s => trivial
  | binary val => trivial
  | reflected val => exact flat_reportError f.key
  | array arr => exact flat_reportError f.key
  | object obj => exact flat_reportError f.key
  | stringer v => exact (flat_encodeStringer f.key v).andThen (flat_reportError f.key)
  | error e => exact (flat_encodeError f.key e).andThen (flat_reportError f.key)
  | opens h => exact absurd h hnamespace
  | skips _ => trivial
  | panics => trivial

/-- Fields other than namespaces and inlined objects. -/
theorem Field.flat_addTo [Host] {f : Field} (hnamespace : f.type ≠ .namespace)
    (hinline : f.type ≠ .inlineMarshaler) : f.addTo.Flat :=
  (Field.adds_addTo hinline).flat hnamespace

/-! ## Fields that add something -/

/-- Whatever it does, the marshaler adds a member or returns an error. -/
def Speaks (cfg : EncoderConfig) (m : ObjectMarshaler) : Prop :=
  ∀ is err, denote cfg m = some (is, err) → Json.nest is ≠ [] ∨ err ≠ none

theorem speaks_addString (cfg : EncoderConfig) (key val : Bytes) (next : ObjectMarshaler) :
    Speaks cfg (addString key val next) := by
  intro is err h
  obtain ⟨⟨is', e⟩, _, hans⟩ := Option.bind_eq_some_iff.mp h
  cases hans
  exact .inl (List.cons_ne_nil _ _)

theorem speaks_recovered (cfg : EncoderConfig) (nilPointer : Bool) (key v : Bytes) :
    Speaks cfg (recovered nilPointer key v) := by
  cases nilPointer with
  | false =>
    intro is err h
    cases h
    exact .inr fun h => (by cases h)
  | true => exact speaks_addString cfg _ _ _

theorem speaks_encodeText (cfg : EncoderConfig) (nilPointer : Bool) (key : Bytes)
    (text : Call Bytes) (next : Bytes → ObjectMarshaler) :
    Speaks cfg (encodeText nilPointer key text next) := by
  cases text with
  | returns basic => exact speaks_addString cfg _ _ _
  | panics v => exact speaks_recovered cfg nilPointer key v

theorem speaks_encodeError (cfg : EncoderConfig) (key : Bytes) (e : GoError) :
    Speaks cfg (encodeError key e) := by
  cases e with
  | nil => exact speaks_recovered cfg false key _
  | _ => exact speaks_encodeText cfg _ key _ _

theorem speaks_encodeStringer (cfg : EncoderConfig) (key : Bytes) (v : Zapcore.Dynamic) :
    Speaks cfg (encodeStringer key v) := by
  unfold encodeStringer
  split
  · exact speaks_encodeText cfg _ key _ _
  · exact speaks_recovered cfg false key _

/-- An error that is reported is a member. -/
theorem Speaks.reported {cfg : EncoderConfig} {m : ObjectMarshaler} (h : Speaks cfg m)
    (hm : m.Flat) (key : Bytes) : meaning cfg (m.andThen (reportError key)) ≠ some [] := by
  rw [meaning, denote_andThen]
  cases hden : denote cfg m with
  | none => exact fun h => (by cases h)
  | some r =>
    intro hnil
    have hstays := Marshaler.Flat.stays rfl hm hden
    cases herr : r.2 with
    | none =>
      rcases h r.1 r.2 hden with hne | hne
      · rw [Option.bind_some, herr] at hnil
        have hitems : Json.nest (r.1 ++ []) = [] := Option.some.inj hnil
        rw [List.append_nil] at hitems
        exact hne hitems
      · exact hne herr
    | some msg =>
      rw [Option.bind_some, herr] at hnil
      have hitems := (hstays _).symm.trans (Option.some.inj hnil)
      exact List.append_ne_nil_of_right_ne_nil _ (List.cons_ne_nil _ _) hitems

theorem meaning_addReflected (cfg : EncoderConfig) (key : Bytes) (v : Option Reflected) :
    meaning cfg (.addReflected key v (reportError key)) ≠ some [] := by
  rw [meaning, denote]
  cases reflectedJson cfg v with
  | none => exact fun h => (by cases h)
  | some r => cases r <;> exact fun h => (by cases h)

theorem meaning_addArray (cfg : EncoderConfig) (key : Bytes) (arr : ArrayMarshaler) :
    meaning cfg (.addArray key arr (reportError key)) ≠ some [] := by
  rw [meaning, denote]
  cases denote cfg arr with
  | none => exact fun h => (by cases h)
  | some r =>
    obtain ⟨is, err⟩ := r
    cases err <;> exact fun h => (by cases h)

theorem meaning_addObject (cfg : EncoderConfig) (key : Bytes) (obj : ObjectMarshaler) :
    meaning cfg (.addObject key obj (reportError key)) ≠ some [] := by
  rw [meaning, denote]
  cases denote cfg obj with
  | none => exact fun h => (by cases h)
  | some r =>
    obtain ⟨is, err⟩ := r
    cases err <;> exact fun h => (by cases h)

theorem Field.Adds.meaning_ne_nil {f : Field} {m : ObjectMarshaler} (h : f.Adds m)
    (cfg : EncoderConfig) (hskip : f.type ≠ .skip) : meaning cfg m ≠ some [] := by
  cases h with
  | scalar s => exact fun h => (by cases h)
  | binary val => exact fun h => (by cases h)
  | reflected val => exact meaning_addReflected cfg f.key val
  | array arr => exact meaning_addArray cfg f.key arr
  | object obj => exact meaning_addObject cfg f.key obj
  | stringer v =>
    exact (speaks_encodeStringer cfg f.key v).reported (flat_encodeStringer f.key v) f.key
  | error e => exact (speaks_encodeError cfg f.key e).reported (flat_encodeError f.key e) f.key
  | opens _ => exact fun h => (by cases h)
  | skips h => exact absurd h hskip
  | panics => exact fun h => (by cases h)

/-- A field that is neither skipped nor inlined adds a member. -/
theorem Field.meaning_ne_nil [Host] (cfg : EncoderConfig) {f : Field} (hskip : f.type ≠ .skip)
    (hinline : f.type ≠ .inlineMarshaler) : meaning cfg f.addTo ≠ some [] :=
  (Field.adds_addTo hinline).meaning_ne_nil cfg hskip

end Zap.Zapcore
