import Zap.Laws.MemoryEncoder
import Zap.Zapcore.ErrorPool

/-!
# Error trees

What `encodeError` makes of an error, for the encoders and for the pool of wrappers. An `ErrorTree`
is an error whose methods do not panic, with all that it groups; `ErrorTree.members` says what is to
be logged of it.
-/

set_option autoImplicit false

namespace Zap.Zapcore

open Data

/-! ## The calls that are made for an error -/

/-- The calls of a marshaler on an encoder whose own methods do not fail, and its error. -/
def Marshaler.calls {i : Interface} (m : Marshaler i) : Transcript i × Option Bytes :=
  (m.transcript fun _ => none).getD (.nil, none)

theorem Marshaler.calls_eq {i : Interface} {m : Marshaler i} {c : Transcript i × Option Bytes}
    (h : m.transcript (fun _ => none) = some c) : m.calls = c := by
  rw [calls, h, Option.getD_some]

mutual

/-- `encodeError` does not panic and reflects on nothing. -/
theorem encodeError_returns (key : Bytes) (err : GoError) :
    ∃ c, ∀ refl, (encodeError key err).transcript refl = some c := by
  cases err with
  | nil => exact ⟨_, fun _ => rfl⟩
  | plain np text =>
    cases text with
    | returns basic => exact ⟨_, fun _ => rfl⟩
    | panics v => cases np <;> exact ⟨_, fun _ => rfl⟩
  | formatter np text verbose =>
    cases text with
    | returns basic =>
      by_cases hsame : verbose = basic
      · exact ⟨_, fun _ => by simp only [encodeError, encodeText, hsame, ↓reduceIte]; rfl⟩
      · exact ⟨_, fun _ => by simp only [encodeError, encodeText, hsame, ↓reduceIte]; rfl⟩
    | panics v => cases np <;> exact ⟨_, fun _ => rfl⟩
  | group np text errors =>
    cases text with
    | returns basic =>
      obtain ⟨c, hc⟩ := errArray_returns errors
      exact ⟨_, fun refl => by
        simp only [encodeError, encodeText, addString, Marshaler.transcript, hc refl]; rfl⟩
    | panics v => cases np <;> exact ⟨_, fun _ => rfl⟩
  | panickingGroup np text v =>
    cases text with
    | returns basic => cases np <;> exact ⟨_, fun _ => rfl⟩
    | panics v' => cases np <;> exact ⟨_, fun _ => rfl⟩

theorem errArray_returns (errs : List GoError) :
    ∃ c, ∀ refl, (errArray errs).transcript refl = some c := by
  cases errs with
  | nil => exact ⟨_, fun _ => rfl⟩
  | cons err errs =>
    obtain ⟨rest, hrest⟩ := errArray_returns errs
    by_cases hnil : err = .nil
    · rw [hnil]
      exact ⟨rest, hrest⟩
    · obtain ⟨⟨obj, e⟩, hobj⟩ := encodeError_returns (utf8 "error") err
      rw [errArray_cons hnil]
      cases e with
      | some msg => exact ⟨_, fun refl => by simp only [Marshaler.transcript, hobj refl]; rfl⟩
      | none =>
        refine ⟨(.appendObject obj rest.1, rest.2), fun refl => ?_⟩
        simp only [Marshaler.transcript, hobj refl, Option.bind_some, Option.elim, hrest refl]
        rfl

end

theorem encodeError_transcript (refl : Option Reflected → Option Bytes) (key : Bytes)
    (err : GoError) : (encodeError key err).transcript refl = some (encodeError key err).calls := by
  obtain ⟨c, hc⟩ := encodeError_returns key err
  rw [hc, Marshaler.calls_eq (hc _)]

theorem errArray_transcript (refl : Option Reflected → Option Bytes) (errs : List GoError) :
    (errArray errs).transcript refl = some (errArray errs).calls := by
  obtain ⟨c, hc⟩ := errArray_returns errs
  rw [hc, Marshaler.calls_eq (hc _)]

/-- An element that fails ends the array. -/
theorem errArray_calls_fails {err : GoError} (hnil : err ≠ .nil) {msg : Bytes}
    (hfails : (encodeError (utf8 "error") err).calls.2 = some msg) (errs : List GoError) :
    (errArray (err :: errs)).calls =
      (.appendObject (encodeError (utf8 "error") err).calls.1 .nil, some msg) := by
  refine Marshaler.calls_eq ?_
  rw [errArray_cons hnil, Marshaler.transcript, encodeError_transcript, Option.bind_some, hfails]
  rfl

/-- After an element that does not fail the array goes on. -/
theorem errArray_calls_goes {err : GoError} (hnil : err ≠ .nil)
    (hgoes : (encodeError (utf8 "error") err).calls.2 = none) (errs : List GoError) :
    (errArray (err :: errs)).calls =
      (.appendObject (encodeError (utf8 "error") err).calls.1 (errArray errs).calls.1,
        (errArray errs).calls.2) := by
  refine Marshaler.calls_eq ?_
  rw [errArray_cons hnil, Marshaler.transcript, encodeError_transcript, Option.bind_some, hgoes,
    Option.elim_none, errArray_transcript]
  rfl

theorem encodeError_calls_group (key : Bytes) (np : Bool) (basic : Bytes) (errors : List GoError) :
    (encodeError key (.group np (.returns basic) errors)).calls =
      (.add key (.prim (.string basic))
        (.addArray (key ++ utf8 "Causes") (errArray errors).calls.1 .nil),
        (errArray errors).calls.2) := by
  refine Marshaler.calls_eq ?_
  simp only [encodeError, encodeText, addString, Marshaler.transcript, errArray_transcript]
  rfl

/-! ## Wrappers -/

mutual

/-- How deep groups are nested in an error. -/
def GoError.depth : GoError → Nat
  | .group _ _ errors => GoError.depthAll errors + 1
  | _ => 0

def GoError.depthAll : List GoError → Nat
  | [] => 0
  | err :: errs => max err.depth (GoError.depthAll errs)

end

theorem GoError.depth_le {err : GoError} {errs : List GoError} (hmem : err ∈ errs) :
    err.depth ≤ GoError.depthAll errs := by
  induction hmem with
  | head errs => exact Nat.le_max_left _ _
  | tail e _ ih => exact ih.trans (Nat.le_max_right _ _)

/-- An element that is not nil. The wrapper holds the error when it is read, whatever was in it
before. -/
theorem errArrayPooled_cons (encode : GoError → Wrappers → PooledRun .object) {err : GoError}
    (hnil : err ≠ .nil) (errs : List GoError) (w : Wrappers) :
    errArrayPooled encode (err :: errs) w =
      (encode err (w.newErrArrayElem err).2).bind fun r =>
        r.2.1.elim
          ((errArrayPooled encode errs (r.2.2.free (w.newErrArrayElem err).1)).bind fun r' =>
            some (.appendObject r.1 r'.1, r'.2.1, r'.2.2))
          fun msg =>
            some (.appendObject r.1 .nil, some msg, r.2.2.free (w.newErrArrayElem err).1) := by
  rw [errArrayPooled.eq_3 _ _ _ _ hnil]
  simp only [w.newErrArrayElem_err err, Option.bind_eq_bind]
  refine congrArg (Option.bind _) (funext fun r => ?_)
  obtain ⟨obj, e, w'⟩ := r
  cases e <;> rfl

/-- The array that is made with wrappers is the one made without, if this is so for each of its
elements. -/
theorem errArrayPooled_calls {encode : GoError → Wrappers → PooledRun .object}
    {errs : List GoError}
    (hencode : ∀ err ∈ errs, ∀ w, ∃ w', encode err w =
      some ((encodeError (utf8 "error") err).calls.1, (encodeError (utf8 "error") err).calls.2, w'))
    (w : Wrappers) :
    ∃ w', errArrayPooled encode errs w =
      some ((errArray errs).calls.1, (errArray errs).calls.2, w') := by
  induction errs generalizing w with
  | nil => exact ⟨w, rfl⟩
  | cons err errs ih =>
    have ih := ih fun e he => hencode e (List.mem_cons_of_mem err he)
    by_cases hnil : err = .nil
    · rw [hnil]
      exact ih w
    obtain ⟨w₁, hobj⟩ := hencode err List.mem_cons_self (w.newErrArrayElem err).2
    rw [errArrayPooled_cons encode hnil, hobj, Option.bind_some]
    cases hresult : (encodeError (utf8 "error") err).calls.2 with
    | some msg =>
      rw [errArray_calls_fails hnil hresult]
      exact ⟨_, rfl⟩
    | none =>
      obtain ⟨w₂, hrest⟩ := ih (w₁.free (w.newErrArrayElem err).1)
      rw [errArray_calls_goes hnil hresult]
      exact ⟨w₂, by rw [Option.elim_none, hrest]; rfl⟩

/-- Whatever lies in the pool and whichever wrappers are taken, the calls are those of
`encodeError`. -/
theorem encodeErrorPooled_calls {depth : Nat} {err : GoError} (hdepth : err.depth < depth)
    (key : Bytes) (w : Wrappers) :
    ∃ w', encodeErrorPooled depth key err w =
      some ((encodeError key err).calls.1, (encodeError key err).calls.2, w') := by
  induction depth generalizing key err w with
  | zero => exact absurd hdepth (Nat.not_lt_zero _)
  | succ depth ih =>
    have hother (hrun : encodeErrorPooled (depth + 1) key err w =
        ((encodeError key err).transcript fun _ => none).bind fun r => some (r.1, r.2, w)) :
        ∃ w', encodeErrorPooled (depth + 1) key err w =
          some ((encodeError key err).calls.1, (encodeError key err).calls.2, w') := by
      rw [encodeError_transcript] at hrun
      exact ⟨w, hrun⟩
    cases err with
    | group np text errors =>
      cases text with
      | returns basic =>
        have hencode : ∀ err ∈ errors, ∀ w, ∃ w', encodeErrorPooled depth (utf8 "error") err w =
            some ((encodeError (utf8 "error") err).calls.1,
              (encodeError (utf8 "error") err).calls.2, w') := by
          intro err hmem w
          have hle := GoError.depth_le hmem
          simp only [GoError.depth] at hdepth
          exact ih (by omega) (utf8 "error") w
        obtain ⟨w', harr⟩ := errArrayPooled_calls hencode w
        rw [encodeError_calls_group]
        exact ⟨w', by simp only [encodeErrorPooled, harr]; rfl⟩
      | panics v => exact hother rfl
    | _ => exact hother rfl

/-! ## Trees -/

/-- An error whose methods return, and the errors that it groups. -/
inductive ErrorTree where
  | plain (nilPointer : Bool) (text : Bytes)
  | formatter (nilPointer : Bool) (text verbose : Bytes)
  | group (nilPointer : Bool) (text : Bytes) (errors : List (Option ErrorTree))

namespace ErrorTree

mutual

def error : ErrorTree → GoError
  | .plain np text => .plain np (.returns text)
  | .formatter np text verbose => .formatter np (.returns text) verbose
  | .group np text es => .group np (.returns text) (errors es)

/-- What the `Errors` method of a group returns. -/
def errors : List (Option ErrorTree) → List GoError
  | [] => []
  | none :: es => .nil :: errors es
  | some e :: es => e.error :: errors es

end

/-- A text in a log. -/
def string (s : Bytes) : Tree := .scalar (.prim (.string s))

mutual

/-- What is to be logged of an error under a key. -/
def members (key : Bytes) : ErrorTree → List (Bytes × Tree)
  | .plain _ text => [(key, string text)]
  | .formatter _ text verbose =>
    if verbose = text then [(key, string text)]
    else [(key, string text), (key ++ utf8 "Verbose", string verbose)]
  | .group _ text es => [(key, string text), (key ++ utf8 "Causes", .slice (causes es))]

/-- One object for each error of a group that is not nil. -/
def causes : List (Option ErrorTree) → List Tree
  | [] => []
  | none :: es => causes es
  | some e :: es => .map (e.members (utf8 "error")) :: causes es

end

theorem error_ne_nil (e : ErrorTree) : e.error ≠ .nil := by
  cases e with
  | _ => exact fun h => by cases h

/-- The keys of an error are different ones. -/
theorem assignAll_members (key : Bytes) (e : ErrorTree) :
    assignAll [] (e.members key) = e.members key := by
  have htwo {suffix : Bytes} (hsuffix : suffix ≠ []) (a b : Tree) :
      assignAll [] [(key, a), (key ++ suffix, b)] = [(key, a), (key ++ suffix, b)] := by
    have hne : key ≠ key ++ suffix := fun h => hsuffix (List.self_eq_append_right.mp h)
    simp only [assignAll, List.foldl_cons, List.foldl_nil, assign, hne, ↓reduceIte]
  cases e with
  | plain np text => rfl
  | formatter np text verbose =>
    by_cases hsame : verbose = text
    · simp only [members, hsame, ↓reduceIte]
      rfl
    · simp only [members, hsame, ↓reduceIte]
      exact htwo (by decide) _ _
  | group np text es => exact htwo (by decide) _ _

mutual

/-- The calls that are made for a tree add what is to be logged of it, and do not fail. -/
theorem error_calls (key : Bytes) (e : ErrorTree) :
    (encodeError key e.error).calls.2 = none ∧
      (encodeError key e.error).calls.1.parts = e.members key := by
  cases e with
  | plain np text => exact ⟨rfl, rfl⟩
  | formatter np text verbose =>
    by_cases hsame : verbose = text
    · simp only [error, Marshaler.calls, encodeError, encodeText, members, hsame, ↓reduceIte]
      exact ⟨rfl, rfl⟩
    · simp only [error, Marshaler.calls, encodeError, encodeText, members, hsame, ↓reduceIte]
      exact ⟨rfl, rfl⟩
  | group np text es =>
    obtain ⟨hnone, hparts⟩ := errors_calls es
    rw [error, encodeError_calls_group]
    refine ⟨hnone, ?_⟩
    simp only [Transcript.parts, hparts]
    rfl

theorem errors_calls (es : List (Option ErrorTree)) :
    (errArray (errors es)).calls.2 = none ∧ (errArray (errors es)).calls.1.parts = causes es := by
  cases es with
  | nil => exact ⟨rfl, rfl⟩
  | cons e es =>
    obtain ⟨hrest, hcauses⟩ := errors_calls es
    cases e with
    | none => exact ⟨hrest, hcauses⟩
    | some e =>
      obtain ⟨hnone, hparts⟩ := error_calls (utf8 "error") e
      rw [errors, errArray_calls_goes e.error_ne_nil hnone]
      refine ⟨hrest, ?_⟩
      simp only [Transcript.parts, hparts, hcauses, causes, assignAll_members]

end

/-- The keys inside the object of a cause are UTF-8. -/
theorem causeKeys_valid (e : ErrorTree) :
    ∀ kt ∈ e.members (utf8 "error"), sanitize kt.1 = kt.1 := by
  have hkey : sanitize (utf8 "error") = utf8 "error" := sanitize_of_valid (by decide)
  cases e with
  | plain np text => exact List.forall_mem_singleton.mpr hkey
  | formatter np text verbose =>
    by_cases hsame : verbose = text
    · simp only [members, hsame, ↓reduceIte]
      exact List.forall_mem_singleton.mpr hkey
    · simp only [members, hsame, ↓reduceIte]
      have hverbose : validUtf8 (utf8 "error" ++ utf8 "Verbose") = true := by decide
      exact List.forall_mem_cons.mpr
        ⟨hkey, List.forall_mem_singleton.mpr (sanitize_of_valid hverbose)⟩
  | group np text es =>
    have hcauses : validUtf8 (utf8 "error" ++ utf8 "Causes") = true := by decide
    exact List.forall_mem_cons.mpr
      ⟨hkey, List.forall_mem_singleton.mpr (sanitize_of_valid hcauses)⟩

section

variable (cfg : EncoderConfig)

/-- The members of a tree as the JSON encoder writes them. -/
def written (ms : List (Bytes × Tree)) : List (Bytes × Json) :=
  ms.map fun kt => (sanitize kt.1, kt.2.json cfg)

/-- The object of a cause. -/
theorem cause_json (e : ErrorTree) :
    Json.obj (Json.nest (Json.members (written cfg (e.members (utf8 "error"))))) =
      (Tree.map (e.members (utf8 "error"))).json cfg := by
  rw [Json.nest_members_nil, Tree.json, Tree.jsonMembers_eq]
  refine congrArg Json.obj (List.map_congr_left fun kt hkt => ?_)
  rw [e.causeKeys_valid kt hkt]

mutual

/-- The meaning of `encodeError` for a tree. -/
theorem error_denote (key : Bytes) (e : ErrorTree) :
    denote cfg (encodeError key e.error) =
      some (Json.members (written cfg (e.members key)), none) := by
  cases e with
  | plain np text => rfl
  | formatter np text verbose =>
    by_cases hsame : verbose = text
    · simp only [error, encodeError, encodeText, members, hsame, ↓reduceIte]
      rfl
    · simp only [error, encodeError, encodeText, members, hsame, ↓reduceIte]
      rfl
  | group np text es =>
    have harr := errors_denote es
    simp only [error, encodeError, encodeText, addString, denote, harr, Option.bind_eq_bind,
      Option.bind_some, Json.elements_elem]
    rfl

theorem errors_denote (es : List (Option ErrorTree)) :
    denote cfg (errArray (errors es)) =
      some ((Tree.jsonAll cfg (causes es)).map .elem, none) := by
  cases es with
  | nil => rfl
  | cons e es =>
    have hrest := errors_denote es
    cases e with
    | none => exact hrest
    | some e =>
      have hobj := error_denote (utf8 "error") e
      rw [errors, errArray_cons e.error_ne_nil]
      simp only [denote, hobj, Option.bind_eq_bind, Option.bind_some, Option.elim_none, hrest,
        cause_json]
      rfl

end

end

end ErrorTree

/-! ## Encoders -/

mutual

/-- `encodeError` adds texts only. -/
theorem encodeError_eachScalar {P : Scalar → Prop} (hP : ∀ s, P (.prim (.string s))) (key : Bytes)
    (err : GoError) : (encodeError key err).EachScalar P := by
  have htext (np : Bool) (text : Call Bytes) {next : Bytes → ObjectMarshaler}
      (hnext : ∀ basic, (next basic).EachScalar P) :
      (encodeText np key text next).EachScalar P := by
    cases text with
    | returns basic => exact ⟨hP _, hnext basic⟩
    | panics v =>
      cases np with
      | true => exact ⟨hP _, trivial⟩
      | false => trivial
  cases err with
  | nil => trivial
  | plain np text => exact htext np text fun _ => trivial
  | formatter np text verbose =>
    refine htext np text fun basic => ?_
    split
    · trivial
    · exact ⟨hP _, trivial⟩
  | group np text errors =>
    exact htext np text fun _ => ⟨errArray_eachScalar hP errors, fun _ => trivial⟩
  | panickingGroup np text v =>
    refine htext np text fun _ => ?_
    cases np with
    | true => exact ⟨hP _, trivial⟩
    | false => trivial

theorem errArray_eachScalar {P : Scalar → Prop} (hP : ∀ s, P (.prim (.string s)))
    (errs : List GoError) : (errArray errs).EachScalar P := by
  cases errs with
  | nil => trivial
  | cons err errs =>
    have hrest := errArray_eachScalar hP errs
    by_cases hnil : err = .nil
    · rw [hnil]
      exact hrest
    · have hobj := encodeError_eachScalar hP (utf8 "error") err
      rw [errArray_cons hnil]
      refine ⟨hobj, fun e => ?_⟩
      cases e with
      | none => exact hrest
      | some msg => trivial

end

/-- A marshaler that returns nil and, on the JSON encoder, adds members to the object at hand. -/
def JsonEncoder.Writes (cfg : EncoderConfig) (m : ObjectMarshaler) (ms : List (Bytes × Json)) :
    Prop :=
  ∀ {spaced : Bool} {base : Nat} {enc : JsonEncoder} {p t : Bytes} {is : List Json.Item} {n : Nat},
    Place cfg spaced base enc .members p t is n →
      ∃ enc' t' n', JsonEncoder.run m enc = some (enc', none) ∧
        Place cfg spaced base enc' .members p t' (is ++ Json.members ms) n'

/-- A marshaler that returns nil and, on the in-memory encoder, assigns members to the map at
hand. -/
def MemoryEncoder.Stores (m : ObjectMarshaler) (ms : List (Bytes × Tree)) : Prop :=
  ∀ {fields cur : Nat} {h : Maps}, h.Wf → cur < h.next →
    ∃ h', MemoryEncoder.run m (.object fields cur) h = some (.object fields cur, h', none) ∧
      Adds (.object fields cur) h (.object fields cur) h' ms

/-- No namespace is opened for an error. -/
theorem MemoryEncoder.error_stays {key : Bytes} {e : ErrorTree} {fields cur : Nat}
    {enc : MemoryEncoder .object} {h h' : Maps} {err : Option Bytes}
    (hrun : run (encodeError key e.error) (.object fields cur) h = some (enc, h', err)) :
    enc = .object fields cur := by
  cases e with
  | plain np text => cases hrun; rfl
  | formatter np text verbose =>
    by_cases hsame : verbose = text
    · simp only [ErrorTree.error, encodeError, encodeText, hsame, ↓reduceIte] at hrun
      cases hrun
      rfl
    · simp only [ErrorTree.error, encodeError, encodeText, hsame, ↓reduceIte] at hrun
      cases hrun
      rfl
  | group np text es =>
    obtain ⟨r, _, hrest⟩ := Option.bind_eq_some_iff.mp hrun
    cases hrest
    rfl

/-- An error tree is encoded as it is to be, by both encoders, and the same calls are made with
wrappers, whatever lies in their pool. -/
theorem encodeError_faithful (cfg : EncoderConfig) (key : Bytes) (e : ErrorTree) (w : Wrappers) :
    JsonEncoder.Writes cfg (encodeError key e.error) (ErrorTree.written cfg (e.members key)) ∧
      MemoryEncoder.Stores (encodeError key e.error) (e.members key) ∧
      ∃ c w', (encodeError key e.error).transcript (fun _ => none) = some (c, none) ∧
        encodeErrorPooled (e.error.depth + 1) key e.error w = some (c, none, w') := by
  obtain ⟨hnone, hparts⟩ := e.error_calls key
  have hcalls : (encodeError key e.error).transcript (fun _ => none) =
      some ((encodeError key e.error).calls.1, none) := by
    rw [encodeError_transcript, ← hnone]
  refine ⟨?_, ?_, ?_⟩
  · intro spaced base enc p t is n hplace
    have hone := encodeError_eachScalar (P := fun s => OneValue (scalarCalls cfg s))
      (fun s => oneValue_prim cfg (.string s)) key e.error
    exact run_implements_each hone (e.error_denote cfg key) hplace
  · intro fields cur h hwf hcur
    have hstands : (MemoryEncoder.object fields cur).Stands h := hcur
    obtain ⟨enc', h', hrun, hadds⟩ := run_adds _ hcalls hwf hstands
    obtain rfl := MemoryEncoder.error_stays hrun
    rw [hparts] at hadds
    exact ⟨h', hrun, hadds⟩
  · obtain ⟨w', hpooled⟩ := encodeErrorPooled_calls (Nat.lt_succ_self e.error.depth) key w
    rw [hnone] at hpooled
    exact ⟨_, w', hcalls, hpooled⟩

end Zap.Zapcore
