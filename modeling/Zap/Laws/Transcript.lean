import Zap.Laws.Context
import Zap.Zapcore.MemoryEncoder
import Zap.Zapcore.Transcript

/-!
# Encoders return what a transcript says

Both encoders return from a marshaler if it has a transcript, with the error that the transcript
has, and panic if it has none; `Returns` is that it has one. The in-memory encoder takes every reflected value; the JSON encoder
fails on those that its reflected encoder does not encode.
-/

set_option autoImplicit false

namespace Zap.Zapcore

open Data

/-- The error of the JSON encoder for a reflected value, if any. -/
def EncoderConfig.reflectError (cfg : EncoderConfig) : Option Reflected → Option Bytes
  | none => none
  | some v =>
    match cfg.reflectedEncoder v with
    | .error err => some err
    | .ok _ => none

/-- Two computations that give the same results, and go on to give the same results. -/
theorem bind_agree {α β γ δ ε : Type} {p : α → ε} {q : β → ε} {p' : γ → ε} {q' : δ → ε}
    {a : Option α} {b : Option β} {f : α → Option γ} {g : β → Option δ}
    (h : a.map p = b.map q)
    (hnext : ∀ x y, a = some x → p x = q y → (f x).map p' = (g y).map q') :
    (a.bind f).map p' = (b.bind g).map q' := by
  cases a with
  | none =>
    cases b with
    | none => rfl
    | some y => cases h
  | some x =>
    cases b with
    | none => cases h
    | some y => exact hnext x y rfl (Option.some.inj h)

namespace JsonEncoder

variable {cfg : EncoderConfig} {enc enc' : JsonEncoder} {err : Option Bytes}

theorem addKey_keeps (hcfg : enc.cfg = cfg) (key : Bytes) : (enc.addKey key).cfg = cfg :=
  (Extends.addKey (textClass_univ cfg) enc key).cfg.trans hcfg

theorem run_keeps {i : Interface} {m : Marshaler i} (hcfg : enc.cfg = cfg)
    (hrun : run m enc = some (enc', err)) : enc'.cfg = cfg :=
  (run_extends (textClass_univ cfg) m hcfg hrun).cfg.trans hcfg

theorem appendArray_keeps {arr : ArrayMarshaler} (hcfg : enc.cfg = cfg)
    {r : JsonEncoder × Option Bytes} (happend : enc.appendArray (run arr) = some r) :
    r.1.cfg = cfg := by
  obtain ⟨⟨inner, e⟩, hinner, hans⟩ := Option.bind_eq_some_iff.mp happend
  cases hans
  rw [enc.addElementSeparator_write] at hinner
  have hstart : (enc.put [0x5B]).cfg = cfg := hcfg
  have hend : inner.cfg = cfg := run_keeps hstart hinner
  exact hend

theorem appendObject_keeps {obj : ObjectMarshaler} (hcfg : enc.cfg = cfg)
    {r : JsonEncoder × Option Bytes} (happend : enc.appendObject (run obj) = some r) :
    r.1.cfg = cfg := by
  obtain ⟨⟨inner, e⟩, hinner, hans⟩ := Option.bind_eq_some_iff.mp happend
  cases hans
  rw [addElementSeparator_write] at hinner
  have hstart : (put { enc with openNamespaces := 0 } [0x7B]).cfg = cfg := hcfg
  have hend : inner.cfg = cfg := run_keeps hstart hinner
  exact hend

/-- An array returns what its marshaler does. -/
theorem appendArray_outcome (enc : JsonEncoder) (marshal : JsonEncoder → Result) :
    (enc.appendArray marshal).map Prod.snd = (marshal (enc.put [0x5B])).map Prod.snd := by
  rw [appendArray, enc.addElementSeparator_write]
  cases marshal (enc.put [0x5B]) <;> rfl

theorem appendObject_outcome (enc : JsonEncoder) (marshal : JsonEncoder → Result) :
    (enc.appendObject marshal).map Prod.snd =
      (marshal (put { enc with openNamespaces := 0 } [0x7B])).map Prod.snd := by
  simp only [appendObject, addElementSeparator_write]
  cases marshal (put { enc with openNamespaces := 0 } [0x7B]) <;> rfl

theorem encodeReflected_cases (hcfg : enc.cfg = cfg) (v : Option Reflected) :
    (∃ e, enc.encodeReflected v = .error e ∧ cfg.reflectError v = some e) ∨
      ∃ bs, enc.encodeReflected v = .ok bs ∧ cfg.reflectError v = none := by
  cases v with
  | none => exact .inr ⟨_, rfl, rfl⟩
  | some v =>
    simp only [encodeReflected, EncoderConfig.reflectError, hcfg]
    cases cfg.reflectedEncoder v with
    | error e => exact .inl ⟨e, rfl, rfl⟩
    | ok bs => exact .inr ⟨_, rfl, rfl⟩

/-- The JSON encoder returns what the transcript says. -/
theorem run_outcome {i : Interface} (m : Marshaler i) (hcfg : enc.cfg = cfg) :
    (run m enc).map Prod.snd = (m.transcript cfg.reflectError).map Prod.snd := by
  induction m generalizing enc with
  | done e => rfl
  | panic => rfl
  | add key s next ih =>
    have hkey := addKey_keeps hcfg key
    have hscalar := (Extends.appendScalar (textClass_univ cfg) hkey s).cfg.trans hkey
    rw [run, ih hscalar, Marshaler.transcript, Option.map_map]
    rfl
  | addBinary key val next ih =>
    have hkey := addKey_keeps hcfg key
    have hstring := (Extends.appendString (textClass_univ cfg) (enc.addKey key) (base64 val)).cfg
    rw [run, ih (hstring.trans hkey), Marshaler.transcript, Option.map_map]
    rfl
  | addReflected key v next ih =>
    rcases encodeReflected_cases hcfg v with ⟨e, henc, herr⟩ | ⟨bs, henc, herr⟩
    · simp only [run, henc, Marshaler.transcript, herr]
      exact ih (some e) hcfg
    · simp only [run, henc, Marshaler.transcript, herr, Option.map_map]
      have hkey : ((enc.addKey key).write bs).cfg = cfg := addKey_keeps hcfg key
      exact ih none hkey
  | addArray key arr next iharr ih =>
    have hkey := addKey_keeps hcfg key
    have hstart : ((enc.addKey key).put [0x5B]).cfg = cfg := hkey
    refine bind_agree (((enc.addKey key).appendArray_outcome _).trans (iharr hstart))
      fun x y hx hxy => ?_
    rw [ih x.2 (appendArray_keeps hkey hx), hxy, Option.map_map]
    rfl
  | addObject key obj next ihobj ih =>
    have hkey := addKey_keeps hcfg key
    have hstart : (put { enc.addKey key with openNamespaces := 0 } [0x7B]).cfg = cfg := hkey
    refine bind_agree (((enc.addKey key).appendObject_outcome _).trans (ihobj hstart))
      fun x y hx hxy => ?_
    rw [ih x.2 (appendObject_keeps hkey hx), hxy, Option.map_map]
    rfl
  | openNamespace key next ih =>
    have hopen := (Extends.openNamespace (textClass_univ cfg) enc key).cfg.trans hcfg
    rw [run, ih hopen, Marshaler.transcript, Option.map_map]
    rfl
  | append s next ih =>
    have hscalar := (Extends.appendScalar (textClass_univ cfg) hcfg s).cfg.trans hcfg
    rw [run, ih hscalar, Marshaler.transcript, Option.map_map]
    rfl
  | appendReflected v next ih =>
    rcases encodeReflected_cases hcfg v with ⟨e, henc, herr⟩ | ⟨bs, henc, herr⟩
    · simp only [run, henc, Marshaler.transcript, herr]
      exact ih (some e) hcfg
    · simp only [run, henc, Marshaler.transcript, herr, Option.map_map, addElementSeparator_write]
      have hput : (enc.put bs).cfg = cfg := hcfg
      exact ih none hput
  | appendArray arr next iharr ih =>
    have hstart : (enc.put [0x5B]).cfg = cfg := hcfg
    refine bind_agree ((enc.appendArray_outcome _).trans (iharr hstart)) fun x y hx hxy => ?_
    rw [ih x.2 (appendArray_keeps hcfg hx), hxy, Option.map_map]
    rfl
  | appendObject obj next ihobj ih =>
    have hstart : (put { enc with openNamespaces := 0 } [0x7B]).cfg = cfg := hcfg
    refine bind_agree ((enc.appendObject_outcome _).trans (ihobj hstart)) fun x y hx hxy => ?_
    rw [ih x.2 (appendObject_keeps hcfg hx), hxy, Option.map_map]
    rfl

end JsonEncoder

namespace MemoryEncoder

theorem run_addObject (key : Bytes) (obj : ObjectMarshaler)
    (next : Option Bytes → ObjectMarshaler) (fields cur : Nat) (h : Maps) :
    run (.addObject key obj next) (.object fields cur) h =
      (run obj (.object h.next h.next) (h.make.2.set cur key (.map h.next))).bind fun r =>
        run (next r.2.2) (.object fields cur) r.2.1 := rfl

theorem run_appendObject (obj : ObjectMarshaler) (next : Option Bytes → ArrayMarshaler)
    (elems : List Value) (h : Maps) :
    run (.appendObject obj next) (.array elems) h =
      (run obj (.object h.next h.next) h.make.2).bind fun r =>
        run (next r.2.2) (.array (elems ++ [.map r.1.fields])) r.2.1 := rfl

/-- And so does the in-memory encoder. -/
theorem run_outcome {i : Interface} (m : Marshaler i) (enc : MemoryEncoder i) (h : Maps) :
    (run m enc h).map (·.2.2) = (m.transcript fun _ => none).map Prod.snd := by
  induction m generalizing h with
  | done e => rfl
  | panic => rfl
  | add key s next ih =>
    cases enc
    rw [run, ih, Marshaler.transcript, Option.map_map]
    rfl
  | addBinary key val next ih =>
    cases enc
    rw [run, ih, Marshaler.transcript, Option.map_map]
    rfl
  | addReflected key v next ih =>
    cases enc
    rw [run, ih, Marshaler.transcript, Option.map_map]
    rfl
  | addArray key arr next iharr ih =>
    cases enc
    refine bind_agree (iharr _ _) fun x y _ hxy => ?_
    rw [Option.map_map, ← hxy]
    exact ih x.2.2 _ _
  | addObject key obj next ihobj ih =>
    cases enc
    rw [run_addObject]
    refine bind_agree (ihobj _ _) fun x y _ hxy => ?_
    rw [Option.map_map, ← hxy]
    exact ih x.2.2 _ _
  | openNamespace key next ih =>
    cases enc
    rw [Marshaler.transcript, Option.map_map]
    exact ih _ _
  | append s next ih =>
    cases enc
    rw [run, ih, Marshaler.transcript, Option.map_map]
    rfl
  | appendReflected v next ih =>
    cases enc
    rw [run, ih, Marshaler.transcript, Option.map_map]
    rfl
  | appendArray arr next iharr ih =>
    cases enc
    refine bind_agree (iharr _ _) fun x y _ hxy => ?_
    rw [Option.map_map, ← hxy]
    exact ih x.2.2 _ _
  | appendObject obj next ihobj ih =>
    cases enc
    rw [run_appendObject]
    refine bind_agree (ihobj _ _) fun x y _ hxy => ?_
    rw [Option.map_map, ← hxy]
    exact ih x.2.2 _ _

end MemoryEncoder

/-- An element that is not nil. -/
theorem errArray_cons {err : GoError} (hnil : err ≠ .nil) (errs : List GoError) :
    errArray (err :: errs) =
      .appendObject (encodeError (utf8 "error") err) fun e =>
        e.elim (errArray errs) fun msg => .done (some msg) := by
  cases err with
  | nil => exact absurd rfl hnil
  | _ =>
    refine congrArg (Marshaler.appendObject _) (funext fun e => ?_)
    cases e <;> rfl

/-! ## Marshalers that return -/

section

variable {refl : Option Reflected → Option Bytes}

/-- The marshaler returns from an encoder that answers reflected values with the errors `refl`. -/
def Returns (refl : Option Reflected → Option Bytes) {i : Interface} (m : Marshaler i) : Prop :=
  (m.transcript refl).isSome = true

theorem returns_iff_exists {i : Interface} {m : Marshaler i} :
    Returns refl m ↔ ∃ r, m.transcript refl = some r := Option.isSome_iff_exists

theorem not_returns_panic {i : Interface} : ¬ Returns refl (.panic : Marshaler i) :=
  fun h => (by cases h)

theorem returns_andThen {i : Interface} {m : Marshaler i} {k : Option Bytes → Marshaler i}
    (hk : ∀ e, Returns refl (k e)) : Returns refl (m.andThen k) ↔ Returns refl m := by
  rw [Returns, Returns, Marshaler.transcript_andThen]
  cases m.transcript refl with
  | none => exact Iff.rfl
  | some r =>
    obtain ⟨r', hr'⟩ := returns_iff_exists.mp (hk r.2)
    simp only [Option.bind_some, hr', Option.map_some, Option.isSome_some]

theorem returns_andThen_const {i : Interface} {m n : Marshaler i} :
    Returns refl (m.andThen fun _ => n) ↔ Returns refl m ∧ Returns refl n := by
  rw [Returns, Returns, Marshaler.transcript_andThen]
  cases hm : m.transcript refl with
  | none => exact ⟨fun h => (by cases h), fun h => (by cases h.1)⟩
  | some r =>
    simp only [Option.bind_some, Option.isSome_map]
    exact ⟨fun h => ⟨rfl, h⟩, And.right⟩

/-- Fields are added if each of them is. -/
theorem returns_addFields_iff [Host] (fields : List Field) :
    Returns refl (addFields fields) ↔ ∀ f ∈ fields, Returns refl f.addTo := by
  induction fields with
  | nil => exact ⟨fun _ _ h => absurd h List.not_mem_nil, fun _ => rfl⟩
  | cons f fs ih => rw [addFields, returns_andThen_const, ih, List.forall_mem_cons]

end

theorem JsonEncoder.isSome_run {i : Interface} (m : Marshaler i) (enc : JsonEncoder) :
    (JsonEncoder.run m enc).isSome = true ↔ Returns enc.cfg.reflectError m := by
  have houtcome := congrArg Option.isSome (JsonEncoder.run_outcome m (rfl : enc.cfg = enc.cfg))
  rw [Option.isSome_map, Option.isSome_map] at houtcome
  rw [Returns, houtcome]

theorem MemoryEncoder.isSome_run {i : Interface} (m : Marshaler i) (enc : MemoryEncoder i) (h : Maps) :
    (MemoryEncoder.run m enc h).isSome = true ↔ Returns (fun _ => none) m := by
  have houtcome := congrArg Option.isSome (MemoryEncoder.run_outcome m enc h)
  rw [Option.isSome_map, Option.isSome_map] at houtcome
  rw [Returns, houtcome]

end Zap.Zapcore
