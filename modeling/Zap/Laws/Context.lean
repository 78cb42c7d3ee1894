import Zap.Laws.Appends
import Zap.Zapcore.ConsoleEncoder

/-!
# Context encoded in advance

A core keeps the fields of `With` as bytes: they are encoded into a buffer that starts empty, and
`EncodeEntry` puts that buffer behind the metadata of an entry. The two laws at the end say that
this cannot be told from passing the same fields with the entry. The reason is `run_behind`:
what a marshaler writes does not depend on what stands in front of the buffer, because the
separator that is due in front of the first byte is the one `EncodeEntry` adds when it splices.
-/

set_option autoImplicit false

namespace Zap.Zapcore

open Data

/-! ## Sequences of fields -/

/-- Running one program after another. -/
theorem run_andThen {i : Interface} (m : Marshaler i) (k : Option Bytes → Marshaler i)
    (enc : JsonEncoder) :
    JsonEncoder.run (m.andThen k) enc =
      (JsonEncoder.run m enc).bind fun r => JsonEncoder.run (k r.2) r.1 := by
  induction m generalizing enc with
  | done err => rfl
  | panic => rfl
  | add key s next ih => exact ih k _
  | addBinary key val next ih => exact ih k _
  | openNamespace key next ih => exact ih k _
  | append s next ih => exact ih k _
  | addReflected key val next ih =>
    simp only [Marshaler.andThen, JsonEncoder.run]
    split
    · exact ih _ k _
    · exact ih _ k _
  | appendReflected val next ih =>
    simp only [Marshaler.andThen, JsonEncoder.run]
    split
    · exact ih _ k _
    · exact ih _ k _
  | addArray key arr next _ ih =>
    simp only [Marshaler.andThen, JsonEncoder.run, Option.bind_eq_bind, Option.bind_assoc, ih]
  | addObject key obj next _ ih =>
    simp only [Marshaler.andThen, JsonEncoder.run, Option.bind_eq_bind, Option.bind_assoc, ih]
  | appendArray arr next _ ih =>
    simp only [Marshaler.andThen, JsonEncoder.run, Option.bind_eq_bind, Option.bind_assoc, ih]
  | appendObject obj next _ ih =>
    simp only [Marshaler.andThen, JsonEncoder.run, Option.bind_eq_bind, Option.bind_assoc, ih]

namespace JsonEncoder

theorem addFields_cons [Host] (enc : JsonEncoder) (f : Field) (fs : List Field) :
    enc.addFields (f :: fs) = (run f.addTo enc).bind fun r => r.1.addFields fs := by
  simp only [addFields, Zapcore.addFields, run_andThen, Option.bind_eq_bind, Option.bind_assoc]

/-- Fields may be added in several calls. -/
theorem addFields_append [Host] (enc : JsonEncoder) (as bs : List Field) :
    enc.addFields (as ++ bs) = (enc.addFields as).bind fun e => e.addFields bs := by
  induction as generalizing enc with
  | nil => rfl
  | cons f as ih => simp only [List.cons_append, addFields_cons, Option.bind_assoc, ih]

/-! ## Writing behind a text -/

/-- The encoder with its buffer put behind a text, as `EncodeEntry` splices a context. -/
def behind (p : Bytes) (enc : JsonEncoder) : JsonEncoder :=
  { enc with buf := Json.join enc.spaced p enc.buf }

variable (p : Bytes) (enc : JsonEncoder)

theorem put_behind {x : Bytes} (h : enc.buf ≠ [] ∨ x ≠ []) :
    (enc.behind p).put x = (enc.put x).behind p := by
  simp only [behind, put, write, Json.join_append enc.spaced p enc.buf h]

theorem write_behind (h : enc.buf ≠ []) (x : Bytes) :
    (enc.behind p).write x = (enc.write x).behind p := by
  simp only [behind, write, Json.join_write enc.spaced p h]

theorem addKey_behind (key : Bytes) : (enc.behind p).addKey key = (enc.addKey key).behind p := by
  rw [addKey_eq, addKey_eq]
  exact enc.put_behind p (.inr (List.cons_ne_nil _ _))

theorem addKey_ne_nil (key : Bytes) : (enc.addKey key).buf ≠ [] := by
  rw [addKey_eq, put_buf]
  exact List.append_ne_nil_of_right_ne_nil _ (List.append_ne_nil_of_right_ne_nil _
    (List.cons_ne_nil _ _))

theorem appendString_behind (s : Bytes) :
    (enc.behind p).appendString s = (enc.appendString s).behind p := by
  rw [appendString_eq, appendString_eq]
  exact enc.put_behind p (.inr (List.cons_ne_nil _ _))

theorem foldl_behind (calls : List AppendCall) :
    calls.foldl appendCall (enc.behind p) = (calls.foldl appendCall enc).behind p := by
  induction calls generalizing enc with
  | nil => rfl
  | cons c calls ih =>
    rw [List.foldl_cons, List.foldl_cons, appendCall_eq, put_behind p enc (.inr (callText_ne_nil c)),
      ← appendCall_eq, ih]

theorem appendScalar_behind (s : Scalar) :
    (enc.behind p).appendScalar s = (enc.appendScalar s).behind p := by
  rw [appendScalar_eq, appendScalar_eq]
  exact enc.foldl_behind p _

/-- The result of a method, with its buffer put behind a text. -/
def Result.behind (r : Result) : Result := r.map fun a => (a.1.behind p, a.2)

/-- A marshaling method that does not look in front of the buffer and does not empty it. -/
structure Local (marshal : JsonEncoder → Result) : Prop where
  behind : ∀ enc : JsonEncoder, enc.buf ≠ [] → marshal (enc.behind p) = (marshal enc).behind p
  ne_nil : ∀ {enc enc' : JsonEncoder} {err : Option Bytes}, enc.buf ≠ [] →
    marshal enc = some (enc', err) → enc'.buf ≠ []

theorem put_ne_nil {x : Bytes} (hx : x ≠ []) : (enc.put x).buf ≠ [] := by
  rw [put_buf]
  exact List.append_ne_nil_of_right_ne_nil _ (List.append_ne_nil_of_right_ne_nil _ hx)

theorem appendArray_behind {marshal : JsonEncoder → Result} (h : Local p marshal) :
    (enc.behind p).appendArray marshal = (enc.appendArray marshal).behind p := by
  have hne := enc.put_ne_nil (List.cons_ne_nil 0x5B [])
  simp only [appendArray, addElementSeparator_write]
  rw [enc.put_behind p (.inr (List.cons_ne_nil _ _)), h.behind _ hne]
  cases hr : marshal (enc.put [0x5B]) with
  | none => rfl
  | some r =>
    have hw := r.1.write_behind p (h.ne_nil hne hr) [0x5D]
    simp only [Result.behind, Option.map_some, Option.bind_eq_bind, Option.bind_some, hw]

theorem closeOpenNamespaces_behind (h : enc.buf ≠ []) :
    (enc.behind p).closeOpenNamespaces = enc.closeOpenNamespaces.behind p := by
  have hw := enc.write_behind p h (List.replicate enc.openNamespaces 0x7D)
  exact congrArg (fun e : JsonEncoder => { e with openNamespaces := 0 }) hw

theorem appendObject_behind {marshal : JsonEncoder → Result} (h : Local p marshal) :
    (enc.behind p).appendObject marshal = (enc.appendObject marshal).behind p := by
  have hput := JsonEncoder.put_behind p { enc with openNamespaces := 0 } (x := [0x7B])
    (.inr (List.cons_ne_nil _ _))
  have hne := JsonEncoder.put_ne_nil { enc with openNamespaces := 0 } (List.cons_ne_nil 0x7B [])
  simp only [appendObject, addElementSeparator_write]
  rw [show ({ enc.behind p with openNamespaces := 0 } : JsonEncoder) =
    JsonEncoder.behind p { enc with openNamespaces := 0 } from rfl, hput, h.behind _ hne]
  cases hr : marshal (JsonEncoder.put { enc with openNamespaces := 0 } [0x7B]) with
  | none => rfl
  | some r =>
    have hbuf := h.ne_nil hne hr
    have hw := r.1.write_behind p hbuf [0x7D]
    have hclose := (r.1.write [0x7D]).closeOpenNamespaces_behind p
      (List.append_ne_nil_of_left_ne_nil hbuf _)
    simp only [Result.behind, Option.map_some, Option.bind_eq_bind, Option.bind_some, hw, hclose]
    rfl

theorem openNamespace_behind (key : Bytes) :
    (enc.behind p).openNamespace key = (enc.openNamespace key).behind p := by
  simp only [openNamespace, addKey_behind, write_behind p _ (enc.addKey_ne_nil key)]
  rfl

end JsonEncoder

open JsonEncoder in
/-- What a marshaler writes does not depend on what stands in front of the buffer. An array's
marshaler runs inside its bracket, so its buffer is never empty. -/
theorem run_behind (p : Bytes) {i : Interface} (m : Marshaler i) :
    ∀ enc : JsonEncoder, (i = .array → enc.buf ≠ []) →
      run m (enc.behind p) = (run m enc).behind p := by
  have keep : ∀ {j : Interface} (m : Marshaler j),
      (∀ enc : JsonEncoder, (j = .array → enc.buf ≠ []) →
        run m (enc.behind p) = (run m enc).behind p) → Local p (run m) :=
    fun m hm => ⟨fun enc hne => hm enc fun _ => hne, run_ne_nil m⟩
  have object : ∀ {p : Prop}, Interface.object = .array → p := fun h => by cases h
  induction m with
  | done err => intro _ _; rfl
  | panic => intro _ _; rfl
  | add key s next ih =>
    intro enc _
    simp only [run, addKey_behind, appendScalar_behind]
    exact ih _ object
  | addBinary key val next ih =>
    intro enc _
    simp only [run, addKey_behind, appendString_behind]
    exact ih _ object
  | addReflected key val next ih =>
    intro enc _
    have hsame : (enc.behind p).encodeReflected val = enc.encodeReflected val := rfl
    simp only [run, hsame]
    split
    · exact ih _ _ object
    · rw [addKey_behind, write_behind p _ (enc.addKey_ne_nil key)]
      exact ih _ _ object
  | addArray key arr next iharr ih =>
    intro enc _
    simp only [run, addKey_behind, appendArray_behind p _ (keep arr iharr)]
    cases (enc.addKey key).appendArray (run arr) with
    | none => rfl
    | some r => exact ih r.2 r.1 object
  | addObject key obj next ihobj ih =>
    intro enc _
    simp only [run, addKey_behind, appendObject_behind p _ (keep obj ihobj)]
    cases (enc.addKey key).appendObject (run obj) with
    | none => rfl
    | some r => exact ih r.2 r.1 object
  | openNamespace key next ih =>
    intro enc _
    simp only [run, openNamespace_behind]
    exact ih _ object
  | append s next ih =>
    intro enc hne
    simp only [run, appendScalar_behind]
    exact ih _ fun _ => (Extends.appendScalar (textClass_univ enc.cfg) rfl s).ne_nil (hne rfl)
  | appendReflected val next ih =>
    intro enc hne
    have hsame : (enc.behind p).encodeReflected val = enc.encodeReflected val := rfl
    simp only [run, hsame]
    split
    · exact ih _ _ hne
    · simp only [addElementSeparator_write]
      rw [put_behind p enc (.inl (hne rfl))]
      exact ih _ _ fun _ => List.append_ne_nil_of_left_ne_nil (hne rfl) _
  | appendArray arr next iharr ih =>
    intro enc hne
    simp only [run, appendArray_behind p _ (keep arr iharr)]
    cases hr : enc.appendArray (run arr) with
    | none => rfl
    | some r =>
      have hext := Extends.appendArray (textClass_univ enc.cfg) rfl (run_extends (textClass_univ _) arr) hr
      exact ih r.2 r.1 fun _ => hext.ne_nil (hne rfl)
  | appendObject obj next ihobj ih =>
    intro enc hne
    simp only [run, appendObject_behind p _ (keep obj ihobj)]
    cases hr : enc.appendObject (run obj) with
    | none => rfl
    | some r =>
      have hext := Extends.appendObject (textClass_univ enc.cfg) rfl (run_extends (textClass_univ _) obj) hr
      exact ih r.2 r.1 fun _ => hext.ne_nil (hne rfl)

/-! ## Entries -/

namespace JsonEncoder

variable (enc : JsonEncoder)

/-- The count of namespaces takes no part in writing members. -/
theorem addMembers_namespaces (n : Nat) (ms : List Member) :
    addMembers { enc with openNamespaces := n } ms =
      { enc.addMembers ms with openNamespaces := n } := by
  have calls : ∀ (cs : List AppendCall) (e : JsonEncoder),
      cs.foldl appendCall { e with openNamespaces := n } =
        { cs.foldl appendCall e with openNamespaces := n } := by
    intro cs
    induction cs with
    | nil => intro e; rfl
    | cons c cs ih =>
      intro e
      have hput : appendCall { e with openNamespaces := n } c =
          { e.appendCall c with openNamespaces := n } := by
        rw [appendCall_eq, appendCall_eq]
        rfl
      rw [List.foldl_cons, List.foldl_cons, hput, ih]
  induction ms generalizing enc with
  | nil => rfl
  | cons m ms ih =>
    have hmember : addMember { enc with openNamespaces := n } m =
        { enc.addMember m with openNamespaces := n } := by
      have hkey : addKey { enc with openNamespaces := n } m.1 =
          { enc.addKey m.1 with openNamespaces := n } := by
        rw [addKey_eq, addKey_eq]
        rfl
      rw [addMember, hkey, calls]
      rfl
    exact (congrArg (addMembers · ms) hmember).trans (ih (enc.addMember m))

/-- The buffer after the metadata of an entry. -/
def metadataText (cfg : EncoderConfig) (spaced : Bool) (ms : List Member) : Bytes :=
  (addMembers ⟨cfg, [0x7B], spaced, 0⟩ ms).buf

/-- The end of `EncodeEntry`: everything after the fields. -/
def finish (full : JsonEncoder) (ent : Entry) : Bytes :=
  let final := full.closeOpenNamespaces.encodeStack ent
  (final.write ([0x7D] ++ final.cfg.lineEnding)).buf

theorem addMembers_eq (ms : List Member) :
    (enc.clone.write [0x7B]).addMembers ms =
      { enc with buf := metadataText enc.cfg enc.spaced ms } := by
  have h := addMembers_namespaces ⟨enc.cfg, [0x7B], enc.spaced, 0⟩ enc.openNamespaces ms
  refine h.trans (JsonEncoder.ext ?_ rfl ?_ rfl)
  · exact addMembers_cfg _ ms
  · exact addMembers_spaced _ ms

theorem spliceContext_eq (p : Bytes) :
    spliceContext { enc with buf := p } enc.buf = enc.behind p := by
  by_cases h : enc.buf = []
  · simp only [spliceContext, behind, h, ne_eq, not_true_eq_false, ↓reduceIte, Json.join_nil]
  · rw [spliceContext, if_pos h, addElementSeparator_write, behind, Json.join, if_neg h]
    rfl

/-- Encoding an entry is adding the fields behind the metadata, and closing. -/
theorem encodeEntry_eq [Host] (ent : Entry) (fields : List Field) :
    enc.encodeEntry ent fields = (metadata enc.cfg ent).bind fun ms =>
      ((enc.behind (metadataText enc.cfg enc.spaced ms)).addFields fields).map
        fun full => full.finish ent := by
  rw [encodeEntry, encodeMetadata_eq]
  cases metadata enc.cfg ent with
  | none => rfl
  | some ms =>
    simp only [Option.map_some, Option.bind_eq_bind, Option.bind_some, addMembers_eq,
      spliceContext_eq]
    cases (enc.behind (metadataText enc.cfg enc.spaced ms)).addFields fields <;> rfl

theorem addFields_behind [Host] (p : Bytes) (fields : List Field) :
    (enc.behind p).addFields fields = (enc.addFields fields).map (behind p) := by
  have h := run_behind p (Zapcore.addFields fields) enc nofun
  simp only [addFields, h, Result.behind]
  cases run (Zapcore.addFields fields) enc <;> rfl

theorem addFields_cfg [Host] {enc' : JsonEncoder} {fields : List Field}
    (h : enc.addFields fields = some enc') : enc'.cfg = enc.cfg ∧ enc'.spaced = enc.spaced := by
  obtain ⟨⟨e, err⟩, hrun, hsame⟩ := Option.bind_eq_some_iff.mp h
  cases hsame
  have hext := run_extends (textClass_univ enc.cfg) _ rfl hrun
  exact ⟨hext.cfg, hext.spaced⟩

/-- Fields that were added to the encoder in advance, and fields that are passed with the
entry, give the same bytes. A panic in the former is a panic in the latter. -/
theorem encodeEntry_addFields [Host] (ent : Entry) (as bs : List Field) :
    ((enc.addFields as).bind fun e => e.encodeEntry ent bs) = enc.encodeEntry ent (as ++ bs) := by
  rw [encodeEntry_eq]
  cases hctx : enc.addFields as with
  | none =>
    cases metadata enc.cfg ent with
    | none => rfl
    | some ms => simp [addFields_append, addFields_behind, hctx]
  | some e =>
    obtain ⟨hcfg, hspaced⟩ := enc.addFields_cfg hctx
    simp only [Option.bind_some, encodeEntry_eq, hcfg, hspaced, addFields_append, addFields_behind,
      hctx, Option.map_some]

end JsonEncoder

/-- The same for the console encoder, whose context is encoded apart from the metadata. -/
theorem ConsoleEncoder.encodeEntry_addFields [Host] (c : ConsoleEncoder) (ent : Entry)
    (as bs : List Field) :
    ((c.addFields as).bind fun e => e.encodeEntry ent bs) = c.encodeEntry ent (as ++ bs) := by
  cases hctx : c.json.addFields as with
  | none =>
    simp only [addFields, encodeEntry, writeContext, JsonEncoder.addFields_append, hctx,
      Option.bind_eq_bind, Option.bind_none]
  | some json =>
    obtain ⟨hcfg, _⟩ := c.json.addFields_cfg hctx
    -- the line depends on the encoder by its configuration, and by the fields it adds
    have hmeta : metadata ⟨json⟩ ent = c.metadata ent := by simp only [metadata, hcfg]
    have hsep : ∀ line, addSeparatorIfNecessary ⟨json⟩ line = c.addSeparatorIfNecessary line := by
      intro line
      simp only [addSeparatorIfNecessary, hcfg]
    have hcontext : ∀ line, writeContext ⟨json⟩ line bs = c.writeContext line (as ++ bs) := by
      intro line
      simp only [writeContext, JsonEncoder.addFields_append, hctx, hsep, Option.bind_some]
    simp only [addFields, hctx, Option.bind_eq_bind, Option.bind_some, encodeEntry, hmeta, hsep,
      hcontext, hcfg]

end Zap.Zapcore
