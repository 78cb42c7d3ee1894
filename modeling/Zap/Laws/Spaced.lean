import Zap.Data.Spacing
import Zap.Laws.Context
import Zap.Zapcore.TimeEncoder

/-!
# Spaced and compact JSON

The console encoder's JSON has a space behind each colon and comma that the encoder writes, the
JSON encoder's has none. An `Outline` is an encoder that does not choose: it keeps the pieces that
were written. `run_encoder` says that the encoder in either style is a rendering of the same
outline, whatever a marshaler does; in particular a space at the end of the buffer decides on
separators as the colon or comma in front of it would. What is left is a question on pieces.
The texts of times in a layout are not escaped, so there the answer depends on the layout.
-/

set_option autoImplicit false

namespace Zap.Zapcore

open Data Json

/-! ## Texts of scalars -/

theorem primText_neutral (p : Prim) : Neutral (primText p) := by
  refine (primText_derives p).neutral ?_
  have hfloat : ∀ f narrow, isScalar (floatJson f narrow) = true := by
    intro f narrow
    unfold floatJson
    repeat' split
    all_goals rfl
  cases p with
  | float64 f => exact hfloat _ _
  | float32 f => exact hfloat _ _
  | _ => rfl

/-! ## Outlines -/

/-- What becomes of the values that a configuration can have its own way with. -/
structure Coding where
  calls : Scalar → List AppendCall
  reflect : Option Reflected → Except Bytes Bytes

def EncoderConfig.coding (cfg : EncoderConfig) : Coding where
  calls := scalarCalls cfg
  reflect := JsonEncoder.encodeReflected ⟨cfg, [], false, 0⟩

/-- An encoder's buffer in pieces. Texts of reflected values are foreign. -/
structure Outline where
  pieces : List Piece
  openNamespaces : Nat

namespace Outline

/-- The encoder in one of the styles. -/
def encoder (cfg : EncoderConfig) (spaced : Bool) (o : Outline) : JsonEncoder :=
  ⟨cfg, render spaced o.pieces, spaced, o.openNamespaces⟩

def write (o : Outline) (p : Piece) : Outline := { o with pieces := o.pieces ++ [p] }

/-- Is a comma due behind the pieces? -/
def due (ps : List Piece) : Bool := separator false (render false ps) != []

/-- A piece behind a comma, if one is due. -/
def put (o : Outline) (p : Piece) : Outline :=
  if due o.pieces then (o.write (.mark .comma)).write p else o.write p

def addKey (o : Outline) (key : Bytes) : Outline :=
  (o.put (.text false (quoted key))).write (.mark .colon)

def appendCall (o : Outline) (c : AppendCall) : Outline := o.put (.text false (callText c))

def appendCalls (o : Outline) (calls : List AppendCall) : Outline := calls.foldl appendCall o

def closeOpenNamespaces (o : Outline) : Outline :=
  { o.write (.text false (List.replicate o.openNamespaces 0x7D)) with openNamespaces := 0 }

def openNamespace (o : Outline) (key : Bytes) : Outline :=
  { (o.addKey key).write (.text false [0x7B]) with openNamespaces := o.openNamespaces + 1 }

abbrev Result := Option (Outline × Option Bytes)

def appendArray (o : Outline) (marshal : Outline → Result) : Result := do
  let (o, err) ← marshal (o.put (.text false [0x5B]))
  some (o.write (.text false [0x5D]), err)

def appendObject (o : Outline) (marshal : Outline → Result) : Result := do
  let old := o.openNamespaces
  let (o, err) ← marshal ({ o with openNamespaces := 0 }.put (.text false [0x7B]))
  let o := (o.write (.text false [0x7D])).closeOpenNamespaces
  some ({ o with openNamespaces := old }, err)

/-- Run a marshaler on the outline. -/
def run (k : Coding) : {i : Interface} → Marshaler i → Outline → Result
  | _, .done err, o => some (o, err)
  | _, .panic, _ => none
  | _, .add key s next, o => run k next ((o.addKey key).appendCalls (k.calls s))
  | _, .addBinary key val next, o =>
    run k next ((o.addKey key).put (.text false (quoted (base64 val))))
  | _, .addReflected key val next, o =>
    match k.reflect val with
    | .error err => run k (next (some err)) o
    | .ok bs => run k (next none) ((o.addKey key).write (.text true bs))
  | _, .addArray key m next, o => do
    let (o, err) ← (o.addKey key).appendArray (run k m)
    run k (next err) o
  | _, .addObject key m next, o => do
    let (o, err) ← (o.addKey key).appendObject (run k m)
    run k (next err) o
  | _, .openNamespace key next, o => run k next (o.openNamespace key)
  | _, .append s next, o => run k next (o.appendCalls (k.calls s))
  | _, .appendReflected val next, o =>
    match k.reflect val with
    | .error err => run k (next (some err)) o
    | .ok bs => run k (next none) (o.put (.text true bs))
  | _, .appendArray m next, o => do
    let (o, err) ← o.appendArray (run k m)
    run k (next err) o
  | _, .appendObject m next, o => do
    let (o, err) ← o.appendObject (run k m)
    run k (next err) o

/-! ## Encoders render outlines -/

section Rendering

variable (cfg : EncoderConfig) (spaced : Bool) (o : Outline)

theorem write_encoder (p : Piece) :
    (o.write p).encoder cfg spaced = (o.encoder cfg spaced).write (p.render spaced) := by
  rw [encoder, write, render_append, render_cons, render_nil, List.append_nil]
  rfl

/-- Both styles ask for a comma at the same places. -/
theorem separator_render (ps : List Piece) :
    separator spaced (render spaced ps) = if due ps then comma spaced else [] := by
  have hcompact : ∀ t, separator spaced t = if separator false t != [] then comma spaced else [] := by
    intro t
    unfold separator
    cases t.getLast? with
    | none => rfl
    | some b => cases hb : opens b <;> simp [hb, comma]
  induction ps using List.reverseRecOn with
  | nil => rfl
  | append_singleton ps p ih =>
    rw [hcompact, due, render_append, render_append, render_cons, render_cons, render_nil,
      render_nil, List.append_nil, List.append_nil]
    cases p with
    | text foreign x =>
      by_cases hx : x = []
      · subst hx
        simp only [Piece.render, List.append_nil]
        rw [← hcompact, ih, due]
      · rw [Piece.render, Piece.render, separator_append false _ hx, separator_append false _ hx]
    | mark m =>
      rw [Piece.render, Piece.render, separator_append false _ (List.cons_ne_nil _ _),
        separator_append false _ (List.cons_ne_nil _ _)]
      cases m <;> cases spaced <;> rfl

theorem put_encoder (foreign : Bool) (x : Bytes) :
    (o.put (.text foreign x)).encoder cfg spaced = (o.encoder cfg spaced).put x := by
  have hsep : separator (o.encoder cfg spaced).spaced (o.encoder cfg spaced).buf =
      if due o.pieces then comma spaced else [] := separator_render spaced o.pieces
  rw [put, JsonEncoder.put, hsep]
  split
  · rw [write_encoder, write_encoder, JsonEncoder.write_write, comma_eq]
    rfl
  · rw [write_encoder]
    rfl

theorem addKey_encoder (key : Bytes) :
    (o.addKey key).encoder cfg spaced = (o.encoder cfg spaced).addKey key := by
  rw [addKey, write_encoder, put_encoder, JsonEncoder.addKey_eq, JsonEncoder.put_write]
  congr 1
  simp only [quoted, keyText, Piece.render, List.cons_append, List.append_assoc]
  rfl

theorem appendCalls_encoder (s : Scalar) :
    (o.appendCalls (cfg.coding.calls s)).encoder cfg spaced =
      (o.encoder cfg spaced).appendScalar s := by
  have hcalls : ∀ (calls : List AppendCall) (o : Outline),
      (calls.foldl appendCall o).encoder cfg spaced =
        calls.foldl JsonEncoder.appendCall (o.encoder cfg spaced) := by
    intro calls
    induction calls with
    | nil => exact fun _ => rfl
    | cons c calls ih =>
      intro o
      rw [List.foldl_cons, List.foldl_cons, ih, JsonEncoder.appendCall_eq, appendCall, put_encoder]
  rw [JsonEncoder.appendScalar_eq]
  exact hcalls _ o

theorem closeOpenNamespaces_encoder :
    o.closeOpenNamespaces.encoder cfg spaced = (o.encoder cfg spaced).closeOpenNamespaces :=
  congrArg (fun enc : JsonEncoder => { enc with openNamespaces := 0 })
    (o.write_encoder cfg spaced (.text false (List.replicate o.openNamespaces 0x7D)))

theorem openNamespace_encoder (key : Bytes) :
    (o.openNamespace key).encoder cfg spaced = (o.encoder cfg spaced).openNamespace key := by
  have hwrite := (o.addKey key).write_encoder cfg spaced (.text false [0x7B])
  rw [addKey_encoder] at hwrite
  have hopen := congrArg (fun enc : JsonEncoder =>
    { enc with openNamespaces := o.openNamespaces + 1 }) hwrite
  exact hopen.trans (by rw [JsonEncoder.openNamespace, JsonEncoder.addKey_eq]; rfl)

/-- The result of a run in one of the styles. -/
def Result.encoder (r : Result) : JsonEncoder.Result := r.map fun a => (a.1.encoder cfg spaced, a.2)

/-- A method on encoders renders one on outlines. -/
def Renders (cfg : EncoderConfig) (spaced : Bool) (marshal : JsonEncoder → JsonEncoder.Result)
    (outline : Outline → Result) : Prop :=
  ∀ o : Outline, marshal (o.encoder cfg spaced) = (outline o).encoder cfg spaced

theorem appendArray_encoder {marshal : JsonEncoder → JsonEncoder.Result}
    {outline : Outline → Result} (h : Renders cfg spaced marshal outline) :
    (o.encoder cfg spaced).appendArray marshal = (o.appendArray outline).encoder cfg spaced := by
  rw [JsonEncoder.appendArray, JsonEncoder.addElementSeparator_write, ← put_encoder cfg spaced o false,
    h, appendArray]
  cases outline (o.put (.text false [0x5B])) with
  | none => rfl
  | some r =>
    simp only [Result.encoder, Option.map_some, Option.bind_eq_bind, Option.bind_some, write_encoder]
    rfl

theorem appendObject_encoder {marshal : JsonEncoder → JsonEncoder.Result}
    {outline : Outline → Result} (h : Renders cfg spaced marshal outline) :
    (o.encoder cfg spaced).appendObject marshal = (o.appendObject outline).encoder cfg spaced := by
  have hinner : marshal
      (({ o.encoder cfg spaced with openNamespaces := 0 }.addElementSeparator).write [0x7B]) =
      (outline ({ o with openNamespaces := 0 }.put (.text false [0x7B]))).encoder cfg spaced := by
    rw [JsonEncoder.addElementSeparator_write, ← h, put_encoder]
    rfl
  rw [JsonEncoder.appendObject, appendObject, hinner]
  cases outline ({ o with openNamespaces := 0 }.put (.text false [0x7B])) with
  | none => rfl
  | some r =>
    have hclose := (r.1.write (.text false [0x7D])).closeOpenNamespaces_encoder cfg spaced
    rw [write_encoder] at hclose
    exact congrArg (fun enc : JsonEncoder =>
      some ({ enc with openNamespaces := o.openNamespaces }, r.2)) hclose.symm

theorem run_encoder {i : Interface} (m : Marshaler i) :
    Renders cfg spaced (JsonEncoder.run m) (run cfg.coding m) := by
  induction m with
  | done err => exact fun _ => rfl
  | panic => exact fun _ => rfl
  | add key s next ih =>
    intro o
    rw [JsonEncoder.run, ← addKey_encoder, ← appendCalls_encoder, ih]
    rfl
  | addBinary key val next ih =>
    intro o
    rw [JsonEncoder.run, ← addKey_encoder, JsonEncoder.appendString_eq, ← put_encoder cfg spaced _ false,
      ih]
    rfl
  | addReflected key val next ih =>
    intro o
    have hsame : (o.encoder cfg spaced).encodeReflected val = cfg.coding.reflect val := rfl
    rw [JsonEncoder.run, run, hsame]
    cases cfg.coding.reflect val with
    | error err => exact ih _ o
    | ok bs =>
      have hwrite := (o.addKey key).write_encoder cfg spaced (.text true bs)
      rw [addKey_encoder] at hwrite
      exact (congrArg _ hwrite.symm).trans (ih none _)
  | addArray key arr next iharr ih =>
    intro o
    rw [JsonEncoder.run, ← addKey_encoder, appendArray_encoder cfg spaced _ iharr, run]
    cases (o.addKey key).appendArray (run cfg.coding arr) with
    | none => rfl
    | some r => exact ih r.2 r.1
  | addObject key obj next ihobj ih =>
    intro o
    rw [JsonEncoder.run, ← addKey_encoder, appendObject_encoder cfg spaced _ ihobj, run]
    cases (o.addKey key).appendObject (run cfg.coding obj) with
    | none => rfl
    | some r => exact ih r.2 r.1
  | openNamespace key next ih =>
    intro o
    rw [JsonEncoder.run, ← openNamespace_encoder, ih]
    rfl
  | append s next ih =>
    intro o
    rw [JsonEncoder.run, ← appendCalls_encoder, ih]
    rfl
  | appendReflected val next ih =>
    intro o
    have hsame : (o.encoder cfg spaced).encodeReflected val = cfg.coding.reflect val := rfl
    rw [JsonEncoder.run, run, hsame]
    cases cfg.coding.reflect val with
    | error err => exact ih _ o
    | ok bs =>
      have hput := (o.put_encoder cfg spaced true bs).symm
      rw [← JsonEncoder.addElementSeparator_write] at hput
      exact (congrArg _ hput).trans (ih none _)
  | appendArray arr next iharr ih =>
    intro o
    rw [JsonEncoder.run, appendArray_encoder cfg spaced _ iharr, run]
    cases o.appendArray (run cfg.coding arr) with
    | none => rfl
    | some r => exact ih r.2 r.1
  | appendObject obj next ihobj ih =>
    intro o
    rw [JsonEncoder.run, appendObject_encoder cfg spaced _ ihobj, run]
    cases o.appendObject (run cfg.coding obj) with
    | none => rfl
    | some r => exact ih r.2 r.1

end Rendering

/-! ## The encoder's own texts -/

/-- A class of pieces that holds all colons and commas. -/
def All (P : Piece → Prop) (o : Outline) : Prop := ∀ p ∈ o.pieces, P p

namespace All

variable {P : Piece → Prop} (hmark : ∀ m, P (.mark m)) {o : Outline} (h : o.All P)
include h

theorem write {p : Piece} (hp : P p) : (o.write p).All P := by
  intro p' hp'
  rcases List.mem_append.mp hp' with hp' | hp'
  · exact h p' hp'
  · rw [List.mem_singleton.mp hp']
    exact hp

include hmark

theorem put {p : Piece} (hp : P p) : (o.put p).All P := by
  rw [Outline.put]
  split
  · exact (h.write (hmark .comma)).write hp
  · exact h.write hp

theorem addKey {key : Bytes} (hkey : P (.text false (quoted key))) : (o.addKey key).All P :=
  (h.put hmark hkey).write (hmark .colon)

theorem appendCalls {calls : List AppendCall}
    (hcalls : ∀ c ∈ calls, P (.text false (callText c))) : (o.appendCalls calls).All P := by
  induction calls generalizing o with
  | nil => exact h
  | cons c calls ih =>
    obtain ⟨hc, hrest⟩ := List.forall_mem_cons.mp hcalls
    exact ih (h.put hmark hc) hrest

end All

/-- A piece that is neutral if it is a text that is not foreign. -/
def TidyPiece : Piece → Prop
  | .text false x => Neutral x
  | _ => True

/-- The texts that are not foreign are neutral. -/
abbrev Tidy (o : Outline) : Prop := o.All TidyPiece

namespace Tidy

variable {k : Coding} {o o' : Outline}

theorem mark (m : Mark) : TidyPiece (.mark m) := trivial

theorem foreign (x : Bytes) : TidyPiece (.text true x) := trivial

theorem write (h : o.Tidy) {x : Bytes} (hx : Neutral x) : (o.write (.text false x)).Tidy :=
  All.write h hx

theorem put (h : o.Tidy) {x : Bytes} (hx : Neutral x) : (o.put (.text false x)).Tidy :=
  All.put mark h hx

theorem addKey (h : o.Tidy) (key : Bytes) : (o.addKey key).Tidy :=
  All.addKey mark h (primText_neutral (.string key))

theorem closeOpenNamespaces (h : o.Tidy) : o.closeOpenNamespaces.Tidy :=
  h.write (neutral_of_forall fun b hb => by
    rw [List.eq_of_mem_replicate hb]
    decide)

/-- A method that keeps outlines tidy. -/
def Keeps (marshal : Outline → Result) : Prop :=
  ∀ {o o' : Outline} {err : Option Bytes}, o.Tidy → marshal o = some (o', err) → o'.Tidy

theorem appendArray {marshal : Outline → Result} (hm : Keeps marshal) (h : o.Tidy)
    {err : Option Bytes} (hrun : o.appendArray marshal = some (o', err)) : o'.Tidy := by
  obtain ⟨⟨inner, e⟩, hinner, hans⟩ := Option.bind_eq_some_iff.mp hrun
  cases hans
  exact (hm (h.put ⟨rfl, rfl⟩) hinner).write ⟨rfl, rfl⟩

theorem appendObject {marshal : Outline → Result} (hm : Keeps marshal) (h : o.Tidy)
    {err : Option Bytes} (hrun : o.appendObject marshal = some (o', err)) : o'.Tidy := by
  obtain ⟨⟨inner, e⟩, hinner, hans⟩ := Option.bind_eq_some_iff.mp hrun
  cases hans
  have hopen : ({ o with openNamespaces := 0 } : Outline).Tidy := h
  exact ((hm (hopen.put ⟨rfl, rfl⟩) hinner).write ⟨rfl, rfl⟩).closeOpenNamespaces

theorem run (hk : ∀ s, ∀ c ∈ k.calls s, Neutral (callText c)) {i : Interface} (m : Marshaler i) :
    Keeps (Outline.run k m) := by
  induction m with
  | done err => intro _ _ _ h hrun; cases hrun; exact h
  | panic => intro _ _ _ _ hrun; cases hrun
  | add key s next ih => exact fun h => ih (All.appendCalls mark (h.addKey key) (hk s))
  | addBinary key val next ih =>
    exact fun h => ih ((h.addKey key).put (primText_neutral (.string (base64 val))))
  | addReflected key val next ih =>
    intro o _ _ h hrun
    rw [Outline.run] at hrun
    split at hrun
    · exact ih _ h hrun
    · exact ih _ (All.write (h.addKey key) (foreign _)) hrun
  | addArray key arr next iharr ih =>
    intro o _ _ h hrun
    obtain ⟨⟨mid, e⟩, harr, hrest⟩ := Option.bind_eq_some_iff.mp hrun
    exact ih e (appendArray iharr (h.addKey key) harr) hrest
  | addObject key obj next ihobj ih =>
    intro o _ _ h hrun
    obtain ⟨⟨mid, e⟩, hobj, hrest⟩ := Option.bind_eq_some_iff.mp hrun
    exact ih e (appendObject ihobj (h.addKey key) hobj) hrest
  | openNamespace key next ih =>
    intro o _ _ h hrun
    have hopen : (o.openNamespace key).Tidy := (h.addKey key).write ⟨rfl, rfl⟩
    exact ih hopen hrun
  | append s next ih => exact fun h => ih (All.appendCalls mark h (hk s))
  | appendReflected val next ih =>
    intro o _ _ h hrun
    rw [Outline.run] at hrun
    split at hrun
    · exact ih _ h hrun
    · exact ih _ (All.put mark h (foreign _)) hrun
  | appendArray arr next iharr ih =>
    intro o _ _ h hrun
    obtain ⟨⟨mid, e⟩, harr, hrest⟩ := Option.bind_eq_some_iff.mp hrun
    exact ih e (appendArray iharr h harr) hrest
  | appendObject obj next ihobj ih =>
    intro o _ _ h hrun
    obtain ⟨⟨mid, e⟩, hobj, hrest⟩ := Option.bind_eq_some_iff.mp hrun
    exact ih e (appendObject ihobj h hobj) hrest

end Tidy

/-! ## Times between commas -/

/-- The reader is outside behind the pieces. -/
def Outside (o : Outline) : Prop := Place.outside.after (render false o.pieces) = .outside

theorem Outside.mark {o : Outline} (h : o.Outside) (m : Mark) : (o.write (.mark m)).Outside := by
  rw [Outside, write, render_append, Place.after_append, h]
  exact (Place.after_mark false .outside m).trans (Place.outside_next m)

theorem Outside.write {o : Outline} (h : o.Outside) {x : Bytes} (hx : Neutral x) :
    (o.write (.text false x)).Outside := by
  rw [Outside, Outline.write, render_append, Place.after_append, h, render_cons, render_nil,
    List.append_nil]
  exact hx.2

/-- A piece goes behind a comma or not, and a comma leaves the reader where it is. -/
theorem put_eq (o : Outline) (p : Piece) :
    ∃ o₁ : Outline, o.put p = o₁.write p ∧ (o.Outside → o₁.Outside) ∧
      (due o.pieces = true → o₁ = o.write (.mark .comma)) := by
  rw [put]
  split
  · exact ⟨_, rfl, fun h => h.mark .comma, fun _ => rfl⟩
  · next h => exact ⟨o, rfl, id, fun hdue => absurd hdue h⟩

theorem Outside.addKey {o : Outline} (h : o.Outside) (key : Bytes) : (o.addKey key).Outside := by
  obtain ⟨o₁, hput, hout₁, -⟩ := o.put_eq (.text false (quoted key))
  rw [Outline.addKey, hput]
  exact ((hout₁ h).write (primText_neutral (.string key))).mark .colon

/-- Behind a value a comma is due. -/
theorem due_appendCall (o : Outline) (c : AppendCall) : due (o.appendCall c).pieces = true := by
  have hlast : ∃ b, (callText c).getLast? = some b ∧ opens b = false := by
    cases c with
    | prim p => exact (primText_derives p).getLast
    | timeLayout t layout =>
      exact ⟨0x22, by rw [callText, ← List.cons_append, List.getLast?_concat], rfl⟩
  obtain ⟨b, hb, hopen⟩ := hlast
  obtain ⟨o₁, hput, -⟩ := o.put_eq (.text false (callText c))
  rw [appendCall, hput, write, due, render_append, render_cons, render_nil, List.append_nil,
    Piece.render, separator_append false _ (JsonEncoder.callText_ne_nil c), separator, hb]
  simp only [hopen]
  rfl

theorem due_appendCalls (o : Outline) {calls : List AppendCall} (h : calls ≠ []) :
    due (o.appendCalls calls).pieces = true := by
  rcases List.eq_nil_or_concat calls with rfl | ⟨front, last, rfl⟩
  · exact absurd rfl h
  · rw [appendCalls, List.concat_eq_append, List.foldl_append]
    exact due_appendCall _ last

theorem appendCalls_before_mark {o : Outline} (hdue : due o.pieces = true)
    (calls : List AppendCall) (m : Mark) (rest : List Piece) :
    ∃ m' rest', (o.appendCalls calls).pieces ++ .mark m :: rest = o.pieces ++ .mark m' :: rest' := by
  induction calls generalizing o with
  | nil => exact ⟨m, rest, rfl⟩
  | cons c calls ih =>
    obtain ⟨m', rest', heq⟩ := ih (o.due_appendCall c)
    obtain ⟨o₁, hput, -, hcomma⟩ := o.put_eq (.text false (callText c))
    refine ⟨.comma, .text false (callText c) :: .mark m' :: rest', heq.trans ?_⟩
    rw [appendCall, hput, hcomma hdue]
    simp only [write, List.append_assoc, List.cons_append, List.nil_append]

/-- Values with a comma behind the last one are clear only if each is neutral. -/
theorem neutral_of_clear {o : Outline} (hout : o.Outside) {calls : List AppendCall} {m : Mark}
    {rest : List Piece} (hclear : Clear .outside ((o.appendCalls calls).pieces ++ .mark m :: rest)) :
    ∀ c ∈ calls, Neutral (callText c) := by
  induction calls generalizing o with
  | nil => exact fun _ hc => absurd hc List.not_mem_nil
  | cons c calls ih =>
    obtain ⟨m', rest', heq⟩ := appendCalls_before_mark (o.due_appendCall c) calls m rest
    obtain ⟨o₁, hput, hout₁, -⟩ := o.put_eq (.text false (callText c))
    have hstep : (o.appendCall c).pieces = o₁.pieces ++ [.text false (callText c)] :=
      congrArg pieces hput
    have hnext := heq ▸ hclear
    rw [hstep, List.append_assoc, clear_append, hout₁ hout] at hnext
    obtain ⟨-, htext, hplace, -⟩ := hnext
    have hout' : (o.appendCall c).Outside := by
      rw [appendCall, hput]
      exact (hout₁ hout).write ⟨htext, hplace⟩
    exact List.forall_mem_cons.mpr ⟨⟨htext, hplace⟩, ih hout' hclear⟩

end Outline

/-! ## Contexts -/

section Contexts

variable [Host]

/-- The context that an encoder writes for fields, with its namespaces closed. -/
def JsonEncoder.context (enc : JsonEncoder) (fields : List Field) : Option Bytes :=
  (enc.addFields fields).map fun e => e.closeOpenNamespaces.buf

/-- The pieces of the context. -/
def contextPieces (cfg : EncoderConfig) (fields : List Field) : Option (List Piece) :=
  (Outline.run cfg.coding (addFields fields) ⟨[], 0⟩).map fun r => r.1.closeOpenNamespaces.pieces

theorem context_render (cfg : EncoderConfig) (spaced : Bool) (fields : List Field) :
    (newJSONEncoder cfg spaced).context fields = (contextPieces cfg fields).map (render spaced) := by
  have hrun : JsonEncoder.run (addFields fields) (newJSONEncoder cfg spaced) =
      (Outline.run cfg.coding (addFields fields) ⟨[], 0⟩).encoder
        (newJSONEncoder cfg spaced).cfg spaced :=
    Outline.run_encoder (newJSONEncoder cfg spaced).cfg spaced (addFields fields) ⟨[], 0⟩
  rw [JsonEncoder.context, JsonEncoder.addFields, hrun, contextPieces]
  cases Outline.run cfg.coding (addFields fields) ⟨[], 0⟩ with
  | none => rfl
  | some r =>
    exact congrArg (fun enc : JsonEncoder => some enc.buf)
      (r.1.closeOpenNamespaces_encoder (newJSONEncoder cfg spaced).cfg spaced).symm

/-- The text of a reflected value as the law asks for it: JSON without spaces outside string
literals. -/
def Compact (x : Bytes) : Prop := (∃ v, Derives .value x v) ∧ unspace .outside x = x

/-- The console encoder and the JSON encoder write the same context for the fields, but for the
spaces behind the colons and commas of the console encoder; or both panic. -/
def SameData (cfg : EncoderConfig) (fields : List Field) : Prop :=
  ((newConsoleEncoder cfg).json.context fields = none ∧
    (newJSONEncoder cfg false).context fields = none) ∨
  ∃ ps spaced compact, contextPieces cfg fields = some ps ∧
    (newConsoleEncoder cfg).json.context fields = some spaced ∧
    (newJSONEncoder cfg false).context fields = some compact ∧
    ((∀ x, .text true x ∈ ps → Compact x) →
      unspace .outside spaced = unspace .outside compact ∧
        beforeSpaces .outside none spaced = marks ps)

theorem sameData_iff (cfg : EncoderConfig) (fields : List Field) :
    SameData cfg fields ↔ ∀ ps, contextPieces cfg fields = some ps →
      (∀ x, .text true x ∈ ps → Compact x) → Clear .outside ps := by
  have hspaced : (newConsoleEncoder cfg).json.context fields =
      (contextPieces cfg fields).map (render true) := context_render _ true fields
  rw [SameData, hspaced, context_render]
  cases contextPieces cfg fields with
  | none => exact ⟨fun _ _ h => (by cases h), fun _ => .inl ⟨rfl, rfl⟩⟩
  | some ps =>
    constructor
    · rintro (⟨h, -⟩ | ⟨_, _, _, hps, hs, hc, h⟩) qs hqs hforeign
      · cases h
      · cases hps
        cases hs
        cases hc
        cases hqs
        exact (agrees_iff ps).mp (h hforeign)
    · intro h
      exact .inr ⟨ps, _, _, rfl, rfl, rfl, fun hforeign => (agrees_iff ps).mpr (h ps rfl hforeign)⟩

/-- A time, and a namespace that is behind it. -/
def timeThenNamespace (t : Time) : List Field :=
  [⟨[], .timeFull, 0, [], .time t⟩, ⟨[], .namespace, 0, [], .nil⟩]

/-- The calls for a time have a comma behind them, and no piece is foreign. -/
theorem contextPieces_time (cfg : EncoderConfig) (t : Time) :
    ∃ (o : Outline) (rest ps : List Piece), o.Outside ∧
      contextPieces cfg (timeThenNamespace t) = some ps ∧
      ps = (o.appendCalls (scalarCalls cfg (.time t))).pieces ++ .mark .comma :: rest ∧
      ∀ x, .text true x ∉ ps := by
  let o : Outline := (⟨[], 0⟩ : Outline).addKey []
  let o' := o.appendCalls (scalarCalls cfg (.time t))
  have hout : o.Outside := Outline.Outside.addKey (o := ⟨[], 0⟩) rfl []
  have hcalls : scalarCalls cfg (.time t) ≠ [] := effectiveCalls_ne_nil _ _
  have hkey : o'.addKey [] =
      ((o'.write (.mark .comma)).write (.text false (quoted []))).write (.mark .colon) := by
    rw [Outline.addKey, Outline.put, if_pos (o.due_appendCalls hcalls)]
  have hown : (o'.openNamespace []).closeOpenNamespaces.All fun p => ∀ x, p ≠ .text true x := by
    have hmark : ∀ m x, Piece.mark m ≠ .text true x := fun _ _ h => (by cases h)
    have htext : ∀ y x, Piece.text false y ≠ .text true x := fun _ _ h => (by cases h)
    have hnew : o.All fun p => ∀ x, p ≠ .text true x :=
      Outline.All.addKey hmark (fun _ hp => absurd hp List.not_mem_nil) (htext _)
    have htime : o'.All fun p => ∀ x, p ≠ .text true x :=
      hnew.appendCalls hmark fun _ _ => htext _
    exact ((htime.addKey hmark (htext _)).write (htext _)).write (htext _)
  let rest : List Piece := [.text false (quoted []), .mark .colon, .text false [0x7B],
    .text false (List.replicate (o'.openNamespace []).openNamespaces 0x7D)]
  refine ⟨o, rest, (o'.openNamespace []).closeOpenNamespaces.pieces, hout, rfl, ?_,
    fun x hx => hown _ hx x rfl⟩
  show ((o'.addKey []).pieces ++ [.text false [0x7B]]) ++ [.text false _] = _
  rw [hkey]
  simp only [Outline.write, List.append_assoc, List.cons_append, List.nil_append]
  rfl

/-- The console encoder's contexts and the JSON encoder's carry the same data iff every text that
the configuration's time function writes has no space outside string literals and leaves a reader
outside. -/
theorem spaced_same_iff (cfg : EncoderConfig) :
    (∀ fields, SameData cfg fields) ↔ ∀ t, ∀ c ∈ cfg.timeCalls t, Neutral (callText c) := by
  constructor
  · intro hall t c hc
    obtain ⟨o, rest, ps, hout, hpieces, hcalls, hforeign⟩ := contextPieces_time cfg t
    have hclear := (sameData_iff cfg _).mp (hall (timeThenNamespace t)) ps hpieces
      fun x hx => absurd hx (hforeign x)
    rw [hcalls] at hclear
    have hcalls := Outline.neutral_of_clear hout hclear
    rw [scalarCalls, effectiveCalls, if_neg (List.ne_nil_of_mem hc)] at hcalls
    exact hcalls c hc
  · intro htime fields
    rw [sameData_iff]
    intro ps hps hforeign
    obtain ⟨⟨o, err⟩, hrun, rfl⟩ := Option.map_eq_some_iff.mp hps
    have htidy := (Outline.Tidy.run (scalarCalls_forall primText_neutral htime) (addFields fields)
      (fun _ hp => absurd hp List.not_mem_nil) hrun).closeOpenNamespaces
    refine clear_of_neutral fun foreign x hx => ?_
    cases foreign with
    | false => exact htidy _ hx
    | true =>
      obtain ⟨⟨v, hv⟩, hspaces⟩ := hforeign x hx
      exact ⟨hspaces, hv.after⟩

end Contexts

/-- A quote in a layout: the rest of the context is read as a string literal, spaces included. -/
theorem spaced_quote_differs :
    let _ : Host := ⟨Location.utc⟩
    let cfg := { newProductionEncoderConfig with
      encodeTime := some (timeEncoderOfLayout (Time.Layout.ofString (utf8 "\""))) }
    let fields := timeThenNamespace (.ofUnixNano 0 Location.utc)
    let spaced := utf8 "\"\": \"\"\", \"\": \x7b\x7d"
    let compact := utf8 "\"\":\"\"\",\"\":\x7b\x7d"
    (newConsoleEncoder cfg).json.context fields = some spaced ∧
      (newJSONEncoder cfg false).context fields = some compact ∧
      unspace .outside spaced ≠ unspace .outside compact := by
  refine ⟨?_, ?_, ?_⟩ <;> decide

end Zap.Zapcore
