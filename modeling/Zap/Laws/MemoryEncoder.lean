import Zap.Laws.FieldMembers
import Zap.Laws.MemoryTree

/-!
# The JSON encoder and the in-memory encoder agree

`denote` says what a marshaler means, and `run_implements` that the JSON encoder writes it. Here the
same is shown for the in-memory encoder: its trees, rendered as JSON, are assigned the denoted
members, one after another. `run_adds` has the trees, so that only the rendering is left.

What `collapse` makes of the JSON text is then the tree of the encoder's map. There are two cases in
which it is not, both of them left out by `Clean`: an array inside an array that has no elements, whose
slice is nil and not empty, and a reflected value whose text ends in a blank, after which the JSON
encoder leaves out a comma (`encoders_differ`).
-/

set_option autoImplicit false

namespace Zap.Zapcore

open Data

/-! ## Trees as JSON -/

section

variable (cfg : EncoderConfig)

/-- A reflected value as JSON. -/
def reflectedTree (v : Option Reflected) : Json :=
  match reflectedJson cfg v with
  | some (.ok j) => j.collapse
  | _ => .null

mutual

/-- A value as JSON, where `deref` reads maps. Leaves are rendered as the JSON encoder does it:
binary as base64, times and durations by the configured encoders, and what is no UTF-8 replaced. A nil
slice is null, as in `encoding/json`. -/
def Value.json (deref : Nat → Json) : Value → Json
  | .scalar s => callsJson (scalarCalls cfg s)
  | .binary bs => .str (base64 bs)
  | .reflected v => reflectedTree cfg v
  | .slice vs => .arr (Value.jsonAll deref vs)
  | .nilSlice => .null
  | .map ref => deref ref

def Value.jsonAll (deref : Nat → Json) : List Value → List Json
  | [] => []
  | v :: vs => v.json deref :: Value.jsonAll deref vs

end

namespace Maps

/-- A map as JSON, up to a depth. -/
def json (h : Maps) : Nat → Nat → Json
  | 0, _ => .null
  | fuel + 1, ref => .obj ((h.maps ref).map fun kv => (kv.1, kv.2.json cfg (json h fuel)))

/-- The members of a map, up to a depth. -/
def members (h : Maps) (fuel ref : Nat) : List (Bytes × Json) :=
  (h.maps ref).map fun kv => (kv.1, kv.2.json cfg (h.json cfg fuel))

/-- A map as JSON. No path is longer than there are maps. -/
def tree (h : Maps) (ref : Nat) : Json := h.json cfg h.next ref

end Maps

mutual

/-- A tree as JSON. -/
def Tree.json : Tree → Json
  | .scalar s => callsJson (scalarCalls cfg s)
  | .binary bs => .str (base64 bs)
  | .reflected v => reflectedTree cfg v
  | .slice ts => .arr (Tree.jsonAll ts)
  | .nilSlice => .null
  | .map ms => .obj (Tree.jsonMembers ms)

def Tree.jsonAll : List Tree → List Json
  | [] => []
  | t :: ts => t.json :: Tree.jsonAll ts

def Tree.jsonMembers : List (Bytes × Tree) → List (Bytes × Json)
  | [] => []
  | (k, t) :: ms => (k, t.json) :: Tree.jsonMembers ms

end

end

variable {cfg : EncoderConfig}

theorem Tree.jsonMembers_eq (ms : List (Bytes × Tree)) :
    Tree.jsonMembers cfg ms = ms.map fun kt => (kt.1, kt.2.json cfg) := by
  induction ms with
  | nil => rfl
  | cons kt ms ih => rw [Tree.jsonMembers, ih, List.map_cons]

/-- Rendering commutes with assigning. -/
theorem Tree.jsonMembers_assignAll (m ms : List (Bytes × Tree)) :
    Tree.jsonMembers cfg (assignAll m ms) =
      assignAll (Tree.jsonMembers cfg m) (Tree.jsonMembers cfg ms) := by
  induction ms generalizing m with
  | nil => rfl
  | cons kt ms ih =>
    have hassign : Tree.jsonMembers cfg (assign kt.1 kt.2 m) =
        assign kt.1 (kt.2.json cfg) (Tree.jsonMembers cfg m) := by
      rw [Tree.jsonMembers_eq, Tree.jsonMembers_eq, map_assign]
    exact (ih _).trans (by rw [hassign]; rfl)

mutual

theorem Value.json_tree (deref : Nat → Tree) (v : Value) :
    v.json cfg (fun r => (deref r).json cfg) = (v.tree deref).json cfg := by
  cases v with
  | slice vs => exact congrArg Json.arr (Value.jsonAll_trees deref vs)
  | _ => rfl

theorem Value.jsonAll_trees (deref : Nat → Tree) (vs : List Value) :
    Value.jsonAll cfg (fun r => (deref r).json cfg) vs =
      Tree.jsonAll cfg (Value.trees deref vs) := by
  cases vs with
  | nil => rfl
  | cons v vs =>
    simp only [Value.jsonAll, Value.trees, Tree.jsonAll, Value.json_tree deref v,
      Value.jsonAll_trees deref vs]

end

namespace Maps

theorem json_read (h : Maps) (fuel : Nat) : h.json cfg fuel = fun r => (h.read fuel r).json cfg := by
  funext r
  induction fuel generalizing r with
  | zero => rfl
  | succ fuel ih =>
    have hderef : h.json cfg fuel = fun r => (h.read fuel r).json cfg := funext ih
    simp only [json, read, Tree.json, Tree.jsonMembers_eq, List.map_map, hderef, Value.json_tree]
    rfl

theorem members_entries (h : Maps) (fuel cur : Nat) :
    h.members cfg fuel cur = Tree.jsonMembers cfg (h.entries fuel cur) := by
  simp only [members, entries, Tree.jsonMembers_eq, List.map_map, json_read, Value.json_tree]
  rfl

end Maps

/-! ## What a marshaler does with any encoder -/

/-- The error that a marshaler returns, whatever the encoder, if every reflected value can be
encoded. `none` if it panics. -/
def Marshaler.outcome : {i : Interface} → Marshaler i → Option (Option Bytes)
  | _, .done err => some err
  | _, .panic => none
  | _, .add _ _ next => next.outcome
  | _, .addBinary _ _ next => next.outcome
  | _, .addReflected _ _ next => (next none).outcome
  | _, .addArray _ arr next => arr.outcome.bind fun err => (next err).outcome
  | _, .addObject _ obj next => obj.outcome.bind fun err => (next err).outcome
  | _, .openNamespace _ next => next.outcome
  | _, .append _ next => next.outcome
  | _, .appendReflected _ next => (next none).outcome
  | _, .appendArray arr next => arr.outcome.bind fun err => (next err).outcome
  | _, .appendObject obj next => obj.outcome.bind fun err => (next err).outcome

theorem outcome_transcript {i : Interface} (m : Marshaler i) :
    m.outcome = (m.transcript fun _ => none).map Prod.snd := by
  induction m with
  | done e => rfl
  | panic => rfl
  | add key s next ih => simp only [Marshaler.outcome, Marshaler.transcript, ih, Option.map_map]; rfl
  | addBinary key val next ih =>
    simp only [Marshaler.outcome, Marshaler.transcript, ih, Option.map_map]; rfl
  | addReflected key v next ih =>
    simp only [Marshaler.outcome, Marshaler.transcript, ih, Option.map_map]; rfl
  | addArray key arr next iharr ih =>
    simp only [Marshaler.outcome, Marshaler.transcript, iharr, ih, Option.map_bind, Option.bind_map]
    simp only [Function.comp_def, Option.map_map]
    rfl
  | addObject key obj next ihobj ih =>
    simp only [Marshaler.outcome, Marshaler.transcript, ihobj, ih, Option.map_bind, Option.bind_map]
    simp only [Function.comp_def, Option.map_map]
    rfl
  | openNamespace key next ih =>
    simp only [Marshaler.outcome, Marshaler.transcript, ih, Option.map_map]; rfl
  | append s next ih => simp only [Marshaler.outcome, Marshaler.transcript, ih, Option.map_map]; rfl
  | appendReflected v next ih =>
    simp only [Marshaler.outcome, Marshaler.transcript, ih, Option.map_map]; rfl
  | appendArray arr next iharr ih =>
    simp only [Marshaler.outcome, Marshaler.transcript, iharr, ih, Option.map_bind, Option.bind_map]
    simp only [Function.comp_def, Option.map_map]
    rfl
  | appendObject obj next ihobj ih =>
    simp only [Marshaler.outcome, Marshaler.transcript, ihobj, ih, Option.map_bind, Option.bind_map]
    simp only [Function.comp_def, Option.map_map]
    rfl

/-- A reflected value can be encoded, to a text that does not end in a blank. -/
def Encodes (cfg : EncoderConfig) (v : Option Reflected) : Prop :=
  ∃ j, reflectedJson cfg v = some (.ok j)

/-- The marshaler appends at least one element. -/
def Marshaler.Fills (arr : ArrayMarshaler) : Prop :=
  ∀ err, arr.transcript (fun _ => none) ≠ some (.nil, err)

/-- In all the calls that a marshaler makes the keys are UTF-8, the reflected values as required, and
the arrays inside arrays have elements. -/
def Marshaler.Clean (reflects : Option Reflected → Prop) : {i : Interface} → Marshaler i → Prop
  | _, .done _ => True
  | _, .panic => True
  | _, .add key _ next => validUtf8 key = true ∧ next.Clean reflects
  | _, .addBinary key _ next => validUtf8 key = true ∧ next.Clean reflects
  | _, .addReflected key v next => validUtf8 key = true ∧ reflects v ∧ (next none).Clean reflects
  | _, .addArray key arr next => validUtf8 key = true ∧ arr.Clean reflects ∧
    ∀ err, arr.outcome = some err → (next err).Clean reflects
  | _, .addObject key obj next => validUtf8 key = true ∧ obj.Clean reflects ∧
    ∀ err, obj.outcome = some err → (next err).Clean reflects
  | _, .openNamespace key next => validUtf8 key = true ∧ next.Clean reflects
  | _, .append _ next => next.Clean reflects
  | _, .appendReflected v next => reflects v ∧ (next none).Clean reflects
  | _, .appendArray arr next => arr.Fills ∧ arr.Clean reflects ∧
    ∀ err, arr.outcome = some err → (next err).Clean reflects
  | _, .appendObject obj next =>
    obj.Clean reflects ∧ ∀ err, obj.outcome = some err → (next err).Clean reflects

/-- A marshaler that does not panic has a meaning. -/
theorem denote_of_outcome {i : Interface} {m : Marshaler i} (hm : m.Clean (Encodes cfg))
    {err : Option Bytes} (hout : m.outcome = some err) : ∃ is, denote cfg m = some (is, err) := by
  induction m generalizing err with
  | done e => cases hout; exact ⟨[], rfl⟩
  | panic => cases hout
  | add key s next ih =>
    obtain ⟨is, his⟩ := ih hm.2 hout
    exact ⟨_, Option.bind_eq_some_iff.mpr ⟨_, his, rfl⟩⟩
  | addBinary key val next ih =>
    obtain ⟨is, his⟩ := ih hm.2 hout
    exact ⟨_, Option.bind_eq_some_iff.mpr ⟨_, his, rfl⟩⟩
  | addReflected key v next ih =>
    obtain ⟨_, ⟨j, hj⟩, hnext⟩ := hm
    obtain ⟨is, his⟩ := ih none hnext hout
    exact ⟨_, by simp only [denote, hj, his]; rfl⟩
  | addArray key arr next iharr ih =>
    obtain ⟨_, harr, hnext⟩ := hm
    obtain ⟨e, he, hrest⟩ := Option.bind_eq_some_iff.mp hout
    obtain ⟨inner, hinner⟩ := iharr harr he
    obtain ⟨is, his⟩ := ih e (hnext e he) hrest
    exact ⟨_, Option.bind_eq_some_iff.mpr ⟨_, hinner, Option.bind_eq_some_iff.mpr ⟨_, his, rfl⟩⟩⟩
  | addObject key obj next ihobj ih =>
    obtain ⟨_, hobj, hnext⟩ := hm
    obtain ⟨e, he, hrest⟩ := Option.bind_eq_some_iff.mp hout
    obtain ⟨inner, hinner⟩ := ihobj hobj he
    obtain ⟨is, his⟩ := ih e (hnext e he) hrest
    exact ⟨_, Option.bind_eq_some_iff.mpr ⟨_, hinner, Option.bind_eq_some_iff.mpr ⟨_, his, rfl⟩⟩⟩
  | openNamespace key next ih =>
    obtain ⟨is, his⟩ := ih hm.2 hout
    exact ⟨_, Option.bind_eq_some_iff.mpr ⟨_, his, rfl⟩⟩
  | append s next ih =>
    obtain ⟨is, his⟩ := ih hm hout
    exact ⟨_, Option.bind_eq_some_iff.mpr ⟨_, his, rfl⟩⟩
  | appendReflected v next ih =>
    obtain ⟨⟨j, hj⟩, hnext⟩ := hm
    obtain ⟨is, his⟩ := ih none hnext hout
    exact ⟨_, by simp only [denote, hj, his]; rfl⟩
  | appendArray arr next iharr ih =>
    obtain ⟨_, harr, hnext⟩ := hm
    obtain ⟨e, he, hrest⟩ := Option.bind_eq_some_iff.mp hout
    obtain ⟨inner, hinner⟩ := iharr harr he
    obtain ⟨is, his⟩ := ih e (hnext e he) hrest
    exact ⟨_, Option.bind_eq_some_iff.mpr ⟨_, hinner, Option.bind_eq_some_iff.mpr ⟨_, his, rfl⟩⟩⟩
  | appendObject obj next ihobj ih =>
    obtain ⟨hobj, hnext⟩ := hm
    obtain ⟨e, he, hrest⟩ := Option.bind_eq_some_iff.mp hout
    obtain ⟨inner, hinner⟩ := ihobj hobj he
    obtain ⟨is, his⟩ := ih e (hnext e he) hrest
    exact ⟨_, Option.bind_eq_some_iff.mpr ⟨_, hinner, Option.bind_eq_some_iff.mpr ⟨_, his, rfl⟩⟩⟩

theorem reflectError_none {v : Option Reflected} (h : Encodes cfg v) : cfg.reflectError v = none := by
  obtain ⟨j, hj⟩ := h
  cases v with
  | none => rfl
  | some v =>
    simp only [reflectedJson] at hj
    simp only [EncoderConfig.reflectError]
    cases hv : cfg.reflectedEncoder v with
    | error e => simp only [hv] at hj; cases hj
    | ok bs => rfl

/-- If the reflected values can be encoded, the JSON encoder gets the same calls as one that takes
them all. -/
theorem Marshaler.Clean.transcript {i : Interface} {m : Marshaler i} (hm : m.Clean (Encodes cfg)) :
    m.transcript cfg.reflectError = m.transcript fun _ => none := by
  -- What follows a value depends on its outcome.
  have hbind {j k : Interface} {inner : Marshaler j} {next : Option Bytes → Marshaler k}
      (hinner : inner.transcript cfg.reflectError = inner.transcript fun _ => none)
      (hnext : ∀ err, inner.outcome = some err →
        (next err).transcript cfg.reflectError = (next err).transcript fun _ => none)
      (call : Transcript j → Transcript k → Transcript k) :
      ((inner.transcript cfg.reflectError).bind fun r =>
        ((next r.2).transcript cfg.reflectError).map (Prod.map (call r.1) id)) =
      (inner.transcript fun _ => none).bind fun r =>
        ((next r.2).transcript fun _ => none).map (Prod.map (call r.1) id) := by
    rw [hinner]
    cases hr : inner.transcript fun _ => none with
    | none => rfl
    | some r =>
      have hout : inner.outcome = some r.2 := by rw [outcome_transcript, hr]; rfl
      simp only [Option.bind_some, hnext r.2 hout]
  induction m with
  | done e => rfl
  | panic => rfl
  | add key s next ih => exact congrArg _ (ih hm.2)
  | addBinary key val next ih => exact congrArg _ (ih hm.2)
  | addReflected key v next ih =>
    simp only [Marshaler.transcript, reflectError_none hm.2.1, ih none hm.2.2]
  | addArray key arr next iharr ih =>
    exact hbind (iharr hm.2.1) (fun err herr => ih err (hm.2.2 err herr)) (.addArray key)
  | addObject key obj next ihobj ih =>
    exact hbind (ihobj hm.2.1) (fun err herr => ih err (hm.2.2 err herr)) (.addObject key)
  | openNamespace key next ih => exact congrArg _ (ih hm.2)
  | append s next ih => exact congrArg _ (ih hm)
  | appendReflected v next ih =>
    simp only [Marshaler.transcript, reflectError_none hm.1, ih none hm.2]
  | appendArray arr next iharr ih =>
    exact hbind (iharr hm.2.1) (fun err herr => ih err (hm.2.2 err herr)) .appendArray
  | appendObject obj next ihobj ih =>
    exact hbind (ihobj hm.1) (fun err herr => ih err (hm.2 err herr)) .appendObject

/-- The JSON encoder does not return from a marshaler that panics. -/
theorem JsonEncoder.outcome_of_run {i : Interface} {m : Marshaler i} (hm : m.Clean (Encodes cfg))
    {enc enc' : JsonEncoder} {err : Option Bytes} (hcfg : enc.cfg = cfg)
    (hrun : run m enc = some (enc', err)) : m.outcome = some err := by
  rw [outcome_transcript, ← hm.transcript, ← run_outcome m hcfg, hrun]
  rfl

/-- Nor does the in-memory encoder. -/
theorem MemoryEncoder.outcome_of_run {i : Interface} {m : Marshaler i} {enc enc' : MemoryEncoder i}
    {h h' : Maps} {err : Option Bytes} (hrun : MemoryEncoder.run m enc h = some (enc', h', err)) :
    m.outcome = some err := by
  rw [outcome_transcript, ← run_outcome m enc h, hrun]
  rfl

/-! ## The in-memory encoder implements the meaning -/

/-- An encoder has added `is`: to the map that it was writing to, the members that `is` stands for,
or to its elements. Values are read with a depth that is enough for them. -/
def Added (cfg : EncoderConfig) : {i : Interface} → MemoryEncoder i → Maps → MemoryEncoder i → Maps →
    List Json.Item → Prop
  | _, .object fields cur, h, .object fields' _, h', is =>
    fields' = fields ∧ h'.Wf ∧ h.Kept h' cur ∧
      ∀ fuel, h'.next ≤ fuel + cur + 1 →
        h'.members cfg fuel cur =
          assignAll (h.members cfg fuel cur) (Json.collapseMembers (Json.nest is))
  | _, .array elems, h, .array elems', h', is =>
    ∃ new, elems' = elems ++ new ∧ h'.Wf ∧ h.Kept h' h.next ∧
      (∀ r ∈ Value.refsAll new, h.next ≤ r ∧ r < h'.next) ∧
      ∀ fuel, h'.next ≤ fuel + h.next →
        Value.jsonAll cfg (h'.json cfg fuel) new = Json.collapseElems (Json.elements is)

/-! ### Leaves -/

theorem collapse_json (c : AppendCall) : c.json.collapse = c.json := by
  cases c with
  | timeLayout t layout => rfl
  | prim p =>
    cases p with
    | float64 f => simp only [AppendCall.json, Prim.json, floatJson]; split_ifs <;> rfl
    | float32 f => simp only [AppendCall.json, Prim.json, floatJson]; split_ifs <;> rfl
    | _ => rfl

theorem Scalar.tree_json (s : Scalar) :
    s.tree.json cfg = (callsJson (scalarCalls cfg s)).collapse := by
  have hcalls : ∀ calls : List AppendCall, (callsJson calls).collapse = callsJson calls := by
    intro calls
    cases calls with
    | nil => rfl
    | cons c calls => exact collapse_json c
  rw [hcalls]
  cases s with
  | prim p => cases p <;> rfl
  | duration d => rfl
  | time t => rfl

theorem reflected_json {v : Option Reflected} {j : Json} (hj : reflectedJson cfg v = some (.ok j)) :
    (Tree.reflected v).json cfg = j.collapse := by
  simp only [Tree.json, reflectedTree, hj]

/-! ### Rendering -/

/-- Parts are what items stand for. -/
def Renders (cfg : EncoderConfig) : {i : Interface} → List (Part i) → List Json.Item → Prop
  | .object, ps, is => Tree.jsonMembers cfg ps = Json.collapseMembers (Json.nest is)
  | .array, ps, is => Tree.jsonAll cfg ps = Json.collapseElems (Json.elements is)

theorem Renders.member {ps : List (Bytes × Tree)} {is : List Json.Item}
    (h : Renders (i := .object) cfg ps is) {t : Tree} {j : Json} (ht : t.json cfg = j.collapse)
    (key : Bytes) : Renders (i := .object) cfg ((key, t) :: ps) (.member key j :: is) := by
  simp only [Renders, Tree.jsonMembers, ht, Json.nest, Json.collapseMembers] at h ⊢
  rw [h]

theorem Renders.elem {ps : List Tree} {is : List Json.Item} (h : Renders (i := .array) cfg ps is)
    {t : Tree} {j : Json} (ht : t.json cfg = j.collapse) :
    Renders (i := .array) cfg (t :: ps) (.elem j :: is) := by
  simp only [Renders, Tree.jsonAll, ht, Json.elements, Json.collapseElems] at h ⊢
  rw [h]

theorem Renders.slice {ps : List Tree} {is : List Json.Item} (h : Renders (i := .array) cfg ps is) :
    (Tree.slice ps).json cfg = (Json.arr (Json.elements is)).collapse := by
  simp only [Renders] at h
  simp only [Tree.json, Json.collapse, h]

/-- Elements inside an array, if there are any. -/
theorem Renders.ofNil {ps : List Tree} (hps : ps ≠ []) {is : List Json.Item}
    (h : Renders (i := .array) cfg ps is) :
    (Tree.ofNil ps).json cfg = (Json.arr (Json.elements is)).collapse := by
  cases ps with
  | nil => exact absurd rfl hps
  | cons p ps => exact h.slice

theorem Renders.map {ps : List (Bytes × Tree)} {is : List Json.Item}
    (h : Renders (i := .object) cfg ps is) :
    (Tree.map (assignAll [] ps)).json cfg = (Json.obj (Json.nest is)).collapse := by
  simp only [Renders] at h
  simp only [Tree.json, Json.collapse, Tree.jsonMembers_assignAll, h, Tree.jsonMembers]

theorem parts_ne_nil {c : Transcript .array} (h : c ≠ .nil) : c.parts ≠ [] := by
  cases c with
  | nil => exact absurd rfl h
  | _ => exact List.cons_ne_nil _ _

/-- If a marshaler has a meaning, it makes calls whose parts are what it means. -/
def Means (cfg : EncoderConfig) {i : Interface} (m : Marshaler i) : Prop :=
  m.Clean (Encodes cfg) → ∀ {is : List Json.Item} {err : Option Bytes}, denote cfg m = some (is, err) →
    ∃ c, m.transcript (fun _ => none) = some (c, err) ∧ Renders cfg c.parts is

section

variable {i j : Interface} {inner : Marshaler j} {next : Option Bytes → Marshaler i}

/-- A value that is made by a marshaler of its own, and what follows. -/
theorem Means.nested (ihinner : Means cfg inner) (ih : ∀ err, Means cfg (next err))
    (hinner : inner.Clean (Encodes cfg))
    (hnext : ∀ err, inner.outcome = some err → (next err).Clean (Encodes cfg))
    {r r' : List Json.Item × Option Bytes} (hr : denote cfg inner = some r)
    (hr' : denote cfg (next r.2) = some r') :
    ∃ c d, inner.transcript (fun _ => none) = some (c, r.2) ∧ Renders cfg c.parts r.1 ∧
      (next r.2).transcript (fun _ => none) = some (d, r'.2) ∧ Renders cfg d.parts r'.1 := by
  obtain ⟨c, hc, hparts⟩ := ihinner hinner hr
  have hout : inner.outcome = some r.2 := by rw [outcome_transcript, hc]; rfl
  obtain ⟨d, hd, hrest⟩ := ih r.2 (hnext r.2 hout) hr'
  exact ⟨c, d, hc, hparts, hd, hrest⟩

end

section

variable {next : Option Bytes → ObjectMarshaler} (ih : ∀ err, Means cfg (next err))
include ih

/-- An array under a key. -/
theorem Means.addArray {arr : ArrayMarshaler} (iharr : Means cfg arr) (key : Bytes) :
    Means cfg (.addArray key arr next) := by
  rintro ⟨hkey, harr, hnext⟩ is err hden
  obtain ⟨r, hr, hrest⟩ := Option.bind_eq_some_iff.mp hden
  obtain ⟨r', hr', hans⟩ := Option.bind_eq_some_iff.mp hrest
  cases hans
  obtain ⟨c, d, hc, hparts, hd, hrest⟩ := Means.nested iharr ih harr hnext hr hr'
  rw [sanitize_of_valid hkey]
  exact ⟨.addArray key c d,
    Option.bind_eq_some_iff.mpr ⟨_, hc, Option.map_eq_some_iff.mpr ⟨_, hd, rfl⟩⟩,
    hrest.member hparts.slice key⟩

/-- An object under a key. -/
theorem Means.addObject {obj : ObjectMarshaler} (ihobj : Means cfg obj) (key : Bytes) :
    Means cfg (.addObject key obj next) := by
  rintro ⟨hkey, hobj, hnext⟩ is err hden
  obtain ⟨r, hr, hrest⟩ := Option.bind_eq_some_iff.mp hden
  obtain ⟨r', hr', hans⟩ := Option.bind_eq_some_iff.mp hrest
  cases hans
  obtain ⟨c, d, hc, hparts, hd, hrest⟩ := Means.nested ihobj ih hobj hnext hr hr'
  rw [sanitize_of_valid hkey]
  exact ⟨.addObject key c d,
    Option.bind_eq_some_iff.mpr ⟨_, hc, Option.map_eq_some_iff.mpr ⟨_, hd, rfl⟩⟩,
    hrest.member hparts.map key⟩

end

section

variable {next : Option Bytes → ArrayMarshaler} (ih : ∀ err, Means cfg (next err))
include ih

/-- An array inside an array. -/
theorem Means.appendArray {arr : ArrayMarshaler} (iharr : Means cfg arr) :
    Means cfg (.appendArray arr next) := by
  rintro ⟨hfills, harr, hnext⟩ is err hden
  obtain ⟨r, hr, hrest⟩ := Option.bind_eq_some_iff.mp hden
  obtain ⟨r', hr', hans⟩ := Option.bind_eq_some_iff.mp hrest
  cases hans
  obtain ⟨c, d, hc, hparts, hd, hrest⟩ := Means.nested iharr ih harr hnext hr hr'
  have hne : c ≠ .nil := by
    rintro rfl
    exact hfills r.2 hc
  exact ⟨.appendArray c d,
    Option.bind_eq_some_iff.mpr ⟨_, hc, Option.map_eq_some_iff.mpr ⟨_, hd, rfl⟩⟩,
    hrest.elem (hparts.ofNil (parts_ne_nil hne))⟩

/-- An object inside an array. -/
theorem Means.appendObject {obj : ObjectMarshaler} (ihobj : Means cfg obj) :
    Means cfg (.appendObject obj next) := by
  rintro ⟨hobj, hnext⟩ is err hden
  obtain ⟨r, hr, hrest⟩ := Option.bind_eq_some_iff.mp hden
  obtain ⟨r', hr', hans⟩ := Option.bind_eq_some_iff.mp hrest
  cases hans
  obtain ⟨c, d, hc, hparts, hd, hrest⟩ := Means.nested ihobj ih hobj hnext hr hr'
  exact ⟨.appendObject c d,
    Option.bind_eq_some_iff.mpr ⟨_, hc, Option.map_eq_some_iff.mpr ⟨_, hd, rfl⟩⟩,
    hrest.elem hparts.map⟩

end

/-- A namespace takes up what follows it. -/
theorem Means.openNamespace {next : ObjectMarshaler} (ih : Means cfg next) (key : Bytes) :
    Means cfg (.openNamespace key next) := by
  rintro ⟨hkey, hnext⟩ is err hden
  obtain ⟨r, hr, hans⟩ := Option.bind_eq_some_iff.mp hden
  cases hans
  obtain ⟨c, hc, hrenders⟩ := ih hnext hr
  rw [sanitize_of_valid hkey]
  have hinner := hrenders.map
  exact ⟨.openNamespace key c, Option.map_eq_some_iff.mpr ⟨_, hc, rfl⟩,
    congrArg (fun j => [(key, j)]) hinner⟩

/-- A marshaler that has a meaning makes calls whose parts are what it means. -/
theorem denote_renders {i : Interface} (m : Marshaler i) : Means cfg m := by
  induction m with
  | done e =>
    intro _ is err hden
    cases hden
    exact ⟨.nil, rfl, by cases ‹Interface› <;> rfl⟩
  | panic => intro _ is err hden; cases hden
  | add key s next ih =>
    rintro ⟨hkey, hnext⟩ is err hden
    obtain ⟨r, hr, hans⟩ := Option.bind_eq_some_iff.mp hden
    cases hans
    obtain ⟨c, hc, hrenders⟩ := ih hnext hr
    rw [sanitize_of_valid hkey]
    exact ⟨.add key s c, Option.map_eq_some_iff.mpr ⟨_, hc, rfl⟩, hrenders.member s.tree_json key⟩
  | addBinary key val next ih =>
    rintro ⟨hkey, hnext⟩ is err hden
    obtain ⟨r, hr, hans⟩ := Option.bind_eq_some_iff.mp hden
    cases hans
    obtain ⟨c, hc, hrenders⟩ := ih hnext hr
    rw [sanitize_of_valid hkey]
    exact ⟨.addBinary key val c, Option.map_eq_some_iff.mpr ⟨_, hc, rfl⟩, hrenders.member rfl key⟩
  | addReflected key v next ih =>
    rintro ⟨hkey, ⟨j, hj⟩, hnext⟩ is err hden
    simp only [denote, hj] at hden
    obtain ⟨r, hr, hans⟩ := Option.bind_eq_some_iff.mp hden
    cases hans
    obtain ⟨c, hc, hrenders⟩ := ih none hnext hr
    rw [sanitize_of_valid hkey]
    exact ⟨.addReflected key v c, Option.map_eq_some_iff.mpr ⟨_, hc, rfl⟩,
      hrenders.member (reflected_json hj) key⟩
  | addArray key arr next iharr ih => exact Means.addArray ih iharr key
  | addObject key obj next ihobj ih => exact Means.addObject ih ihobj key
  | openNamespace key next ih => exact Means.openNamespace ih key
  | append s next ih =>
    intro hm is err hden
    obtain ⟨r, hr, hans⟩ := Option.bind_eq_some_iff.mp hden
    cases hans
    obtain ⟨c, hc, hrenders⟩ := ih hm hr
    exact ⟨.append s c, Option.map_eq_some_iff.mpr ⟨_, hc, rfl⟩, hrenders.elem s.tree_json⟩
  | appendReflected v next ih =>
    rintro ⟨⟨j, hj⟩, hnext⟩ is err hden
    simp only [denote, hj] at hden
    obtain ⟨r, hr, hans⟩ := Option.bind_eq_some_iff.mp hden
    cases hans
    obtain ⟨c, hc, hrenders⟩ := ih none hnext hr
    exact ⟨.appendReflected v c, Option.map_eq_some_iff.mpr ⟨_, hc, rfl⟩,
      hrenders.elem (reflected_json hj)⟩
  | appendArray arr next iharr ih => exact Means.appendArray ih iharr
  | appendObject obj next ihobj ih => exact Means.appendObject ih ihobj

/-- What was added, rendered. -/
theorem Adds.added {i : Interface} {enc enc' : MemoryEncoder i} {h h' : Maps} {ps : List (Part i)}
    {is : List Json.Item} (hadds : Adds enc h enc' h' ps) (hrenders : Renders cfg ps is) :
    Added cfg enc h enc' h' is := by
  cases enc with
  | object fields cur =>
    cases enc' with
    | object fields' cur' =>
      obtain ⟨hfields, hwf, hkept, hentries⟩ := hadds
      refine ⟨hfields, hwf, hkept, fun fuel hfuel => ?_⟩
      rw [Maps.members_entries, hentries fuel hfuel, Tree.jsonMembers_assignAll,
        ← Maps.members_entries]
      exact congrArg _ hrenders
  | array elems =>
    cases enc' with
    | array elems' =>
      obtain ⟨new, hnew, hwf, hkept, hrefs, htrees⟩ := hadds
      refine ⟨new, hnew, hwf, hkept, hrefs, fun fuel hfuel => ?_⟩
      rw [Maps.json_read, Value.jsonAll_trees, htrees fuel hfuel]
      exact hrenders

/-- The in-memory encoder implements the meaning of a marshaler. -/
def Collects (cfg : EncoderConfig) {i : Interface} (m : Marshaler i) : Prop :=
  ∀ {is : List Json.Item} {err : Option Bytes}, denote cfg m = some (is, err) →
    ∀ {enc : MemoryEncoder i} {h : Maps}, h.Wf → enc.Stands h →
      ∃ enc' h', MemoryEncoder.run m enc h = some (enc', h', err) ∧ Added cfg enc h enc' h' is

/-- The in-memory encoder implements the meaning of every marshaler. -/
theorem run_collects {i : Interface} {m : Marshaler i} (hm : m.Clean (Encodes cfg)) : Collects cfg m := by
  intro is err hden enc h hwf hstands
  obtain ⟨c, hc, hrenders⟩ := denote_renders m hm hden
  obtain ⟨enc', h', hrun, hadds⟩ := run_adds m hc hwf hstands
  exact ⟨enc', h', hrun, hadds.added hrenders⟩

/-- A map that was made and filled, read as JSON. -/
theorem Added.map_json {fields ref : Nat} {enc' : MemoryEncoder .object}
    {h₁ h' : Maps} {is : List Json.Item}
    (hadded : Added cfg (.object fields ref) h₁ enc' h' is) (hempty : h₁.maps ref = [])
    (href : ref < h'.next) {fuel : Nat} (hfuel : h'.next ≤ fuel + ref) :
    (Value.map ref).json cfg (h'.json cfg fuel) = (Json.obj (Json.nest is)).collapse := by
  cases enc' with
  | object fields' cur' =>
    obtain ⟨_, _, _, hmembers⟩ := hadded
    obtain ⟨fuel, rfl⟩ : ∃ n, fuel = n + 1 := ⟨fuel - 1, by omega⟩
    have hread := hmembers fuel (by omega)
    simp only [Maps.members, hempty, List.map_nil] at hread
    simp only [Value.json, Maps.json, hread, Json.collapse]

/-! ## Fields -/

/-- The JSON object of fields that are added to a fresh encoder, or `none` if one of them
panics. -/
def jsonObject [Host] (cfg : EncoderConfig) (spaced : Bool) (fields : List Field) :
    Option Bytes := do
  let enc ← (newJSONEncoder cfg spaced).addFields fields
  some (0x7B :: (enc.closeOpenNamespaces.buf ++ [0x7D]))

/-- The tree of fields that are added to a fresh in-memory encoder, or `none` if one of them
panics. -/
def memoryTree [Host] (cfg : EncoderConfig) (fields : List Field) : Option Json := do
  let (enc, h) := MemoryEncoder.newMapObjectEncoder .empty
  let (enc, h) ← enc.addFields fields h
  some (h.tree cfg enc.fields)

/-- The two encoders agree: what a JSON reader that keeps the last of several members makes of the
JSON text is the tree of the in-memory encoder, and one of them panics if the other does. -/
theorem encoders_agree [Host] (hone : ∀ s, OneValue (scalarCalls cfg s)) (spaced : Bool)
    {fields : List Field} (hfields : (addFields fields).Clean (Encodes cfg)) :
    (jsonObject cfg spaced fields).map (fun text => (Json.parse text).map Json.collapse) =
      (memoryTree cfg fields).map some := by
  have hreflects : Encodes cfg.completed = Encodes cfg := by
    funext v
    cases v <;> rfl
  have hscalar : scalarCalls cfg.completed = scalarCalls cfg := by
    funext s
    cases s <;> rfl
  cases hout : (addFields fields).outcome with
  | none =>
    have hjson : JsonEncoder.run (addFields fields) (newJSONEncoder cfg spaced) = none := by
      refine Option.eq_none_iff_forall_ne_some.mpr fun ⟨enc, err⟩ hrun => ?_
      have hsome := JsonEncoder.outcome_of_run (hreflects ▸ hfields) rfl hrun
      rw [hout] at hsome
      cases hsome
    have hmemory : ∀ (enc : MemoryEncoder .object) (h : Maps),
        MemoryEncoder.run (addFields fields) enc h = none := by
      refine fun enc h => Option.eq_none_iff_forall_ne_some.mpr fun ⟨enc', h', err⟩ hrun => ?_
      have hsome := MemoryEncoder.outcome_of_run hrun
      rw [hout] at hsome
      cases hsome
    simp only [jsonObject, JsonEncoder.addFields, hjson, memoryTree, MemoryEncoder.addFields, hmemory,
      Option.bind_eq_bind, Option.bind_none, Option.map_none]
  | some err =>
    obtain ⟨is, hden⟩ := denote_of_outcome hfields hout
    -- the JSON text
    have hstart : Place cfg.completed spaced 0 (newJSONEncoder cfg spaced) .members [] [] [] 0 :=
      ⟨rfl, rfl, rfl, rfl, rfl, .nil⟩
    obtain ⟨enc, t, n, hjson, hplace⟩ :=
      run_implements (hscalar.symm ▸ hone) _ ((denote_completed cfg _).trans hden) hstart
    have hbuf : enc.closeOpenNamespaces.buf = t ++ List.replicate n 0x7D := by
      simp only [JsonEncoder.closeOpenNamespaces, JsonEncoder.write, hplace.buf, hplace.count,
        Nat.zero_add, List.nil_append]
    have hparse := Json.parse_of_derives hplace.frag.close.obj
    rw [Json.nest_members_nil, ← hbuf, List.nil_append] at hparse
    -- the map
    let made := MemoryEncoder.newMapObjectEncoder .empty
    have hwf : made.2.Wf := Maps.Wf.make fun r hr => absurd hr (Nat.not_lt_zero r)
    have hstands : made.1.Stands made.2 := Nat.zero_lt_one
    obtain ⟨enc', h', hrun, hadded⟩ := run_collects hfields hden hwf hstands
    have hempty : made.2.maps 0 = [] := rfl
    have htree : h'.tree cfg enc'.fields = (Json.obj (Json.nest is)).collapse := by
      cases enc' with
      | object fields' cur' =>
        obtain ⟨rfl, _, hkept, _⟩ := id hadded
        exact hadded.map_json hempty hkept.next (Nat.le_refl _)
    have htext : jsonObject cfg spaced fields =
        some (0x7B :: (enc.closeOpenNamespaces.buf ++ [0x7D])) := by
      simp only [jsonObject, JsonEncoder.addFields, hjson, Option.bind_eq_bind, Option.bind_some]
    have hmemory : memoryTree cfg fields = some (h'.tree cfg enc'.fields) := by
      have hadd : made.1.addFields fields made.2 = some (enc', h') := by
        simp only [MemoryEncoder.addFields, hrun, Option.bind_eq_bind, Option.bind_some]
      exact Option.bind_eq_some_iff.mpr ⟨_, hadd, rfl⟩
    rw [htext, hmemory, htree, Option.map_some, Option.map_some, hparse, Option.map_some]

/-- Two members of the same name, one before a namespace and one after it, and in the namespace an
array that fails after its first element, which is an array, and a member that is given twice. -/
def repeated : List Field :=
  [⟨utf8 "a", .string, 0, utf8 "out", .nil⟩, ⟨utf8 "ns", .namespace, 0, [], .nil⟩,
    ⟨utf8 "a", .string, 0, [0x68, 0xFF], .nil⟩,
    ⟨utf8 "xs", .arrayMarshaler, 0, [],
      .array (.appendArray (.append (.prim (.bool true)) (.done none)) fun _ =>
        .done (some (utf8 "stop")))⟩,
    ⟨utf8 "a", .reflect, 0, [], .nil⟩]

theorem encoders_agree_repeated :
    let _ : Host := ⟨Location.utc⟩
    ∃ text, jsonObject newDevelopmentEncoderConfig false repeated = some text ∧
      (Json.parse text).map Json.collapse = some (.obj [
        (utf8 "a", .str (utf8 "out")),
        (utf8 "ns", .obj [
          (utf8 "a", .null),
          (utf8 "xs", .arr [.arr [.bool true]]),
          (utf8 "xsError", .str (utf8 "stop"))])]) := by
  intro host
  have hclean : (addFields repeated).Clean (Encodes newDevelopmentEncoderConfig) := by
    refine ⟨by decide, by decide, by decide, by decide, ⟨?_, trivial, fun _ _ => trivial⟩, ?_⟩
    · intro err h
      cases h
    · intro err herr
      cases herr
      exact ⟨by decide, by decide, ⟨.null, rfl⟩, trivial⟩
  have hone := fun s => (newDevelopmentEncoderConfig_proper.oneCall s).derives
  have hagree := encoders_agree hone false hclean
  have hmemory : memoryTree newDevelopmentEncoderConfig repeated = some (.obj [
      (utf8 "a", .str (utf8 "out")),
      (utf8 "ns", .obj [
        (utf8 "a", .null),
        (utf8 "xs", .arr [.arr [.bool true]]),
        (utf8 "xsError", .str (utf8 "stop"))])]) := rfl
  rw [hmemory] at hagree
  exact Option.map_eq_some_iff.mp hagree

/-- An array inside an array that has no elements is an empty array in one encoder and nil in the other;
and after a reflected value that ends in a blank there is no JSON to compare with. -/
theorem encoders_differ :
    let _ : Host := ⟨Location.utc⟩
    let empty : Field := ⟨utf8 "xs", .arrayMarshaler, 0, [], .array (.appendArray (.done none) .done)⟩
    let v : Reflected := ⟨0, .error [], nofun⟩
    let blank : List Field := [⟨utf8 "a", .reflect, 0, [], .reflected v⟩, ⟨utf8 "b", .bool, 1, [], .nil⟩]
    (jsonObject newDevelopmentEncoderConfig false [empty]).map Json.parse =
        some (some (.obj [(utf8 "xs", .arr [.arr []])])) ∧
      memoryTree newDevelopmentEncoderConfig [empty] = some (.obj [(utf8 "xs", .arr [.null])]) ∧
      (jsonObject blankConfig false blank).map Json.parse = some none ∧
      (memoryTree blankConfig blank).isSome = true := by
  intro _ empty v blank
  have hempty : jsonObject newDevelopmentEncoderConfig false [empty] =
    some (utf8 "\x7b\"xs\":[[]]\x7d") := rfl
  have hblank : jsonObject blankConfig false blank =
    some (utf8 "\x7b\"a\":1 \"b\":true\x7d") := rfl
  refine ⟨?_, rfl, ?_, rfl⟩
  · rw [hempty]
    rfl
  · rw [hblank]
    rfl

end Zap.Zapcore
