import Zap.Laws.Context
import Zap.Laws.Lines

/-!
# What fields mean, and that the JSON encoder writes it

`denote` is the meaning of a marshaler: the items it adds to the object or array it is given,
and the error it returns. It knows nothing of buffers, commas and counters. An array or object
is a value made of its own items whether or not its marshaler failed half-way, and a namespace
takes up everything that follows it in the same object.

`run_implements` says that the encoder implements this meaning, by induction on the program: from a
buffer that is an opening text and a fragment, it reaches one whose fragment has the denoted
items appended. `encodeEntry_denote` puts it together for whole entries.

A reflected value has a meaning only if its encoder writes one JSON value that does not end in a blank.
Behind a blank the encoder leaves out the next comma, so that nothing follows for the texts that do.
-/

set_option autoImplicit false

namespace Zap.Zapcore

open Data

/-! ## Meaning -/

/-- The value a text stands for where a value is due: it is one JSON value, and does not end in
a blank, after which the encoder leaves out the next comma. A text that ends in a blank has no value
here, also if it is JSON. -/
def textJson (t : Bytes) : Option Json := if t.getLast? = some 0x20 then none else Json.parse t

/-- A reflected value: its encoder's error, or the value it wrote; `none` when what it wrote is
not one JSON value, or ends in a blank. -/
def reflectedJson (cfg : EncoderConfig) : Option Reflected → Option (Except Bytes Json)
  | none => some (.ok .null)
  | some v =>
    match cfg.reflectedEncoder v with
    | .error err => some (.error err)
    | .ok bs => (textJson (JsonEncoder.trimNewline bs)).map .ok

/-- The value that calls of an encoding function write, when there is one call. -/
def callsJson : List AppendCall → Json
  | c :: _ => c.json
  | [] => .null

/-- The meaning of a marshaler: the items it adds and the error it returns. It has none if it
panics or reflects on a value that does not encode to JSON, or to a text that ends in a blank. -/
def denote (cfg : EncoderConfig) :
    {i : Interface} → Marshaler i → Option (List Json.Item × Option Bytes)
  | _, .done err => some ([], err)
  | _, .panic => none
  | _, .add key s next => do
    let (is, err) ← denote cfg next
    some (.member (sanitize key) (callsJson (scalarCalls cfg s)) :: is, err)
  | _, .addBinary key val next => do
    let (is, err) ← denote cfg next
    some (.member (sanitize key) (.str (base64 val)) :: is, err)
  | _, .addReflected key val next =>
    match reflectedJson cfg val with
    | none => none
    | some (.error e) => denote cfg (next (some e))
    | some (.ok v) => do
      let (is, err) ← denote cfg (next none)
      some (.member (sanitize key) v :: is, err)
  | _, .addArray key arr next => do
    let (inner, e) ← denote cfg arr
    let (is, err) ← denote cfg (next e)
    some (.member (sanitize key) (.arr (Json.elements inner)) :: is, err)
  | _, .addObject key obj next => do
    let (inner, e) ← denote cfg obj
    let (is, err) ← denote cfg (next e)
    some (.member (sanitize key) (.obj (Json.nest inner)) :: is, err)
  | _, .openNamespace key next => do
    let (is, err) ← denote cfg next
    some (.openObject (sanitize key) :: is, err)
  | _, .append s next => do
    let (is, err) ← denote cfg next
    some (.elem (callsJson (scalarCalls cfg s)) :: is, err)
  | _, .appendReflected val next =>
    match reflectedJson cfg val with
    | none => none
    | some (.error e) => denote cfg (next (some e))
    | some (.ok v) => do
      let (is, err) ← denote cfg (next none)
      some (.elem v :: is, err)
  | _, .appendArray arr next => do
    let (inner, e) ← denote cfg arr
    let (is, err) ← denote cfg (next e)
    some (.elem (.arr (Json.elements inner)) :: is, err)
  | _, .appendObject obj next => do
    let (inner, e) ← denote cfg obj
    let (is, err) ← denote cfg (next e)
    some (.elem (.obj (Json.nest inner)) :: is, err)

/-- A member of the metadata. -/
def memberJson (m : Member) : Bytes × Json := (sanitize m.1, callsJson m.2)

/-! ## Configurations -/

/-- The encoding functions make at most one call, those for times are the package's own, and
there is one for callers if they are to be written. -/
structure EncoderConfig.Proper (cfg : EncoderConfig) : Prop where
  level : ∀ e, cfg.encodeLevel = some e → ∀ l, (e l).length ≤ 1
  time : ∀ e, cfg.encodeTime = some e → e ∈ builtinTimeEncoders
  duration : ∀ e, cfg.encodeDuration = some e → ∀ d, (e d).length ≤ 1
  caller : ∀ e, cfg.encodeCaller = some e → ∀ ec, (e ec).length ≤ 1
  name : ∀ e, cfg.encodeName = some e → ∀ s, (e s).length ≤ 1
  callerKey : cfg.callerKey ≠ [] → cfg.encodeCaller ≠ none

/-- Calls that write one value. -/
def OneCall (calls : List AppendCall) : Prop := ∃ c, calls = [c] ∧ c.plain = true

/-- Calls that write one JSON value. -/
def OneValue (calls : List AppendCall) : Prop :=
  ∃ c, calls = [c] ∧ Json.Derives .value (callText c) (callsJson calls)

theorem OneCall.derives {calls : List AppendCall} (h : OneCall calls) :
    ∃ c, calls = [c] ∧ Json.Derives .value (callText c) (callsJson calls) := by
  obtain ⟨c, rfl, hplain⟩ := h
  exact ⟨c, rfl, callText_derives hplain⟩

/-- A primitive value is one JSON value, whatever the configuration. -/
theorem oneValue_prim (cfg : EncoderConfig) (p : Prim) : OneValue (scalarCalls cfg (.prim p)) :=
  OneCall.derives ⟨_, rfl, rfl⟩

theorem oneCall_prims {ps : List Prim} (h : ps.length ≤ 1) (fallback : Prim) :
    OneCall (effectiveCalls (ps.map .prim) fallback) := by
  match ps, h with
  | [], _ => exact ⟨_, rfl, rfl⟩
  | [p], _ => exact ⟨_, rfl, rfl⟩

theorem EncoderConfig.Proper.oneCall {cfg : EncoderConfig} (h : cfg.Proper) (s : Scalar) :
    OneCall (scalarCalls cfg s) := by
  cases s with
  | prim p => exact ⟨_, rfl, rfl⟩
  | duration d =>
    simp only [scalarCalls, EncoderConfig.durationCalls]
    split
    · next e he => exact oneCall_prims (h.duration e he d) _
    · exact ⟨_, rfl, rfl⟩
  | time t =>
    simp only [scalarCalls, EncoderConfig.timeCalls]
    split
    · next e he =>
      obtain ⟨c, hc, hplain⟩ := builtinTimeEncoders_plain (h.time e he) t
      rw [hc]
      exact ⟨c, rfl, hplain⟩
    · exact ⟨_, rfl, rfl⟩

/-! ## Reflected values -/

/-- A text that stands for a value can be written where a value is due. -/
theorem textJson_slot {t : Bytes} {v : Json} (h : textJson t = some v) : Json.Slot t v := by
  unfold textJson at h
  split at h
  · cases h
  · next hblank =>
    obtain ⟨w₁, t', w₂, rfl, hw₁, ht', hw₂⟩ := Json.parse_sound h
    refine ⟨⟨w₁, t', w₂, rfl, hw₁, ht', hw₂⟩, ?_⟩
    have hne := ht'.slot.ne_nil
    by_cases hnil : w₂ = []
    · subst hnil
      rw [List.append_nil, List.getLast?_append_of_ne_nil _ hne]
      exact ht'.getLast
    · rw [← List.append_assoc, List.getLast?_append_of_ne_nil _ hnil] at hblank ⊢
      refine ⟨_, List.getLast?_eq_getLast_of_ne_nil hnil, ?_⟩
      rw [List.getLast?_eq_getLast_of_ne_nil hnil, Option.some_inj] at hblank
      have hws := hw₂ _ (List.getLast_mem hnil)
      simp only [Json.isWs, Bool.or_eq_true, beq_iff_eq] at hws
      rcases hws with ((hb | hb) | hb) | hb
      · exact absurd hb hblank
      · rw [hb]; rfl
      · rw [hb]; rfl
      · rw [hb]; rfl

/-- `encodeReflected` returns the error of a reflected value, or a text that stands for it. -/
theorem encodeReflected_spec {enc : JsonEncoder} {cfg : EncoderConfig} (hcfg : enc.cfg = cfg)
    (v : Option Reflected) :
    (∀ e, reflectedJson cfg v = some (.error e) → enc.encodeReflected v = .error e) ∧
      ∀ j, reflectedJson cfg v = some (.ok j) →
        ∃ bs, enc.encodeReflected v = .ok bs ∧ Json.Slot bs j := by
  subst hcfg
  cases v with
  | none =>
    refine ⟨fun e h => ?_, fun j h => ?_⟩
    · cases h
    · cases h
      exact ⟨_, rfl, Json.Derives.null.slot⟩
  | some v =>
    simp only [reflectedJson, JsonEncoder.encodeReflected]
    cases enc.cfg.reflectedEncoder v with
    | error err =>
      refine ⟨fun e h => ?_, fun j h => ?_⟩
      · cases h; rfl
      · cases h
    | ok bs =>
      refine ⟨fun e h => ?_, fun j h => ?_⟩
      · obtain ⟨_, _, hans⟩ := Option.map_eq_some_iff.mp h
        cases hans
      · obtain ⟨_, hj, hans⟩ := Option.map_eq_some_iff.mp h
        cases hans
        exact ⟨_, rfl, textJson_slot hj⟩

/-! ## Places in a text -/

/-- The category of the text that a marshaler writes. -/
def Interface.category : Interface → Json.Category
  | .object => .members
  | .array => .elems

/-- The encoder stands behind an opening text `p` and a fragment `t`. `base` namespaces were
open before the fragment began. -/
structure Place (cfg : EncoderConfig) (spaced : Bool) (base : Nat) (enc : JsonEncoder)
    (c : Json.Category) (p t : Bytes) (is : List Json.Item) (n : Nat) : Prop where
  cfg_eq : enc.cfg = cfg
  spaced_eq : enc.spaced = spaced
  count : enc.openNamespaces = base + n
  buf : enc.buf = p ++ t
  opening : Json.separator spaced p = []
  frag : Json.Frag spaced c t is n

namespace Place

variable {cfg : EncoderConfig} {spaced : Bool} {base : Nat} {enc : JsonEncoder}
  {c : Json.Category} {p t : Bytes} {is : List Json.Item} {n : Nat}

theorem separator (h : Place cfg spaced base enc c p t is n) :
    Json.separator enc.spaced enc.buf = Json.separator spaced t := by
  rw [h.spaced_eq, h.buf]
  by_cases ht : t = []
  · rw [ht, List.append_nil, h.opening, Json.separator_nil]
  · exact Json.separator_append spaced p ht

theorem put_buf (h : Place cfg spaced base enc c p t is n) (x : Bytes) :
    (enc.put x).buf = p ++ (t ++ (Json.separator spaced t ++ x)) := by
  rw [enc.put_buf, h.separator, h.buf, List.append_assoc]

/-- An element was written. -/
theorem elem (h : Place cfg spaced base enc .elems p t is n) {x : Bytes} {v : Json}
    (hx : Json.Slot x v) :
    Place cfg spaced base (enc.put x) .elems p (t ++ (Json.separator spaced t ++ x))
      (is ++ [.elem v]) n :=
  ⟨h.cfg_eq, h.spaced_eq, h.count, h.put_buf x, h.opening, .elem h.frag hx⟩

/-- A member was written. -/
theorem member (h : Place cfg spaced base enc .members p t is n) (key : Bytes) {x : Bytes} {v : Json}
    (hx : Json.Slot x v) :
    Place cfg spaced base ((enc.addKey key).put x) .members p
      (t ++ (Json.separator spaced t ++ (Json.keyText spaced (escape key) ++ x)))
      (is ++ [.member (sanitize key) v]) n := by
  obtain ⟨us, hus, hsame⟩ := escape_chars key
  rw [enc.addKey_put, h.spaced_eq, ← hsame]
  exact ⟨h.cfg_eq, h.spaced_eq, h.count, h.put_buf _, h.opening, .member h.frag hus hx⟩

/-- A namespace was opened. -/
theorem openNamespace (h : Place cfg spaced base enc .members p t is n) (key : Bytes) :
    Place cfg spaced base (enc.openNamespace key) .members p
      (t ++ (Json.separator spaced t ++ (Json.keyText spaced (escape key) ++ [0x7B])))
      (is ++ [.openObject (sanitize key)]) (n + 1) := by
  obtain ⟨us, hus, hsame⟩ := escape_chars key
  have hput : enc.openNamespace key =
      { enc.put (Json.keyText spaced (escape key) ++ [0x7B]) with
        openNamespaces := enc.openNamespaces + 1 } := by
    simp only [JsonEncoder.openNamespace, enc.addKey_write, h.spaced_eq, JsonEncoder.put_openNamespaces]
  rw [hput, ← hsame]
  refine ⟨h.cfg_eq, h.spaced_eq, ?_, h.put_buf _, h.opening, .openObject h.frag hus⟩
  rw [h.count, Nat.add_assoc]

end Place

/-- The encoder implements the meaning of a marshaler. -/
def Implements (cfg : EncoderConfig) {i : Interface} (m : Marshaler i) : Prop :=
  ∀ {inner : List Json.Item} {err : Option Bytes}, denote cfg m = some (inner, err) →
    ∀ {spaced : Bool} {base : Nat} {enc : JsonEncoder} {p t : Bytes} {is : List Json.Item}
      {n : Nat}, Place cfg spaced base enc i.category p t is n →
      ∃ enc' t' n', JsonEncoder.run m enc = some (enc', err) ∧
        Place cfg spaced base enc' i.category p t' (is ++ inner) n'

namespace JsonEncoder

/-- The inside of an array begins. -/
theorem place_array {cfg : EncoderConfig} {enc : JsonEncoder} (hcfg : enc.cfg = cfg) :
    Place cfg enc.spaced enc.openNamespaces (enc.put [0x5B]) .elems (enc.put [0x5B]).buf [] [] 0 := by
  refine ⟨hcfg, rfl, rfl, (List.append_nil _).symm, ?_, .nil⟩
  rw [enc.put_buf, ← List.append_assoc]
  exact Json.separator_opened enc.spaced _ [] (b := 0x5B) rfl

/-- The inside of an object begins. -/
theorem place_object {cfg : EncoderConfig} {enc : JsonEncoder} (hcfg : enc.cfg = cfg) :
    Place cfg enc.spaced 0 (put { enc with openNamespaces := 0 } [0x7B]) .members
      (put { enc with openNamespaces := 0 } [0x7B]).buf [] [] 0 := by
  refine ⟨hcfg, rfl, rfl, (List.append_nil _).symm, ?_, .nil⟩
  rw [put_buf, ← List.append_assoc]
  exact Json.separator_opened enc.spaced _ [] (b := 0x7B) rfl

/-- An array whose inside is in place is written as one value. -/
theorem appendArray_place {cfg : EncoderConfig} {enc enc' : JsonEncoder} {arr : ArrayMarshaler}
    {err : Option Bytes} (hcfg : enc.cfg = cfg)
    (hrun : run arr (enc.put [0x5B]) = some (enc', err)) {t : Bytes} {inner : List Json.Item}
    {n : Nat} (hplace : Place cfg enc.spaced enc.openNamespaces enc' .elems (enc.put [0x5B]).buf t
      inner n) :
    ∃ x, enc.appendArray (run arr) = some (enc.put x, err) ∧
      Json.Derives .value x (.arr (Json.elements inner)) := by
  refine ⟨0x5B :: (t ++ [0x5D]), ?_, hplace.frag.arr⟩
  have hclosed : enc'.write [0x5D] = enc.put (0x5B :: (t ++ [0x5D])) := by
    have hn : n = 0 := hplace.frag.elems_closed rfl
    refine JsonEncoder.ext (hplace.cfg_eq.trans hcfg.symm) ?_ hplace.spaced_eq ?_
    · simp only [write, hplace.buf, put, List.append_assoc, List.cons_append, List.nil_append]
    · exact hplace.count.trans (by rw [hn]; rfl)
  simp only [appendArray, addElementSeparator_write, hrun, Option.bind_eq_bind, Option.bind_some,
    hclosed]

/-- An object whose inside is in place is written as one value. -/
theorem appendObject_place {cfg : EncoderConfig} {enc enc' : JsonEncoder} {obj : ObjectMarshaler}
    {err : Option Bytes} (hcfg : enc.cfg = cfg)
    (hrun : run obj (put { enc with openNamespaces := 0 } [0x7B]) = some (enc', err)) {t : Bytes}
    {inner : List Json.Item} {n : Nat}
    (hplace : Place cfg enc.spaced 0 enc' .members (put { enc with openNamespaces := 0 } [0x7B]).buf
      t inner n) :
    ∃ x, enc.appendObject (run obj) = some (enc.put x, err) ∧
      Json.Derives .value x (.obj (Json.nest inner)) := by
  refine ⟨0x7B :: (t ++ 0x7D :: List.replicate n 0x7D), ?_, hplace.frag.obj_close⟩
  have hcount : enc'.openNamespaces = n := hplace.count.trans (Nat.zero_add n)
  have hclosed : { (enc'.write [0x7D]).closeOpenNamespaces with
      openNamespaces := enc.openNamespaces } =
      enc.put (0x7B :: (t ++ 0x7D :: List.replicate n 0x7D)) := by
    refine JsonEncoder.ext (hplace.cfg_eq.trans hcfg.symm) ?_ hplace.spaced_eq rfl
    simp only [closeOpenNamespaces, write, hplace.buf, hcount, put, List.append_assoc,
      List.cons_append, List.nil_append]
  simp only [appendObject, addElementSeparator_write, hrun, Option.bind_eq_bind, Option.bind_some,
    hclosed]

/-- An array is written as the value it means. -/
theorem appendArray_implements {cfg : EncoderConfig} {arr : ArrayMarshaler}
    (harr : Implements cfg arr) {inner : List Json.Item} {err : Option Bytes}
    (hden : denote cfg arr = some (inner, err)) {enc : JsonEncoder} (hcfg : enc.cfg = cfg) :
    ∃ x, enc.appendArray (run arr) = some (enc.put x, err) ∧
      Json.Derives .value x (.arr (Json.elements inner)) := by
  obtain ⟨enc', t, n, hrun, hplace⟩ := harr hden (place_array hcfg)
  exact appendArray_place hcfg hrun hplace

/-- An object is written as the value it means. -/
theorem appendObject_implements {cfg : EncoderConfig} {obj : ObjectMarshaler}
    (hobj : Implements cfg obj) {inner : List Json.Item} {err : Option Bytes}
    (hden : denote cfg obj = some (inner, err)) {enc : JsonEncoder} (hcfg : enc.cfg = cfg) :
    ∃ x, enc.appendObject (run obj) = some (enc.put x, err) ∧
      Json.Derives .value x (.obj (Json.nest inner)) := by
  obtain ⟨enc', t, n, hrun, hplace⟩ := hobj hden (place_object hcfg)
  exact appendObject_place hcfg hrun hplace

end JsonEncoder

/-- Going on after an item was written. -/
theorem Implements.cons {cfg : EncoderConfig} {i : Interface} {next : Marshaler i}
    (ih : Implements cfg next) {item : Json.Item} {inner : List Json.Item} {err : Option Bytes}
    (hden : ((denote cfg next).bind fun r => some (item :: r.1, r.2)) = some (inner, err))
    {spaced : Bool} {base : Nat} {enc : JsonEncoder} {p t : Bytes} {is : List Json.Item} {n : Nat}
    (hplace : Place cfg spaced base enc i.category p t (is ++ [item]) n) :
    ∃ enc' t' n', JsonEncoder.run next enc = some (enc', err) ∧
      Place cfg spaced base enc' i.category p t' (is ++ inner) n' := by
  obtain ⟨⟨rest, e⟩, hnext, hans⟩ := Option.bind_eq_some_iff.mp hden
  cases hans
  obtain ⟨enc', t', n', hrun, hplace'⟩ := ih hnext hplace
  rw [List.append_assoc, List.singleton_append] at hplace'
  exact ⟨enc', t', n', hrun, hplace'⟩

/-- Every scalar that a marshaler may add is as required. -/
def Marshaler.EachScalar (P : Scalar → Prop) : {i : Interface} → Marshaler i → Prop
  | _, .done _ => True
  | _, .panic => True
  | _, .add _ s next => P s ∧ next.EachScalar P
  | _, .addBinary _ _ next => next.EachScalar P
  | _, .addReflected _ _ next => ∀ err, (next err).EachScalar P
  | _, .addArray _ arr next => arr.EachScalar P ∧ ∀ err, (next err).EachScalar P
  | _, .addObject _ obj next => obj.EachScalar P ∧ ∀ err, (next err).EachScalar P
  | _, .openNamespace _ next => next.EachScalar P
  | _, .append s next => P s ∧ next.EachScalar P
  | _, .appendReflected _ next => ∀ err, (next err).EachScalar P
  | _, .appendArray arr next => arr.EachScalar P ∧ ∀ err, (next err).EachScalar P
  | _, .appendObject obj next => obj.EachScalar P ∧ ∀ err, (next err).EachScalar P

theorem Marshaler.eachScalar {P : Scalar → Prop} (hP : ∀ s, P s) {i : Interface}
    (m : Marshaler i) : m.EachScalar P := by
  induction m with
  | done err => trivial
  | panic => trivial
  | add key s next ih => exact ⟨hP s, ih⟩
  | addBinary key val next ih => exact ih
  | addReflected key val next ih => exact ih
  | addArray key arr next iharr ih => exact ⟨iharr, ih⟩
  | addObject key obj next ihobj ih => exact ⟨ihobj, ih⟩
  | openNamespace key next ih => exact ih
  | append s next ih => exact ⟨hP s, ih⟩
  | appendReflected val next ih => exact ih
  | appendArray arr next iharr ih => exact ⟨iharr, ih⟩
  | appendObject obj next ihobj ih => exact ⟨ihobj, ih⟩

open JsonEncoder in
/-- The encoder implements the meaning of a marshaler that adds scalars which are one value. -/
theorem run_implements_each {cfg : EncoderConfig} {i : Interface} {m : Marshaler i}
    (hone : m.EachScalar fun s => OneValue (scalarCalls cfg s)) : Implements cfg m := by
  induction m with
  | done err =>
    intro inner e hden _ _ enc p t is n hplace
    cases hden
    exact ⟨enc, t, n, rfl, by rw [List.append_nil]; exact hplace⟩
  | panic => intro _ _ hden; cases hden
  | add key s next ih =>
    intro inner e hden _ _ enc p t is n hplace
    obtain ⟨⟨c, hc, hval⟩, hnext⟩ := hone
    have hput : (enc.addKey key).appendScalar s = (enc.addKey key).put (callText c) := by
      rw [appendScalar_eq, addKey_cfg, hplace.cfg_eq, hc]
      exact appendCall_eq _ c
    rw [run, hput]
    exact Implements.cons (ih hnext) hden (hplace.member key hval.slot)
  | addBinary key val next ih =>
    intro inner e hden _ _ enc p t is n hplace
    have hval := quoted_derives (base64 val)
    rw [(plain_base64 val).sanitize] at hval
    rw [run, appendString_eq]
    exact Implements.cons (ih hone) hden (hplace.member key hval.slot)
  | addReflected key val next ih =>
    intro inner e hden _ _ enc p t is n hplace
    obtain ⟨herr, hok⟩ := encodeReflected_spec hplace.cfg_eq val
    simp only [denote] at hden
    split at hden
    · cases hden
    · next e' hv =>
      simp only [run, herr e' hv]
      exact ih _ (hone _) hden hplace
    · next j hv =>
      obtain ⟨bs, hbs, hslot⟩ := hok j hv
      simp only [run, hbs, addKey_write, ← addKey_put]
      exact Implements.cons (ih none (hone none)) hden (hplace.member key hslot)
  | addArray key arr next iharr ih =>
    intro inner e hden _ _ enc p t is n hplace
    obtain ⟨⟨elems, e₁⟩, harr, hrest⟩ := Option.bind_eq_some_iff.mp hden
    obtain ⟨x, happend, hval⟩ := appendArray_implements (iharr hone.1) harr
      ((enc.addKey_cfg key).trans hplace.cfg_eq)
    simp only [run, happend]
    exact Implements.cons (ih e₁ (hone.2 e₁)) hrest (hplace.member key hval.slot)
  | addObject key obj next ihobj ih =>
    intro inner e hden _ _ enc p t is n hplace
    obtain ⟨⟨ms, e₁⟩, hobj, hrest⟩ := Option.bind_eq_some_iff.mp hden
    obtain ⟨x, happend, hval⟩ := appendObject_implements (ihobj hone.1) hobj
      ((enc.addKey_cfg key).trans hplace.cfg_eq)
    simp only [run, happend]
    exact Implements.cons (ih e₁ (hone.2 e₁)) hrest (hplace.member key hval.slot)
  | openNamespace key next ih =>
    intro inner e hden _ _ enc p t is n hplace
    exact Implements.cons (ih hone) hden (hplace.openNamespace key)
  | append s next ih =>
    intro inner e hden _ _ enc p t is n hplace
    obtain ⟨⟨c, hc, hval⟩, hnext⟩ := hone
    have hput : enc.appendScalar s = enc.put (callText c) := by
      rw [appendScalar_eq, hplace.cfg_eq, hc]
      exact appendCall_eq _ c
    rw [run, hput]
    exact Implements.cons (ih hnext) hden (hplace.elem hval.slot)
  | appendReflected val next ih =>
    intro inner e hden _ _ enc p t is n hplace
    obtain ⟨herr, hok⟩ := encodeReflected_spec hplace.cfg_eq val
    simp only [denote] at hden
    split at hden
    · cases hden
    · next e' hv =>
      simp only [run, herr e' hv]
      exact ih _ (hone _) hden hplace
    · next j hv =>
      obtain ⟨bs, hbs, hslot⟩ := hok j hv
      simp only [run, hbs, addElementSeparator_write]
      exact Implements.cons (ih none (hone none)) hden (hplace.elem hslot)
  | appendArray arr next iharr ih =>
    intro inner e hden _ _ enc p t is n hplace
    obtain ⟨⟨elems, e₁⟩, harr, hrest⟩ := Option.bind_eq_some_iff.mp hden
    obtain ⟨x, happend, hval⟩ := appendArray_implements (iharr hone.1) harr hplace.cfg_eq
    simp only [run, happend]
    exact Implements.cons (ih e₁ (hone.2 e₁)) hrest (hplace.elem hval.slot)
  | appendObject obj next ihobj ih =>
    intro inner e hden _ _ enc p t is n hplace
    obtain ⟨⟨ms, e₁⟩, hobj, hrest⟩ := Option.bind_eq_some_iff.mp hden
    obtain ⟨x, happend, hval⟩ := appendObject_implements (ihobj hone.1) hobj hplace.cfg_eq
    simp only [run, happend]
    exact Implements.cons (ih e₁ (hone.2 e₁)) hrest (hplace.elem hval.slot)

/-- The encoder implements the meaning of every marshaler, if every scalar is one value. -/
theorem run_implements {cfg : EncoderConfig} (hone : ∀ s, OneValue (scalarCalls cfg s))
    {i : Interface} (m : Marshaler i) : Implements cfg m := run_implements_each (m.eachScalar hone)

/-- The encoder implements the meaning of every marshaler. -/
theorem run_denote {cfg : EncoderConfig} (hproper : cfg.Proper) {i : Interface}
    (m : Marshaler i) : Implements cfg m := run_implements (fun s => (hproper.oneCall s).derives) m

/-! ## Fields -/

/-- The meaning of one program after another. -/
theorem denote_andThen (cfg : EncoderConfig) {i : Interface} (m : Marshaler i)
    (k : Option Bytes → Marshaler i) :
    denote cfg (m.andThen k) = (denote cfg m).bind fun r =>
      (denote cfg (k r.2)).bind fun q => some (r.1 ++ q.1, q.2) := by
  have pure' : ∀ x : Option (List Json.Item × Option Bytes),
      (x.bind fun q => some ([] ++ q.1, q.2)) = x := by
    intro x
    cases x <;> rfl
  induction m with
  | done err => exact (pure' _).symm
  | panic => rfl
  | add key s next ih =>
    simp only [Marshaler.andThen, denote, ih, Option.bind_eq_bind, Option.bind_assoc,
      Option.bind_some, List.cons_append]
  | addBinary key val next ih =>
    simp only [Marshaler.andThen, denote, ih, Option.bind_eq_bind, Option.bind_assoc,
      Option.bind_some, List.cons_append]
  | openNamespace key next ih =>
    simp only [Marshaler.andThen, denote, ih, Option.bind_eq_bind, Option.bind_assoc,
      Option.bind_some, List.cons_append]
  | append s next ih =>
    simp only [Marshaler.andThen, denote, ih, Option.bind_eq_bind, Option.bind_assoc,
      Option.bind_some, List.cons_append]
  | addReflected key val next ih =>
    simp only [Marshaler.andThen, denote]
    split
    · rfl
    · exact ih _ k
    · simp only [ih, Option.bind_eq_bind, Option.bind_assoc, Option.bind_some, List.cons_append]
  | appendReflected val next ih =>
    simp only [Marshaler.andThen, denote]
    split
    · rfl
    · exact ih _ k
    · simp only [ih, Option.bind_eq_bind, Option.bind_assoc, Option.bind_some, List.cons_append]
  | addArray key arr next _ ih =>
    simp only [Marshaler.andThen, denote, ih, Option.bind_eq_bind, Option.bind_assoc,
      Option.bind_some, List.cons_append]
  | addObject key obj next _ ih =>
    simp only [Marshaler.andThen, denote, ih, Option.bind_eq_bind, Option.bind_assoc,
      Option.bind_some, List.cons_append]
  | appendArray arr next _ ih =>
    simp only [Marshaler.andThen, denote, ih, Option.bind_eq_bind, Option.bind_assoc,
      Option.bind_some, List.cons_append]
  | appendObject obj next _ ih =>
    simp only [Marshaler.andThen, denote, ih, Option.bind_eq_bind, Option.bind_assoc,
      Option.bind_some, List.cons_append]

/-- The meaning of a marshaler depends on the configuration by its encoding functions only. -/
theorem denote_congr {cfg cfg' : EncoderConfig} (hscalar : scalarCalls cfg' = scalarCalls cfg)
    (hreflect : reflectedJson cfg' = reflectedJson cfg) {i : Interface} (m : Marshaler i) :
    denote cfg' m = denote cfg m := by
  induction m with
  | done err => rfl
  | panic => rfl
  | add key s next ih => simp only [denote, ih, hscalar]
  | addBinary key val next ih => simp only [denote, ih]
  | addReflected key val next ih => simp only [denote, ih, hreflect]
  | addArray key arr next iharr ih => simp only [denote, ih, iharr]
  | addObject key obj next ihobj ih => simp only [denote, ih, ihobj]
  | openNamespace key next ih => simp only [denote, ih]
  | append s next ih => simp only [denote, ih, hscalar]
  | appendReflected val next ih => simp only [denote, ih, hreflect]
  | appendArray arr next iharr ih => simp only [denote, ih, iharr]
  | appendObject obj next ihobj ih => simp only [denote, ih, ihobj]

/-- The configuration as `newJSONEncoder` completes it. -/
def EncoderConfig.completed (cfg : EncoderConfig) : EncoderConfig := (newJSONEncoder cfg false).cfg

theorem denote_completed (cfg : EncoderConfig) {i : Interface} (m : Marshaler i) :
    denote cfg.completed m = denote cfg m := by
  refine denote_congr ?_ ?_ m
  · funext s
    cases s <;> rfl
  · funext v
    cases v <;> rfl

theorem EncoderConfig.Proper.completed {cfg : EncoderConfig} (h : cfg.Proper) :
    cfg.completed.Proper :=
  ⟨h.level, h.time, h.duration, h.caller, h.name, h.callerKey⟩

/-! ## Entries -/

/-- Members that are written as one value each are written in place. -/
theorem Place.addMembers_values {cfg : EncoderConfig} {spaced : Bool} {base : Nat} {p : Bytes}
    {n : Nat} {ms : List Member} (value : Member → Json)
    (hms : ∀ m ∈ ms, ∃ x, Json.Slot x (value m) ∧ ∀ enc : JsonEncoder, enc.spaced = spaced →
      enc.addMember m = (enc.addKey m.1).put x) :
    ∀ {enc : JsonEncoder} {t : Bytes} {is : List Json.Item},
      Place cfg spaced base enc .members p t is n →
      ∃ t', Place cfg spaced base (enc.addMembers ms) .members p t'
        (is ++ Json.members (ms.map fun m => (sanitize m.1, value m))) n := by
  induction ms with
  | nil =>
    intro enc t is h
    exact ⟨t, (List.append_nil is).symm ▸ h⟩
  | cons m ms ih =>
    intro enc t is h
    obtain ⟨⟨x, hslot, hadd⟩, hrest⟩ := List.forall_mem_cons.mp hms
    have hplace := h.member m.1 hslot
    rw [← hadd enc h.spaced_eq] at hplace
    obtain ⟨t', ht'⟩ := ih hrest hplace
    refine ⟨t', ?_⟩
    rw [List.append_assoc, List.singleton_append] at ht'
    exact ht'

/-- Members whose values are one call each are written in place. -/
theorem Place.addMembers {cfg : EncoderConfig} {spaced : Bool} {base : Nat} {enc : JsonEncoder}
    {p t : Bytes} {is : List Json.Item} {n : Nat} {ms : List Member} (hms : ∀ m ∈ ms, OneCall m.2)
    (h : Place cfg spaced base enc .members p t is n) :
    ∃ t', Place cfg spaced base (enc.addMembers ms) .members p t'
      (is ++ Json.members (ms.map memberJson)) n := by
  refine h.addMembers_values (fun m => callsJson m.2) fun m hm => ?_
  obtain ⟨c, hc, hval⟩ := (hms m hm).derives
  refine ⟨callText c, hval.slot, fun enc _ => ?_⟩
  rw [JsonEncoder.addMember, hc]
  exact JsonEncoder.appendCall_eq _ c

theorem metadata_oneCall {cfg : EncoderConfig} (h : cfg.Proper) {ent : Entry} {ms : List Member}
    (hms : metadata cfg ent = some ms) : ∀ m ∈ ms, OneCall m.2 := by
  refine metadata_forall hms (fun _ e he => oneCall_prims (h.level e he _) _) (h.oneCall _)
    (fun _ => ?_) (fun _ e he => oneCall_prims (h.caller e he _) _) fun s => ⟨_, rfl, rfl⟩
  refine oneCall_prims ?_ _
  unfold EncoderConfig.nameEncoder
  cases hname : cfg.encodeName with
  | none => exact Nat.le_refl 1
  | some e => exact h.name e hname _

/-- Only a nil function for callers can be in the way of the metadata. -/
theorem metadata_isSome {cfg : EncoderConfig} (h : cfg.callerKey ≠ [] → cfg.encodeCaller ≠ none)
    (ent : Entry) : ∃ ms, metadata cfg ent = some ms := by
  have hcaller : ∃ c, callerMember cfg ent = some c := by
    unfold callerMember
    split
    · next hkey =>
      cases he : cfg.encodeCaller with
      | none => exact absurd he (h hkey.2)
      | some e => exact ⟨_, rfl⟩
    · exact ⟨_, rfl⟩
  obtain ⟨c, hc⟩ := hcaller
  unfold metadata
  rw [hc]
  exact ⟨_, rfl⟩

/-- A place behind metadata and a context that was encoded apart. -/
theorem Place.behind {cfg : EncoderConfig} {spaced : Bool} {base : Nat}
    {enc front : JsonEncoder} {p t₁ t₂ : Bytes} {is₁ is₂ : List Json.Item} {n : Nat}
    (hfront : Place cfg spaced base front .members p t₁ is₁ 0)
    (henc : Place cfg spaced base enc .members [] t₂ is₂ n) :
    Place cfg spaced base (enc.behind front.buf) .members p (Json.join spaced t₁ t₂)
      (is₁ ++ is₂) n := by
  refine ⟨henc.cfg_eq, henc.spaced_eq, henc.count, ?_, hfront.opening, ?_⟩
  · simp only [JsonEncoder.behind, henc.spaced_eq, henc.buf, hfront.buf, List.nil_append]
    exact Json.join_opening spaced hfront.opening t₁ t₂
  · have h := hfront.frag.join henc.frag
    rwa [Nat.zero_add] at h

/-- The end of an entry: the object is closed, with the stack trace as its last member. -/
theorem Place.finish {cfg : EncoderConfig} {enc : JsonEncoder} {spaced : Bool} {t : Bytes}
    {is : List Json.Item} {n : Nat} (h : Place cfg spaced 0 enc .members [0x7B] t is n)
    (ent : Entry) :
    ∃ text, enc.finish ent = text ++ cfg.lineEnding ∧
      Json.parse text = some (.obj (Json.nest is ++ (stackMember cfg ent).map memberJson)) := by
  have hcount : enc.openNamespaces = n := h.count.trans (Nat.zero_add n)
  have hclosed : Place cfg spaced 0 enc.closeOpenNamespaces .members [0x7B]
      (t ++ List.replicate n 0x7D) (Json.members (Json.nest is)) 0 := by
    refine ⟨h.cfg_eq, h.spaced_eq, rfl, ?_, h.opening, h.frag.close⟩
    simp only [JsonEncoder.closeOpenNamespaces, JsonEncoder.write, h.buf, hcount, List.append_assoc]
  have hone : ∀ m ∈ stackMember cfg ent, OneCall m.2 :=
    stringMember_forall (fun s => ⟨_, rfl, rfl⟩) _ _ _
  obtain ⟨t', hstack⟩ := hclosed.addMembers hone
  refine ⟨0x7B :: (t' ++ [0x7D]), ?_, ?_⟩
  · simp only [JsonEncoder.finish, JsonEncoder.encodeStack_eq, hclosed.cfg_eq, JsonEncoder.write,
      hstack.buf, hstack.cfg_eq, List.append_assoc, List.cons_append, List.nil_append]
  · have hval := Json.parse_of_derives hstack.frag.obj
    rwa [Json.nest_members, Json.nest_members_nil] at hval

/-- Encoding an entry gives one JSON object and the line ending, whose members are what the
metadata, the context, the fields and the stack trace mean. -/
theorem encodeEntry_denote [Host] {cfg : EncoderConfig} (hproper : cfg.Proper)
    {context fields : List Field} {is is' : List Json.Item} {err err' : Option Bytes} (ent : Entry)
    (hcontext : denote cfg (addFields context) = some (is, err))
    (hfields : denote cfg (addFields fields) = some (is', err')) :
    ∃ enc ms text, (newJSONEncoder cfg false).addFields context = some enc ∧
      enc.encodeEntry ent fields = some (text ++ cfg.effectiveLineEnding) ∧
      metadata cfg ent = some ms ∧
      Json.parse text = some (.obj (ms.map memberJson ++ Json.nest (is ++ is') ++
        (stackMember cfg ent).map memberJson)) := by
  rw [← denote_completed] at hcontext hfields
  -- the context, in a buffer of its own
  have hstart : Place cfg.completed false 0 (newJSONEncoder cfg false) .members [] [] [] 0 :=
    ⟨rfl, rfl, rfl, rfl, rfl, .nil⟩
  obtain ⟨enc, tc, nc, henc, hcontext⟩ := run_denote hproper.completed _ hcontext hstart
  -- the metadata, behind the opening brace
  obtain ⟨ms, hms⟩ := metadata_isSome hproper.completed.callerKey ent
  have hbrace : Place cfg.completed false 0 ⟨cfg.completed, [0x7B], false, 0⟩ .members [0x7B] [] []
      0 := ⟨rfl, rfl, rfl, rfl, rfl, .nil⟩
  obtain ⟨tm, hmeta⟩ := hbrace.addMembers (metadata_oneCall hproper.completed hms)
  -- the fields of the call, behind both
  obtain ⟨full, tf, nf, hfull, hplace⟩ :=
    run_denote hproper.completed _ hfields (hmeta.behind hcontext)
  obtain ⟨text, htext, hparse⟩ := hplace.finish ent
  refine ⟨enc, ms, text, ?_, ?_, hms, ?_⟩
  · simp only [JsonEncoder.addFields, henc, Option.bind_eq_bind, Option.bind_some]
  · have hmetadata : metadata enc.cfg ent = some ms := by rw [hcontext.cfg_eq]; exact hms
    have hfront : JsonEncoder.metadataText enc.cfg enc.spaced ms =
        (JsonEncoder.addMembers ⟨cfg.completed, [0x7B], false, 0⟩ ms).buf := by
      rw [hcontext.cfg_eq, hcontext.spaced_eq, JsonEncoder.metadataText]
    rw [JsonEncoder.encodeEntry_eq, hmetadata, Option.bind_some, hfront]
    simp only [JsonEncoder.addFields, hfull, Option.bind_eq_bind, Option.bind_some,
      Option.map_some, htext]
    rfl
  · rw [hparse, List.nil_append, List.append_assoc, Json.nest_members, List.nil_append]
    rfl

theorem newDevelopmentEncoderConfig_proper : newDevelopmentEncoderConfig.Proper where
  level := fun e h l => by cases h; exact Nat.le_refl 1
  time := fun e h => by cases h; simp [builtinTimeEncoders]
  duration := fun e h d => by cases h; exact Nat.le_refl 1
  caller := fun e h ec => by cases h; exact Nat.le_refl 1
  name := fun e h => by cases h
  callerKey := fun _ h => by cases h

end Zap.Zapcore
