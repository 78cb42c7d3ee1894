import Zap.HttpHandler
import Zap.Laws.LevelText

/-!
# The two ways to set a level over HTTP

A form and a JSON body come down to the same call of `UnmarshalText`, except that the form is
refused when its level is empty, while an empty string in JSON is the info level
(`put_agree_iff`). Whatever the request, a level changes only along with the status 200, and never
for a GET (`serveHTTP_unchanged`).
-/

set_option autoImplicit false

namespace Zap

open Data Zapcore

/-- The writer that a handler is given by a server, if writes succeed. -/
def ResponseWriter.fresh : ResponseWriter := ⟨[], none, [], none⟩

/-- What a handler that has decoded a PUT answers. -/
def putAnswer (lvl : AtomicLevel) : Except Bytes Level → Nat × AtomicLevel
  | .error _ => (400, lvl)
  | .ok l => (200, lvl.setLevel l)

/-- The answer to a PUT depends on the level that is asked for, not on the text of an error. -/
theorem putAnswer_congr {res res' : Except Bytes Level} (h : res.toOption = res'.toOption)
    (lvl : AtomicLevel) : putAnswer lvl res = putAnswer lvl res' := by
  cases res <;> cases res' <;> cases h <;> rfl

section

variable [Casing] [Net]

/-- The status of an answer and the level after it. -/
def AtomicLevel.answer (lvl : AtomicLevel) (r : Request) : Nat × AtomicLevel :=
  let (lvl, w) := lvl.serveHTTP .fresh r
  (w.status.getD 200, lvl)

namespace Request

/-- The content type is that of a form. -/
def IsForm (r : Request) : Prop :=
  Net.parseMediaType r.contentType = .ok (utf8 "application/x-www-form-urlencoded")

/-- A PUT with `s` as the form value `level`. -/
structure PutsForm (r : Request) (s : Bytes) : Prop where
  method : r.method = methodPut
  form : r.IsForm
  value : r.formValue (utf8 "level") = s

/-- A PUT with a JSON object that has `s` as its one member `level`. -/
structure PutsJson (r : Request) (s : Bytes) : Prop where
  method : r.method = methodPut
  other : ¬r.IsForm
  value : Net.decodeValue r.body = .ok (.obj [(utf8 "level", .str s)])

end Request

/-! ## Answers -/

theorem answer_get {r : Request} (h : r.method = methodGet) (lvl : AtomicLevel) :
    lvl.answer r = (200, lvl) := by
  simp only [AtomicLevel.answer, AtomicLevel.serveHTTP, AtomicLevel.serve, if_pos h]
  rfl

theorem answer_put {r : Request} (h : r.method = methodPut) (lvl : AtomicLevel) :
    lvl.answer r = putAnswer lvl (decodePutRequest r.contentType r) := by
  have hget : r.method ≠ methodGet := by rw [h]; decide
  simp only [AtomicLevel.answer, AtomicLevel.serveHTTP, AtomicLevel.serve, if_neg hget, if_pos h]
  cases decodePutRequest r.contentType r <;> rfl

theorem answer_other {r : Request} (hget : r.method ≠ methodGet) (hput : r.method ≠ methodPut)
    (lvl : AtomicLevel) : lvl.answer r = (405, lvl) := by
  simp only [AtomicLevel.answer, AtomicLevel.serveHTTP, AtomicLevel.serve, if_neg hget, if_neg hput]
  rfl

/-! ## The two decoders -/

/-- The level that is read from a text, for a PUT. -/
def textLevel (s : Bytes) : Except Bytes Level :=
  match Level.unmarshalText (some 0) s with
  | (some err, _) => .error (err.text Net.quote)
  | (none, l) => .ok (l.getD 0)

theorem decode_form {r : Request} {s : Bytes} (h : r.PutsForm s) :
    decodePutRequest r.contentType r =
      if s = [] then .error (utf8 "must specify logging level") else textLevel s := by
  have hform : Net.parseMediaType r.contentType = _ := h.form
  rw [decodePutRequest, hform]
  simp only [↓reduceIte, decodePutURL, h.value]
  rfl

theorem decode_json {r : Request} {s : Bytes} (h : r.PutsJson s) :
    decodePutRequest r.contentType r = decodePutJSON r.body := by
  have hother : Net.parseMediaType r.contentType ≠ _ := h.other
  rw [decodePutRequest]
  cases hmedia : Net.parseMediaType r.contentType with
  | error _ => rfl
  | ok mediaType =>
    have hne : mediaType ≠ utf8 "application/x-www-form-urlencoded" := by
      rintro rfl
      exact hother hmedia
    simp only [if_neg hne]

theorem payload_json {r : Request} {s : Bytes} (h : r.PutsJson s) :
    (decodePutJSON r.body).toOption = (textLevel s).toOption := by
  have hkey : (utf8 "level").map asciiLower = utf8 "level" := by decide
  rw [decodePutJSON, decodePayload, h.value]
  simp only [storeMembers, if_pos hkey, Option.getD_none, textLevel]
  rcases Level.unmarshalText_cases 0 s with ⟨l, -, hout⟩ | ⟨-, hout⟩
  · rw [hout]
    rfl
  · rw [hout]
    rfl

theorem answer_form {r : Request} {s : Bytes} (h : r.PutsForm s) (lvl : AtomicLevel) :
    lvl.answer r = if s = [] then (400, lvl) else putAnswer lvl (textLevel s) := by
  rw [answer_put h.method, decode_form h]
  split <;> rfl

theorem answer_json {r : Request} {s : Bytes} (h : r.PutsJson s) (lvl : AtomicLevel) :
    lvl.answer r = putAnswer lvl (textLevel s) := by
  rw [answer_put h.method, decode_json h]
  exact putAnswer_congr (payload_json h) lvl

/-- The empty text is the info level to `UnmarshalText`. -/
theorem textLevel_empty : textLevel [] = .ok Level.info := by
  rw [textLevel, Level.unmarshalText]
  rfl

theorem answer_unchanged (lvl : AtomicLevel) (r : Request)
    (h : (lvl.answer r).1 ≠ 200 ∨ r.method = methodGet) : (lvl.answer r).2 = lvl := by
  by_cases hget : r.method = methodGet
  · rw [answer_get hget]
  by_cases hput : r.method = methodPut
  · rw [answer_put hput] at h ⊢
    cases hdecode : decodePutRequest r.contentType r with
    | error err => rfl
    | ok l =>
      rw [hdecode] at h
      exact absurd rfl (h.resolve_right hget)
  · rw [answer_other hget hput]

/-- The two ways to put a text give the same status and leave the same level iff the text is not
empty. A request that is not answered with 200, and any GET, leaves the level alone. -/
theorem put_agree_iff :
    (∀ (lvl : AtomicLevel) (s : Bytes) (form json : Request), form.PutsForm s → json.PutsJson s →
      (lvl.answer form = lvl.answer json ↔ s ≠ [])) ∧
      ∀ (lvl : AtomicLevel) (r : Request), (lvl.answer r).1 ≠ 200 ∨ r.method = methodGet →
        (lvl.answer r).2 = lvl := by
  refine ⟨fun lvl s form json hform hjson => ?_, answer_unchanged⟩
  rw [answer_form hform, answer_json hjson]
  constructor
  · rintro hsame rfl
    rw [if_pos rfl, textLevel_empty] at hsame
    have hstatus : 400 = 200 := congrArg Prod.fst hsame
    cases hstatus
  · intro hne
    rw [if_neg hne]

end

/-- A server that knows media types without parameters, one pair in a form, and JSON. -/
abbrev Net.small : Net where
  parseMediaType := .ok
  postForm body := [(body.takeWhile (· != 0x3D), (body.dropWhile (· != 0x3D)).drop 1)]
  queryForm _ := []
  decodeValue body := (Json.parse body).elim (.error (utf8 "invalid character")) .ok
  quote := id
  unmarshalTypeError _ := utf8 "json: cannot unmarshal"

/-- A PUT with a form. -/
def formRequest (s : String) : Request :=
  ⟨methodPut, utf8 "application/x-www-form-urlencoded", [], utf8 "level=" ++ utf8 s⟩

/-- A PUT with JSON. -/
def jsonRequest (s : String) : Request :=
  ⟨methodPut, utf8 "application/json", [], utf8 "\x7b\"level\":\"" ++ utf8 s ++ utf8 "\"\x7d"⟩

theorem put_agree_iff_warn :
    let _ := Casing.two
    let _ := Net.small
    let lvl : AtomicLevel := ⟨0⟩
    (formRequest "warn").PutsForm (utf8 "warn") ∧ (jsonRequest "warn").PutsJson (utf8 "warn") ∧
      lvl.answer (formRequest "warn") = lvl.answer (jsonRequest "warn") := by
  let _ := Casing.two
  let _ := Net.small
  have hform : (formRequest "warn").PutsForm (utf8 "warn") := ⟨rfl, rfl, by decide⟩
  have hjson : (jsonRequest "warn").PutsJson (utf8 "warn") :=
    ⟨rfl, fun h => absurd (Except.ok.inj h) (by decide), by rfl⟩
  exact ⟨hform, hjson, (put_agree_iff.1 ⟨0⟩ _ _ _ hform hjson).mpr (by decide)⟩

/-- An empty level is a bad request in a form, and sets the info level in JSON. -/
theorem put_empty_differs :
    let _ := Casing.two
    let _ := Net.small
    let lvl : AtomicLevel := ⟨2⟩
    lvl.answer (formRequest "") = (400, ⟨2⟩) ∧ lvl.answer (jsonRequest "") = (200, ⟨0⟩) := by
  decide

end Zap
