import Zap.Data.Json
import Zap.Zapcore.LevelText

/-!
# The level over HTTP

`AtomicLevel` of `level.go` and its handler in `http_handler.go`. Requests come as the server has
them; how the standard library reads a media type, a form and the first JSON value of a body is the
affair of `Net`. What `encoding/json` then stores into the handler's structure is modelled, since
it is there that `UnmarshalText` is called.

The response writer keeps the first status that is written and what is written after it. A payload
is the JSON value that is encoded.
-/

set_option autoImplicit false

namespace Zap

open Data Zapcore

/-- `AtomicLevel`, with what its `atomic.Int32` holds. -/
structure AtomicLevel where
  l : Int32
  deriving DecidableEq

namespace AtomicLevel

/-- `lvl.Level()`. -/
def level (lvl : AtomicLevel) : Level := lvl.l.toInt8

/-- `lvl.SetLevel(l)`. -/
def setLevel (_ : AtomicLevel) (l : Level) : AtomicLevel := ⟨l.toInt32⟩

end AtomicLevel

/-- `http.Request`: the method, the header `Content-Type`, the raw query and the body. -/
structure Request where
  method : Bytes
  contentType : Bytes
  rawQuery : Bytes
  body : Bytes

/-- The standard library: `mime.ParseMediaType` without the parameters, the values that `ParseForm`
takes from a body and from a query, the first JSON value of a stream, and how `%q` prints a text and
`json.UnmarshalTypeError` a value. -/
class Net where
  parseMediaType : Bytes → Except Bytes Bytes
  postForm : Bytes → List (Bytes × Bytes)
  queryForm : Bytes → List (Bytes × Bytes)
  decodeValue : Bytes → Except Bytes Json
  quote : Bytes → Bytes
  unmarshalTypeError : Json → Bytes

/-- What a handler sends: JSON with a newline, or a text. -/
inductive Output where
  | json (payload : Json)
  | text (t : Bytes)

/-- `http.ResponseWriter`. Each write fails if `failure` is an error. -/
structure ResponseWriter where
  contentType : Bytes
  status : Option Nat
  written : List Output
  failure : Option Bytes

namespace ResponseWriter

/-- `w.WriteHeader(code)`: the first status counts. -/
def writeHeader (w : ResponseWriter) (code : Nat) : ResponseWriter :=
  { w with status := some (w.status.getD code) }

/-- `w.Write`. Without a status, it is `http.StatusOK`. -/
def write (w : ResponseWriter) (out : Output) : Option Bytes × ResponseWriter :=
  let w := w.writeHeader 200
  match w.failure with
  | some err => (some err, w)
  | none => (none, { w with written := w.written ++ [out] })

end ResponseWriter

/-- `http.MethodGet`. -/
def methodGet : Bytes := utf8 "GET"

/-- `http.MethodPut`. -/
def methodPut : Bytes := utf8 "PUT"

variable [Casing] [Net]

namespace Request

/-- `r.FormValue(key)` of a PUT request with a form: the body goes before the query. -/
def formValue (r : Request) (key : Bytes) : Bytes :=
  ((Net.postForm r.body ++ Net.queryForm r.rawQuery).lookup key).getD []

end Request

/-- `json` stores the members of an object one after the other: `level` is what `pld.Level` points
to, and `saved` the first mismatch of types, which does not end the decoding. Names match a field
up to case, and a null resets the pointer. -/
def storeMembers (level : Option Level) (saved : Option Bytes) :
    List (Bytes × Json) → Except Bytes (Option Level)
  | [] => saved.elim (.ok level) .error
  | (key, v) :: members =>
    if key.map asciiLower = utf8 "level" then
      match v with
      | .null => storeMembers none saved members
      | .str text =>
        match Level.unmarshalText (some (level.getD 0)) text with
        | (some err, _) => .error (err.text Net.quote)
        | (none, level) => storeMembers level saved members
      | v => storeMembers (some (level.getD 0)) (some (saved.getD (Net.unmarshalTypeError v))) members
    else storeMembers level saved members

/-- `json.NewDecoder(body).Decode(&pld)`: what `pld.Level` points to afterwards. -/
def decodePayload (body : Bytes) : Except Bytes (Option Level) :=
  match Net.decodeValue body with
  | .error err => .error err
  | .ok .null => .ok none
  | .ok (.obj members) => storeMembers none none members
  | .ok v => .error (Net.unmarshalTypeError v)

/-- `decodePutURL`. -/
def decodePutURL (r : Request) : Except Bytes Level :=
  let lvl := r.formValue (utf8 "level")
  if lvl = [] then .error (utf8 "must specify logging level")
  else
    match Level.unmarshalText (some 0) lvl with
    | (some err, _) => .error (err.text Net.quote)
    | (none, l) => .ok (l.getD 0)

/-- `decodePutJSON`. -/
def decodePutJSON (body : Bytes) : Except Bytes Level :=
  match decodePayload body with
  | .error err => .error (utf8 "malformed request body: " ++ err)
  | .ok none => .error (utf8 "must specify logging level")
  | .ok (some l) => .ok l

/-- `decodePutRequest`. A media type that cannot be parsed is taken for JSON. -/
def decodePutRequest (contentType : Bytes) (r : Request) : Except Bytes Level :=
  match Net.parseMediaType contentType with
  | .ok mediaType =>
    if mediaType = utf8 "application/x-www-form-urlencoded" then decodePutURL r
    else decodePutJSON r.body
  | .error _ => decodePutJSON r.body

/-- The `payload` of an answer. -/
def payload (l : Level) : Json := .obj [(utf8 "level", .str l.string)]

/-- The `errorResponse` of an answer. -/
def errorResponse (err : Bytes) : Json := .obj [(utf8 "error", .str err)]

namespace AtomicLevel

/-- `lvl.serveHTTP(w, r)`. -/
def serve (lvl : AtomicLevel) (w : ResponseWriter) (r : Request) :
    Option Bytes × AtomicLevel × ResponseWriter :=
  let w := { w with contentType := utf8 "application/json" }
  if r.method = methodGet then
    let (err, w) := w.write (.json (payload lvl.level))
    (err, lvl, w)
  else if r.method = methodPut then
    match decodePutRequest r.contentType r with
    | .error err =>
      let w := w.writeHeader 400
      let (err, w) := w.write (.json (errorResponse err))
      (err, lvl, w)
    | .ok requestedLvl =>
      let lvl := lvl.setLevel requestedLvl
      let (err, w) := w.write (.json (payload lvl.level))
      (err, lvl, w)
  else
    let w := w.writeHeader 405
    let (err, w) := w.write (.json (errorResponse (utf8 "Only GET and PUT are supported.")))
    (err, lvl, w)

/-- `lvl.ServeHTTP(w, r)`. -/
def serveHTTP (lvl : AtomicLevel) (w : ResponseWriter) (r : Request) :
    AtomicLevel × ResponseWriter :=
  match lvl.serve w r with
  | (none, lvl, w) => (lvl, w)
  | (some err, lvl, w) =>
    let w := { w with contentType := utf8 "text/plain; charset=utf-8" }
    let w := w.writeHeader 500
    (lvl, (w.write (.text (utf8 "internal error: " ++ err))).2)

end AtomicLevel

end Zap
