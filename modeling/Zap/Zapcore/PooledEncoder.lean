import Zap.Data.Pool
import Zap.Data.Slice
import Zap.Data.Threads
import Zap.Zapcore.ConsoleEncoder

/-!
# Encoders and buffers out of pools

`zapcore/json_encoder.go`, `zapcore/console_encoder.go` and `buffer/pool.go` as they share objects.
An encoder is an object that refers to its buffers, and encoders, buffers and the slices of the
console encoder come out of pools and go back to them. The calls of a program run as threads, and a
thread is interrupted before each operation on a pool and before each write to the output. Between
two of these it changes objects that it has for itself, by the methods of `JsonEncoder`.
-/

set_option autoImplicit false

namespace Zap.Zapcore.Pooled

open Data

/-! ## Objects -/

/-- A `jsonEncoder`, a nil pointer being `none`. -/
structure EncoderObject where
  config : Option EncoderConfig
  buf : Option Nat
  spaced : Bool
  openNamespaces : Nat
  reflectBuf : Option Nat
  /-- What `NewReflectedEncoder` returned, and the buffer that it was given to write to. -/
  reflectEnc : Option (ReflectedEncoder × Nat)
  /-- History: `buf` has been freed, with the encoder about to be given back. -/
  freed : Bool

/-- `&jsonEncoder{}`. -/
def EncoderObject.zero : EncoderObject := ⟨none, none, false, 0, none, none, false⟩

/-- The objects of a program, and what it wrote. Calls are known by their numbers. -/
structure Objects where
  buffers : Pool Bytes
  /-- `_jsonPool` -/
  encoders : Pool EncoderObject
  /-- `_sliceEncoderPool` -/
  slices : Pool (Slice AppendCall)
  /-- What the calls passed to `out.Write`. -/
  out : List (Nat × Bytes)
  /-- History: the line that `EncodeEntry` returned to a call and that it has not freed. -/
  line : Nat → Option Nat

/-! ## Operations -/

inductive Op where
  -- operations on pools
  | getBuffer
  | freeBuffer (b : Nat)
  | getEncoder
  | putEncoder (e : Nat)
  | getSlice
  | putSlice (a : Nat)
  -- the output
  | write (call b : Nat)
  -- objects of one's own, and reading those of others
  | newEncoder (obj : EncoderObject)
  | load (b : Nat)
  | store (b : Nat) (bs : Bytes)
  | scribble (b : Nat)
  | loadEncoder (e : Nat)
  | storeEncoder (e : Nat) (obj : EncoderObject)
  | loadSlice (a : Nat)
  | storeSlice (a : Nat) (s : Slice AppendCall)
  -- history
  | returnLine (call b : Nat)

/-- What an operation leaves open: the object that a pool gives, and what a reflected encoder has
written when it fails. -/
structure Choice where
  pick : Nat
  junk : Bytes

namespace Op

/-- What an operation answers. -/
def Res : Op → Type
  | .getBuffer => Nat
  | .freeBuffer _ => Unit
  | .getEncoder => Nat
  | .putEncoder _ => Unit
  | .getSlice => Nat
  | .putSlice _ => Unit
  | .write _ _ => Unit
  | .newEncoder _ => Nat
  | .load _ => Bytes
  | .store _ _ => Unit
  | .scribble _ => Unit
  | .loadEncoder _ => EncoderObject
  | .storeEncoder _ _ => Unit
  | .loadSlice _ => Slice AppendCall
  | .storeSlice _ _ => Unit
  | .returnLine _ _ => Unit

/-- Whether a thread is not interrupted before an operation. -/
def silent : Op → Bool
  | .getBuffer | .freeBuffer _ | .getEncoder | .putEncoder _ | .getSlice | .putSlice _
  | .write _ _ => false
  | _ => true

def exec (c : Choice) : (o : Op) → Objects → o.Res × Objects
  | .getBuffer, s =>
    -- `Pool.Get` resets the buffer that it found
    let (b, buffers) := s.buffers.get c.pick []
    (b, { s with buffers := buffers.set b [] })
  | .freeBuffer b, s =>
    ((), { s with
      buffers := s.buffers.put b
      line := fun call => if s.line call = some b then none else s.line call })
  | .getEncoder, s =>
    let (e, encoders) := s.encoders.get c.pick .zero
    (e, { s with encoders := encoders })
  | .putEncoder e, s => ((), { s with encoders := s.encoders.put e })
  | .getSlice, s =>
    let (a, slices) := s.slices.get c.pick (.ofList [])
    (a, { s with slices := slices })
  | .putSlice a, s => ((), { s with slices := s.slices.put a })
  | .write call b, s => ((), { s with out := s.out ++ [(call, s.buffers.object b)] })
  | .newEncoder obj, s =>
    let (e, encoders) := s.encoders.alloc obj
    (e, { s with encoders := encoders })
  | .load b, s => (s.buffers.object b, s)
  | .store b bs, s => ((), { s with buffers := s.buffers.set b bs })
  | .scribble b, s => ((), { s with buffers := s.buffers.set b c.junk })
  | .loadEncoder e, s => (s.encoders.object e, s)
  | .storeEncoder e obj, s => ((), { s with encoders := s.encoders.set e obj })
  | .loadSlice a, s => (s.slices.object a, s)
  | .storeSlice a v, s => ((), { s with slices := s.slices.set a v })
  | .returnLine call b, s => ((), { s with line := Function.update s.line call (some b) })

end Op

/-- The machine on which the calls run. -/
def machine : Machine Objects Choice Op Op.Res where
  exec := Op.exec
  silent := Op.silent

abbrev Code (α : Type) := Prog Op Op.Res α

def getBuffer : Code Nat := .op .getBuffer .ret

/-- `Buffer.Free`. -/
def freeBuffer (b : Nat) : Code Unit := .op (.freeBuffer b) .ret

def getEncoder : Code Nat := .op .getEncoder .ret

def putEncoder (e : Nat) : Code Unit := .op (.putEncoder e) .ret

/-- `getSliceEncoder`. -/
def getSliceEncoder : Code Nat := .op .getSlice .ret

def putSlice (a : Nat) : Code Unit := .op (.putSlice a) .ret

def newEncoder (obj : EncoderObject) : Code Nat := .op (.newEncoder obj) .ret

def load (b : Nat) : Code Bytes := .op (.load b) .ret

def store (b : Nat) (bs : Bytes) : Code Unit := .op (.store b bs) .ret

def scribble (b : Nat) : Code Unit := .op (.scribble b) .ret

def loadEncoder (e : Nat) : Code EncoderObject := .op (.loadEncoder e) .ret

def storeEncoder (e : Nat) (obj : EncoderObject) : Code Unit := .op (.storeEncoder e obj) .ret

def loadSlice (a : Nat) : Code (Slice AppendCall) := .op (.loadSlice a) .ret

def storeSlice (a : Nat) (s : Slice AppendCall) : Code Unit := .op (.storeSlice a s) .ret

def output (call b : Nat) : Code Unit := .op (.write call b) .ret

def returnLine (call b : Nat) : Code Unit := .op (.returnLine call b) .ret

/-- Follow a pointer, which panics if it is nil. -/
def deref {α : Type} : Option α → Code α
  | some a => .ret a
  | none => .panic

/-- Change the contents of a buffer. -/
def amend (b : Nat) (f : Bytes → Bytes) : Code Unit := do
  let bs ← load b
  store b (f bs)

/-! ## The JSON encoder -/

/-- The buffer of an encoder. -/
def bufOf (e : Nat) : Code Nat := do
  let enc ← loadEncoder e
  deref enc.buf

/-- The configuration of an encoder. -/
def configOf (e : Nat) : Code EncoderConfig := do
  let enc ← loadEncoder e
  deref enc.config

/-- `enc.buf.Bytes()`. -/
def bytes (e : Nat) : Code Bytes := do
  let b ← bufOf e
  load b

/-- A method of `JsonEncoder` on the object of an encoder; `none` is a panic. The methods append to
the buffer and count namespaces. -/
def method (e : Nat) (f : JsonEncoder → Option JsonEncoder) : Code Unit := do
  let enc ← loadEncoder e
  let cfg ← deref enc.config
  let b ← deref enc.buf
  let bs ← load b
  let enc' ← deref (f ⟨cfg, bs, enc.spaced, enc.openNamespaces⟩)
  store b enc'.buf
  storeEncoder e { enc with openNamespaces := enc'.openNamespaces }

/-- A method that does not panic. -/
def edit (e : Nat) (f : JsonEncoder → JsonEncoder) : Code Unit := method e (some ∘ f)

/-- `if buf != nil { buf.Free() }`. -/
def freeIfAny : Option Nat → Code Unit
  | some b => freeBuffer b
  | none => return ()

/-- `putJSONEncoder`. -/
def putJSONEncoder (e : Nat) : Code Unit := do
  let enc ← loadEncoder e
  freeIfAny enc.reflectBuf
  storeEncoder e { enc with
    config := none
    buf := none
    spaced := false
    openNamespaces := 0
    reflectBuf := none
    reflectEnc := none
    freed := false }
  putEncoder e

/-- `newJSONEncoder`. -/
def newJSONEncoder (cfg : EncoderConfig) (spaced : Bool) : Code Nat := do
  let buf ← getBuffer
  newEncoder {
    config := some (Zapcore.newJSONEncoder cfg spaced).cfg
    buf := some buf
    spaced := spaced
    openNamespaces := 0
    reflectBuf := none
    reflectEnc := none
    freed := false }

/-- `resetReflectBuf`. -/
def resetReflectBuf (e : Nat) : Code Unit := do
  let enc ← loadEncoder e
  match enc.reflectBuf with
  | none =>
    let b ← getBuffer
    let cfg ← deref enc.config
    storeEncoder e { enc with reflectBuf := some b, reflectEnc := some (cfg.reflectedEncoder, b) }
  | some b => store b []

/-- `Encode` of a reflected encoder: its error. Of one that fails nobody knows what it has
written. -/
def encode (enc : ReflectedEncoder × Nat) (obj : Reflected) : Code (Option Bytes) :=
  match enc.1 obj with
  | .error err => do
    scribble enc.2
    return some err
  | .ok text => do
    amend enc.2 (· ++ text)
    return none

/-- `encodeReflected`. -/
def encodeReflected (e : Nat) : Option Reflected → Code (Except Bytes Bytes)
  | none => return .ok (utf8 "null")
  | some obj => do
    resetReflectBuf e
    let enc ← loadEncoder e
    let reflectEnc ← deref enc.reflectEnc
    match ← encode reflectEnc obj with
    | some err => return .error err
    | none =>
      let b ← deref enc.reflectBuf
      amend b JsonEncoder.trimNewline
      return .ok (← load b)

/-- `AddReflected` and `AppendReflected`; `f` is what precedes the value. -/
def writeReflected (e : Nat) (val : Option Reflected) (f : JsonEncoder → JsonEncoder) :
    Code (Option Bytes) := do
  match ← encodeReflected e val with
  | .error err => return some err
  | .ok valueBytes =>
    edit e fun enc => (f enc).write valueBytes
    return none

/-- `AppendArray`; `marshal` is `arr.MarshalLogArray`. -/
def appendArray (e : Nat) (marshal : Code (Option Bytes)) : Code (Option Bytes) := do
  edit e fun enc => enc.addElementSeparator.write [0x5B]
  let err ← marshal
  edit e fun enc => enc.write [0x5D]
  return err

/-- `AppendObject`; `marshal` is `obj.MarshalLogObject`. -/
def appendObject (e : Nat) (marshal : Code (Option Bytes)) : Code (Option Bytes) := do
  let old := (← loadEncoder e).openNamespaces
  edit e fun enc => { enc with openNamespaces := 0 }.addElementSeparator.write [0x7B]
  let err ← marshal
  edit e fun enc => { (enc.write [0x7D]).closeOpenNamespaces with openNamespaces := old }
  return err

/-- Run a marshaler on the encoder. -/
def run : {i : Interface} → Marshaler i → Nat → Code (Option Bytes)
  | _, .done err, _ => return err
  | _, .panic, _ => .panic
  | _, .add key s next, e => do
    edit e fun enc => (enc.addKey key).appendScalar s
    run next e
  | _, .addBinary key val next, e => do
    edit e fun enc => (enc.addKey key).appendString (base64 val)
    run next e
  | _, .addReflected key val next, e => do
    let err ← writeReflected e val fun enc => enc.addKey key
    run (next err) e
  | _, .addArray key arr next, e => do
    edit e fun enc => enc.addKey key
    let err ← appendArray e (run arr e)
    run (next err) e
  | _, .addObject key obj next, e => do
    edit e fun enc => enc.addKey key
    let err ← appendObject e (run obj e)
    run (next err) e
  | _, .openNamespace key next, e => do
    edit e fun enc => enc.openNamespace key
    run next e
  | _, .append s next, e => do
    edit e fun enc => enc.appendScalar s
    run next e
  | _, .appendReflected val next, e => do
    let err ← writeReflected e val fun enc => enc.addElementSeparator
    run (next err) e
  | _, .appendArray arr next, e => do
    let err ← appendArray e (run arr e)
    run (next err) e
  | _, .appendObject obj next, e => do
    let err ← appendObject e (run obj e)
    run (next err) e

/-- `addFields(enc, fields)`. -/
def addFields [Host] (e : Nat) (fields : List Field) : Code Unit := do
  let _ ← run (Zapcore.addFields fields) e

/-- `clone`. -/
def clone (e : Nat) : Code Nat := do
  let clone ← getEncoder
  let enc ← loadEncoder e
  let obj ← loadEncoder clone
  storeEncoder clone { obj with
    config := enc.config, spaced := enc.spaced, openNamespaces := enc.openNamespaces }
  let buf ← getBuffer
  let obj ← loadEncoder clone
  storeEncoder clone { obj with buf := some buf }
  return clone

/-- `Clone`. -/
def cloneContext (e : Nat) : Code Nat := do
  let clone ← clone e
  let context ← bytes e
  let buf ← bufOf clone
  amend buf (· ++ context)
  return clone

/-- The opening brace of an entry and its metadata. -/
def encodeMetadata (ent : Entry) (final : JsonEncoder) : Option JsonEncoder := do
  let final := (((final.write [0x7B]).encodeLevel ent).encodeTime ent).encodeName ent
  let final ← final.encodeCaller ent
  some ((final.encodeFunction ent).encodeMessage ent)

/-- The end of an entry. -/
def encodeEnd (ent : Entry) (final : JsonEncoder) : JsonEncoder :=
  let final := final.closeOpenNamespaces.encodeStack ent
  final.write ([0x7D] ++ final.cfg.lineEnding)

/-- `EncodeEntry` of the JSON encoder: the buffer that it returns. -/
def encodeEntry [Host] (e : Nat) (ent : Entry) (fields : List Field) : Code Nat := do
  let final ← clone e
  method final (encodeMetadata ent)
  let context ← bytes e
  edit final fun enc => enc.spliceContext context
  addFields final fields
  edit final (encodeEnd ent)
  let ret ← bufOf final
  putJSONEncoder final
  return ret

/-! ## The console encoder -/

/-- A console encoder, for the methods that read its configuration only. -/
def console (cfg : EncoderConfig) : ConsoleEncoder := ⟨⟨cfg, [], true, 0⟩⟩

/-- `NewConsoleEncoder`. -/
def newConsoleEncoder (cfg : EncoderConfig) : Code Nat :=
  let separator := if cfg.consoleSeparator = [] then [0x09] else cfg.consoleSeparator
  newJSONEncoder { cfg with consoleSeparator := separator } true

/-- `putSliceEncoder`. -/
def putSliceEncoder (a : Nat) : Code Unit := do
  let elems ← loadSlice a
  storeSlice a elems.truncate
  putSlice a

/-- The metadata of an entry, collected in a slice and printed to the line. -/
def printMetadata (e line : Nat) (ent : Entry) : Code Unit := do
  let arr ← getSliceEncoder
  let cfg ← configOf e
  let elems ← loadSlice arr
  storeSlice arr (((console cfg).metadata ent).foldl Slice.push elems)
  let elems ← loadSlice arr
  amend line (· ++ cfg.consoleSeparator.intercalate (elems.toList.map fprint))
  putSliceEncoder arr

/-- The message of an entry behind the metadata. -/
def appendMessage (cfg : EncoderConfig) (ent : Entry) (line : Bytes) : Bytes :=
  if cfg.messageKey ≠ [] then (console cfg).addSeparatorIfNecessary line ++ ent.message else line

/-- What `writeContext` writes behind the line: the context in braces, if there is any. -/
def appendContext (cfg : EncoderConfig) (context line : Bytes) : Bytes :=
  if context = [] then line
  else (console cfg).addSeparatorIfNecessary line ++ 0x7B :: (context ++ [0x7D])

/-- The stack trace of an entry and the line ending. -/
def appendEnd (cfg : EncoderConfig) (ent : Entry) (line : Bytes) : Bytes :=
  (if ent.stack ≠ [] ∧ cfg.stacktraceKey ≠ [] then line ++ 0x0A :: ent.stack else line) ++
    cfg.lineEnding

/-- What `writeContext` does with its context. -/
def useContext [Host] (e context line : Nat) (extra : List Field) : Code Unit := do
  addFields context extra
  edit context fun enc => enc.closeOpenNamespaces
  let text ← bytes context
  let cfg ← configOf e
  amend line (appendContext cfg text)

/-- The deferred function of `writeContext`: the buffer of the context is freed, then the context
is given back. -/
def giveBack (context : Nat) : Code Unit := do
  let enc ← loadEncoder context
  let b ← deref enc.buf
  freeBuffer b
  storeEncoder context { enc with freed := true }
  putJSONEncoder context

/-- `writeContext`. -/
def writeContext [Host] (e line : Nat) (extra : List Field) : Code Unit := do
  let context ← cloneContext e
  (useContext e context line extra).defer (giveBack context)

/-- `EncodeEntry` of the console encoder: the buffer that it returns. -/
def encodeConsoleEntry [Host] (e : Nat) (ent : Entry) (fields : List Field) : Code Nat := do
  let line ← getBuffer
  printMetadata e line ent
  let cfg ← configOf e
  amend line (appendMessage cfg ent)
  writeContext e line fields
  amend line (appendEnd cfg ent)
  return line

/-! ## Calls -/

/-- An `Encoder`: one of the two, and its object. -/
structure Handle where
  console : Bool
  ref : Nat

/-- `EncodeEntry`. -/
def Handle.encodeEntry [Host] (h : Handle) (ent : Entry) (fields : List Field) : Code Nat :=
  if h.console then encodeConsoleEntry h.ref ent fields else Pooled.encodeEntry h.ref ent fields

/-- A call. The encoder of a core is the one that an earlier call returned. -/
inductive Call where
  /-- `NewJSONEncoder` and `NewConsoleEncoder` -/
  | newEncoder (console : Bool) (cfg : EncoderConfig)
  /-- `ioCore.With` -/
  | withFields (parent : Nat) (fields : List Field)
  /-- `ioCore.Write` -/
  | write (parent : Nat) (ent : Entry) (fields : List Field)

/-- `NewJSONEncoder` and `NewConsoleEncoder`. -/
def newHandle (console : Bool) (cfg : EncoderConfig) : Code Handle := do
  let e ← if console then newConsoleEncoder cfg else newJSONEncoder cfg false
  return ⟨console, e⟩

/-- `ioCore.With`: the encoder of the new core. -/
def withFields [Host] (h : Handle) (fields : List Field) : Code Handle := do
  let e ← cloneContext h.ref
  addFields e fields
  return ⟨h.console, e⟩

/-- `ioCore.Write`. What comes after `buf.Free()` has to do with the output only. -/
def write [Host] (call : Nat) (h : Handle) (ent : Entry) (fields : List Field) : Code Unit := do
  let buf ← h.encodeEntry ent fields
  returnLine call buf
  output call buf
  freeBuffer buf

/-- A program of calls under way: the threads and the calls they run, by their numbers. A thread
returns the encoder that it made, if it made one. -/
structure System where
  run : Threads Objects Op Op.Res (Option Handle)
  calls : List Call

namespace System

/-- No call has been made. -/
def start : System where
  run := {
    shared := {
      buffers := ⟨0, fun _ => [], []⟩
      encoders := ⟨0, fun _ => .zero, []⟩
      slices := ⟨0, fun _ => .ofList [], []⟩
      out := []
      line := fun _ => none }
    threads := [] }
  calls := []

/-- The encoder that a call has returned. -/
def handle (st : System) (call : Nat) : Option Handle :=
  (st.run.threads[call]?.bind Prog.result?).join

/-- The code of a call, if the encoder that it is about exists. -/
def code [Host] (st : System) : Call → Option (Code (Option Handle))
  | .newEncoder console cfg => some do
    let h ← newHandle console cfg
    return some h
  | .withFields parent fields => (st.handle parent).map fun h => do
    let h ← withFields h fields
    return some h
  | .write parent ent fields => (st.handle parent).map fun h => do
    write st.calls.length h ent fields
    return none

end System

/-- What happens next: a call is made, or one that was made goes on. -/
inductive Event where
  | call (c : Choice) (call : Call)
  | step (c : Choice) (call : Nat)

namespace System

def step [Host] (st : System) : Event → Option System
  | .call c call => (st.code call).map fun p => ⟨machine.spawn c p st.run, st.calls ++ [call]⟩
  | .step c call => (machine.step c call st.run).map fun run => { st with run := run }

/-- A run of the program, if each of its events can happen. -/
def runFrom [Host] (st : System) : List Event → Option System
  | [] => some st
  | ev :: evs => (st.step ev).bind fun st' => st'.runFrom evs

end System

/-! ## What the calls are for -/

/-- An encoder as a value. -/
structure EncoderValue where
  console : Bool
  json : JsonEncoder

namespace EncoderValue

def new (console : Bool) (cfg : EncoderConfig) : EncoderValue where
  console := console
  json := if console then (Zapcore.newConsoleEncoder cfg).json else Zapcore.newJSONEncoder cfg false

def addFields [Host] (v : EncoderValue) (fields : List Field) : Option EncoderValue :=
  (v.json.addFields fields).map fun json => { v with json := json }

def encodeEntry [Host] (v : EncoderValue) (ent : Entry) (fields : List Field) : Option Bytes :=
  if v.console then ConsoleEncoder.encodeEntry ⟨v.json⟩ ent fields else v.json.encodeEntry ent fields

end EncoderValue

/-- The encoder that a call returns, after calls that returned `encoders`. -/
def Call.encoder [Host] (encoders : List (Option EncoderValue)) : Call → Option EncoderValue
  | .newEncoder console cfg => some (.new console cfg)
  | .withFields parent fields => encoders[parent]?.join.bind fun v => v.addFields fields
  | .write _ _ _ => none

/-- The line that a call writes, after calls that returned `encoders`. -/
def Call.line [Host] (encoders : List (Option EncoderValue)) : Call → Option Bytes
  | .write parent ent fields => encoders[parent]?.join.bind fun v => v.encodeEntry ent fields
  | _ => none

/-- The encoders that calls return, each for itself, one after another. -/
def encodersOf [Host] (calls : List Call) : List (Option EncoderValue) :=
  calls.foldl (fun encoders call => encoders ++ [call.encoder encoders]) []

/-- The encoder that a call of a program returns. -/
def System.encoderOf [Host] (st : System) (call : Nat) : Option EncoderValue :=
  (encodersOf st.calls)[call]?.join

/-- The line that a call of a program writes: from the configuration and the fields of its encoder,
its entry and its fields alone. -/
def System.lineOf [Host] (st : System) (call : Nat) : Option Bytes :=
  st.calls[call]?.bind fun c => c.line (encodersOf (st.calls.take call))

/-! ## Where a buffer is -/

/-- Where a buffer can be. A place in the pool is an index into it. -/
inductive Place where
  | pool (i : Nat)
  | buf (e : Nat)
  | reflectBuf (e : Nat)
  | line (call : Nat)

namespace Objects

/-- What a call passed to `out.Write`. -/
def written (s : Objects) (call : Nat) : List Bytes :=
  (s.out.filter fun o => o.1 = call).map Prod.snd

/-- An encoder that does not lie in the pool. -/
def Live (s : Objects) (e : Nat) : Prop := e < s.encoders.next ∧ e ∉ s.encoders.free

/-- Buffer `b` is at a place. -/
def Holds (s : Objects) (b : Nat) : Place → Prop
  | .pool i => s.buffers.free[i]? = some b
  | .buf e => s.Live e ∧ (s.encoders.object e).buf = some b
  | .reflectBuf e => s.Live e ∧ (s.encoders.object e).reflectBuf = some b
  | .line call => s.line call = some b

instance (s : Objects) (e : Nat) : Decidable (s.Live e) := inferInstanceAs (Decidable (_ ∧ _))

instance (s : Objects) (b : Nat) : (p : Place) → Decidable (s.Holds b p)
  | .pool _ => inferInstanceAs (Decidable (_ = _))
  | .buf _ => inferInstanceAs (Decidable (_ ∧ _))
  | .reflectBuf _ => inferInstanceAs (Decidable (_ ∧ _))
  | .line _ => inferInstanceAs (Decidable (_ = _))

/-- Buffer `b` is at a place that it has not been freed from: not in an encoder that
`writeContext` is giving back. -/
def Keeps (s : Objects) (b : Nat) (p : Place) : Prop :=
  s.Holds b p ∧ ∀ e, p = .buf e → (s.encoders.object e).freed = false

end Objects

end Zap.Zapcore.Pooled
