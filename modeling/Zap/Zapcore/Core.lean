import Mathlib.Logic.Function.Basic
import Zap.Zapcore.Sampler

/-!
# Cores

`zapcore.Core` and its implementations: `ioCore`, `nopCore`, `multiCore`, `hooked`,
`levelFilterCore`, `sampler` and `lazyWithCore`, with the `CheckedEntry` on which cores register.

What lies outside is a parameter. An encoder is any type with the two operations a core needs.
Destinations and hooks are numbers; what they answer is the `Environment`'s affair and may depend
on everything that happened before. What cores share and change is in a `World`: the counters of
samplers, the cores that lazy cores have made, and the trace of calls that went outside.

The core that `With` returns has no lazy core in it. That is the type of `withFields`, and it is
why the operations end: a lazy core passes a call on to a core without lazy cores. Each
operation is defined once, with a parameter `down` for that last step.

An encoder that panics is taken here for one that returns. `Zap.Zapcore.Unwinding` has the same
operations with panics; where those return they are these (`Zap.Laws.Unwinding`).
-/

set_option autoImplicit false

namespace Zap.Zapcore

open Data

/-! ## Parameters -/

/-- A `LevelEnabler`: a level, which enables itself and everything above, or a function. -/
inductive LevelEnabler where
  | level (l : Level)
  | func (f : Level → Bool)

def LevelEnabler.enabled : LevelEnabler → Level → Bool
  | .level l, lvl => decide (lvl ≥ l)
  | .func f, lvl => f lvl

/-- An `Encoder` as cores use it, where it returns; which of its calls panic is said by `Panics`.
`addFields` clones the encoder and adds to the clone. -/
class Encoder (E : Type) (F : outParam Type) where
  addFields : E → List F → E
  encodeEntry : E → Entry → List F → Except Bytes Bytes

/-- The fields of an `ioCore`. The destination is a number. -/
structure IoCore (E : Type) where
  level : LevelEnabler
  enc : E
  out : Nat

/-- What a `CheckedEntry` does in the end: an action of this package, or a hook of the user. -/
inductive CheckWriteHook where
  | noop
  | goexit
  | panic
  | fatal
  | custom (id : Nat)

/-- What goes to the error output of a `CheckedEntry` or a `Logger`. -/
inductive Report where
  | reuse (ent : Entry)
  | writeError (time : Time) (errs : List Bytes)
  | noCaller (time : Time)
  | increaseLevel (level : Level)

/-- A call. The first is one of `ioCore.Write`; the others leave the cores, for a destination, a
hook of `RegisterHooks`, a hook of a sampler, an error output or a `CheckWriteHook`. -/
inductive Event (E F : Type) where
  | write (core : IoCore E) (ent : Entry) (fields : List F)
  | output (out : Nat) (buf : Bytes)
  | sync (out : Nat)
  | hook (f : Nat) (ent : Entry)
  | decision (hook : Nat) (ent : Entry) (d : SamplingDecision)
  | report (out : Nat) (r : Report)
  | onWrite (hook : CheckWriteHook) (ent : Entry) (fields : List F)

/-- The errors that destinations and hooks return, given what happened before. -/
class Environment (E F : Type) where
  write : List (Event E F) → Nat → Bytes → Option Bytes
  sync : List (Event E F) → Nat → Option Bytes
  hook : List (Event E F) → Nat → Entry → Option Bytes

/-! ## Cores and their world -/

/-- A core; with `b` it may have lazy cores in it. Counters and lazy cores are shared, so both
are references. Hooks are numbers. -/
inductive Core (E F : Type) (b : Bool) where
  | nop
  | io (core : IoCore E)
  | multi (cores : List (Core E F b))
  | hooked (core : Core E F b) (funcs : List Nat)
  | levelFilter (core : Core E F b) (level : LevelEnabler)
  | sampler (core : Core E F b) (s : Sampler)
  | lazyWith (h : b = true) (ref : Nat) (original : Core E F b) (fields : List F)

/-- The cores that lazy cores have made. `evaluated` lists the lazy cores in the order in which
they called `With`; it is history that no core reads. -/
structure Cells (E F : Type) where
  made : Nat → Option (Core E F false)
  evaluated : List Nat

/-- What cores share. References from `next` on are free. `hookChecks` lists the calls of
`hooked.Check`, with the hooks and whether the wrapped core registered; it is history that no
core reads. -/
structure World (E F : Type) where
  next : Nat
  counters : Nat → Counters
  cells : Cells E F
  trace : List (Event E F)
  hookChecks : List (List Nat × Bool)

/-- An entry and the cores that have agreed to log it. -/
structure CheckedEntry (E F : Type) where
  entry : Entry
  errorOutput : Option Nat
  dirty : Bool
  after : Option CheckWriteHook
  cores : List ((b : Bool) × Core E F b)
  before : List (Entry → List F → Entry × List F)

variable {E F : Type}

namespace World

/-- A call that goes outside. -/
def emit (w : World E F) (e : Event E F) : World E F := { w with trace := w.trace ++ [e] }

/-- `IncCheckReset` on the counter for an entry. -/
def incCheckReset (w : World E F) (s : Sampler) (ent : Entry) : UInt64 × World E F :=
  let slot := slotOf ent.level ent.message
  let (n, c) := (w.counters s.counts slot).incCheckReset ent.time s.tick
  (n, { w with
    counters := Function.update w.counters s.counts
      (Function.update (w.counters s.counts) slot c) })

/-- Tell a sampler's hook. -/
def decided (w : World E F) (s : Sampler) (ent : Entry) (d : SamplingDecision) : World E F :=
  match s.hook with
  | none => w
  | some hook => w.emit (.decision hook ent d)

end World

/-- A lazy core keeps the core it made. -/
def Cells.keep (cells : Cells E F) (ref : Nat) (core : Core E F false) : Cells E F :=
  ⟨Function.update cells.made ref (some core), cells.evaluated ++ [ref]⟩

/-! ## Errors -/

/-- The errors that `multierr` combines; none of them is `nil`. -/
abbrev Errors := List Bytes

section

variable [Environment E F]

/-- `out.Write(buf)`. -/
def World.output (w : World E F) (out : Nat) (buf : Bytes) : Errors × World E F :=
  ((Environment.write w.trace out buf).toList, w.emit (.output out buf))

/-- `out.Sync()`. -/
def World.sync (w : World E F) (out : Nat) : Errors × World E F :=
  ((Environment.sync w.trace out).toList, w.emit (.sync out))

/-- The hooks of a core, in order. -/
def World.runHooks (ent : Entry) : List Nat → World E F → Errors × World E F
  | [], w => ([], w)
  | f :: fs, w =>
    let err := (Environment.hook w.trace f ent).toList
    let (errs, w) := World.runHooks ent fs (w.emit (.hook f ent))
    (err ++ errs, w)

end

/-! ## `ioCore` -/

namespace IoCore

variable [Encoder E F]

def withFields (c : IoCore E) (fields : List F) : IoCore E :=
  { c with enc := Encoder.addFields c.enc fields }

/-- `Write`. After an entry above the error level the destination is synced, whatever comes of
it. -/
def write [Environment E F] (c : IoCore E) (ent : Entry) (fields : List F) (w : World E F) :
    Errors × World E F :=
  let w := w.emit (.write c ent fields)
  match Encoder.encodeEntry c.enc ent fields with
  | .error err => ([err], w)
  | .ok buf =>
    match w.output c.out buf with
    | ([], w) => if ent.level > Level.error then ([], (w.sync c.out).2) else ([], w)
    | (errs, w) => (errs, w)

end IoCore

namespace Core

variable {b : Bool}

/-! ## `Enabled` -/

mutual
/-- `Enabled`. -/
def enabled : Core E F b → Level → Bool
  | .nop, _ => false
  | .io core, l => core.level.enabled l
  | .multi cores, l => anyEnabled cores l
  | .hooked core _, l => core.enabled l
  | .levelFilter _ level, l => level.enabled l
  | .sampler core _, l => core.enabled l
  | .lazyWith _ _ original _, l => original.enabled l
/-- The loop of `multiCore.Enabled`. -/
def anyEnabled : List (Core E F b) → Level → Bool
  | [], _ => false
  | core :: cores, l => core.enabled l || anyEnabled cores l
end

/-! ## `With` -/

section

variable [Encoder E F] (down : Core E F false → List F → World E F → Core E F false × World E F)

mutual
/-- `With`, where `down` is `With` for the core that a lazy core has made. -/
def withUsing : Core E F b → List F → World E F → Core E F false × World E F
  | .nop, _, w => (.nop, w)
  | .io core, fields, w => (.io (core.withFields fields), w)
  | .multi cores, fields, w =>
    let (cores, w) := withAll cores fields w
    (.multi cores, w)
  | .hooked core funcs, fields, w =>
    let (core, w) := withUsing core fields w
    (.hooked core funcs, w)
  | .levelFilter core level, fields, w =>
    let (core, w) := withUsing core fields w
    (.levelFilter core level, w)
  | .sampler core s, fields, w =>
    let (core, w) := withUsing core fields w
    (.sampler core s, w)
  | .lazyWith _ ref original own, fields, w =>
    match w.cells.made ref with
    | some core => down core fields w
    | none =>
      let (core, w) := withUsing original own w
      down core fields { w with cells := w.cells.keep ref core }
/-- The loop of `multiCore.With`. -/
def withAll : List (Core E F b) → List F → World E F → List (Core E F false) × World E F
  | [], _, w => ([], w)
  | core :: cores, fields, w =>
    let (core, w) := withUsing core fields w
    let (cores, w) := withAll cores fields w
    (core :: cores, w)
end

end

/-- `With`. -/
def withFields [Encoder E F] :
    {b : Bool} → Core E F b → List F → World E F → Core E F false × World E F
  | false => withUsing fun core _ w => (core, w)
  | true => withUsing (withUsing fun core _ w => (core, w))

/-- `initOnce`: the core that a lazy core passes calls to. -/
def initOnce [Encoder E F] (ref : Nat) (original : Core E F b) (fields : List F) (w : World E F) :
    Core E F false × World E F :=
  match w.cells.made ref with
  | some core => (core, w)
  | none =>
    let (core, w) := original.withFields fields w
    (core, { w with cells := w.cells.keep ref core })

end Core

/-! ## `Check` -/

/-- `AddCore`, which takes a `CheckedEntry` from the pool if there is none. -/
def CheckedEntry.addCore {b : Bool} (ce : Option (CheckedEntry E F)) (ent : Entry)
    (core : Core E F b) : CheckedEntry E F :=
  let ce := ce.getD ⟨ent, none, false, none, [], []⟩
  { ce with cores := ce.cores ++ [⟨b, core⟩] }

/-- `After`, which takes a `CheckedEntry` from the pool if there is none. -/
def CheckedEntry.setAfter (ce : Option (CheckedEntry E F)) (ent : Entry) (hook : CheckWriteHook) :
    CheckedEntry E F :=
  { ce.getD ⟨ent, none, false, none, [], []⟩ with after := some hook }

/-- The cores that have agreed. -/
def CheckedEntry.registered (ce : Option (CheckedEntry E F)) : List ((b : Bool) × Core E F b) :=
  match ce with
  | none => []
  | some ce => ce.cores

/-- History: `hooked.Check` was called, and the wrapped core has or has not registered. -/
def World.hookChecked (w : World E F) (funcs : List Nat) (ce downstream : Option (CheckedEntry E F)) :
    World E F :=
  { w with
    hookChecks := w.hookChecks ++ [(funcs, decide ((CheckedEntry.registered ce).length <
      (CheckedEntry.registered downstream).length))] }

namespace Core

variable {b : Bool}

/-- The decision of `sampler.Check`, where `inner` is `Check` of the wrapped core. -/
def checkSampled {α : Type} (s : Sampler) (enabled : Bool) (ent : Entry)
    (inner : World E F → α × World E F) (ce : α) (w : World E F) : α × World E F :=
  if !enabled then (ce, w)
  else if ent.level.inRange then
    let (n, w) := w.incCheckReset s ent
    if s.drops n then (ce, w.decided s ent .logDropped)
    else inner (w.decided s ent .logSampled)
  else inner w

section

variable [Encoder E F] (down : Core E F false → Entry → Option (CheckedEntry E F) → World E F →
  Option (CheckedEntry E F) × World E F)

mutual
/-- `Check`, where `down` is `Check` for the core that a lazy core has made. -/
def checkUsing : Core E F b → Entry → Option (CheckedEntry E F) → World E F →
    Option (CheckedEntry E F) × World E F
  | .nop, _, ce, w => (ce, w)
  | .io core, ent, ce, w =>
    if core.level.enabled ent.level then
      (some (CheckedEntry.addCore (b := b) ce ent (.io core)), w)
    else (ce, w)
  | .multi cores, ent, ce, w => checkAll cores ent ce w
  | .hooked core funcs, ent, ce, w =>
    match checkUsing core ent ce w with
    | (some downstream, w) =>
      (some (CheckedEntry.addCore downstream ent (.hooked core funcs)),
        w.hookChecked funcs ce (some downstream))
    | (none, w) => (ce, w.hookChecked funcs ce none)
  | .levelFilter core level, ent, ce, w =>
    if !level.enabled ent.level then (ce, w) else checkUsing core ent ce w
  | .sampler core s, ent, ce, w =>
    checkSampled s (core.enabled ent.level) ent (checkUsing core ent ce) ce w
  | .lazyWith _ ref original fields, ent, ce, w =>
    if !original.enabled ent.level then (ce, w)
    else
      let (core, w) := initOnce ref original fields w
      down core ent ce w
/-- The loop of `multiCore.Check`. -/
def checkAll : List (Core E F b) → Entry → Option (CheckedEntry E F) → World E F →
    Option (CheckedEntry E F) × World E F
  | [], _, ce, w => (ce, w)
  | core :: cores, ent, ce, w =>
    let (ce, w) := checkUsing core ent ce w
    checkAll cores ent ce w
end

end

/-- `Check`. -/
def check [Encoder E F] : {b : Bool} → Core E F b → Entry → Option (CheckedEntry E F) →
    World E F → Option (CheckedEntry E F) × World E F
  | false => checkUsing fun _ _ ce w => (ce, w)
  | true => checkUsing (checkUsing fun _ _ ce w => (ce, w))

/-! ## `Write` and `Sync` -/

section

variable [Encoder E F] [Environment E F]
  (down : Core E F false → Entry → List F → World E F → Errors × World E F)

mutual
/-- `Write`, where `down` is `Write` for the core that a lazy core has made. -/
def writeUsing : Core E F b → Entry → List F → World E F → Errors × World E F
  | .nop, _, _, w => ([], w)
  | .io core, ent, fields, w => core.write ent fields w
  | .multi cores, ent, fields, w => writeAll cores ent fields w
  | .hooked _ funcs, ent, _, w => w.runHooks ent funcs
  | .levelFilter core _, ent, fields, w => writeUsing core ent fields w
  | .sampler core _, ent, fields, w => writeUsing core ent fields w
  | .lazyWith _ ref original own, ent, fields, w =>
    let (core, w) := initOnce ref original own w
    down core ent fields w
/-- The loop of `multiCore.Write`. -/
def writeAll : List (Core E F b) → Entry → List F → World E F → Errors × World E F
  | [], _, _, w => ([], w)
  | core :: cores, ent, fields, w =>
    let (err, w) := writeUsing core ent fields w
    let (errs, w) := writeAll cores ent fields w
    (err ++ errs, w)
end

end

/-- `Write`. -/
def write [Encoder E F] [Environment E F] :
    {b : Bool} → Core E F b → Entry → List F → World E F → Errors × World E F
  | false => writeUsing fun _ _ _ w => ([], w)
  | true => writeUsing (writeUsing fun _ _ _ w => ([], w))

section

variable [Encoder E F] [Environment E F] (down : Core E F false → World E F → Errors × World E F)

mutual
/-- `Sync`, where `down` is `Sync` for the core that a lazy core has made. -/
def syncUsing : Core E F b → World E F → Errors × World E F
  | .nop, w => ([], w)
  | .io core, w => w.sync core.out
  | .multi cores, w => syncAll cores w
  | .hooked core _, w => syncUsing core w
  | .levelFilter core _, w => syncUsing core w
  | .sampler core _, w => syncUsing core w
  | .lazyWith _ ref original own, w =>
    let (core, w) := initOnce ref original own w
    down core w
/-- The loop of `multiCore.Sync`. -/
def syncAll : List (Core E F b) → World E F → Errors × World E F
  | [], w => ([], w)
  | core :: cores, w =>
    let (err, w) := syncUsing core w
    let (errs, w) := syncAll cores w
    (err ++ errs, w)
end

end

/-- `Sync`. -/
def sync [Encoder E F] [Environment E F] :
    {b : Bool} → Core E F b → World E F → Errors × World E F
  | false => syncUsing fun _ w => ([], w)
  | true => syncUsing (syncUsing fun _ w => ([], w))

end Core

/-! ## `CheckedEntry.Write` -/

namespace CheckedEntry

variable [Encoder E F] [Environment E F]

/-- Write an entry to cores in order. -/
def writeCores (ent : Entry) (fields : List F) :
    List ((b : Bool) × Core E F b) → World E F → Errors × World E F
  | [], w => ([], w)
  | core :: cores, w =>
    let (err, w) := core.2.write ent fields w
    let (errs, w) := writeCores ent fields cores w
    (err ++ errs, w)

/-- Tell the error output, if there is one. -/
def tell (ce : CheckedEntry E F) (r : Report) (w : World E F) : World E F :=
  match ce.errorOutput with
  | none => w
  | some out => ((w.emit (.report out r)).sync out).2

/-- `Write`, which a `nil` entry ignores. -/
def write (ce : Option (CheckedEntry E F)) (fields : List F) (w : World E F) : World E F :=
  match ce with
  | none => w
  | some ce =>
    if ce.dirty then ce.tell (.reuse ce.entry) w
    else
      let (ent, fields) := ce.before.foldl (fun p hook => hook p.1 p.2) (ce.entry, fields)
      let (errs, w) := writeCores ent fields ce.cores w
      let w := if errs = [] then w else ce.tell (.writeError ce.entry.time errs) w
      match ce.after with
      | none => w
      | some hook => w.emit (.onWrite hook ce.entry fields)

end CheckedEntry

/-! ## Making cores -/

namespace Core

variable {b : Bool}

mutual
/-- A core where lazy cores are allowed, whether or not there are any. -/
def lift : Core E F b → Core E F true
  | .nop => .nop
  | .io core => .io core
  | .multi cores => .multi (liftAll cores)
  | .hooked core funcs => .hooked core.lift funcs
  | .levelFilter core level => .levelFilter core.lift level
  | .sampler core s => .sampler core.lift s
  | .lazyWith _ ref original own => .lazyWith rfl ref original.lift own
def liftAll : List (Core E F b) → List (Core E F true)
  | [] => []
  | core :: cores => core.lift :: liftAll cores
end

end Core

/-- `NewCore`. -/
def newCore {b : Bool} (enc : E) (out : Nat) (level : LevelEnabler) : Core E F b :=
  .io ⟨level, enc, out⟩

/-- `NewNopCore`. -/
def newNopCore {b : Bool} : Core E F b := .nop

/-- `RegisterHooks`. -/
def registerHooks {b : Bool} (core : Core E F b) (funcs : List Nat) : Core E F b :=
  .hooked core funcs

/-- `NewTee`. -/
def newTee {b : Bool} : List (Core E F b) → Core E F b
  | [] => .nop
  | [core] => core
  | cores => .multi cores

/-- `NewIncreaseLevelCore`, which refuses a level that the core does not have. -/
def newIncreaseLevelCore {b : Bool} (core : Core E F b) (level : LevelEnabler) :
    Option (Core E F b) :=
  if [Level.fatal, Level.panic, Level.dpanic, Level.error, Level.warn, Level.info, Level.debug].any
      fun l => !core.enabled l && level.enabled l then none
  else some (.levelFilter core level)

/-- `NewSamplerWithOptions`, with the hook of `SamplerHook` if there is one. -/
def newSamplerWithOptions {b : Bool} (core : Core E F b) (tick : Duration)
    (first thereafter : Int64) (hook : Option Nat) (w : World E F) : Core E F b × World E F :=
  (.sampler core ⟨w.next, tick, first.toUInt64, thereafter.toUInt64, hook⟩,
    { w with next := w.next + 1, counters := Function.update w.counters w.next newCounters })

/-- `NewLazyWith`. -/
def newLazyWith (core : Core E F true) (fields : List F) (w : World E F) :
    Core E F true × World E F :=
  (.lazyWith rfl w.next core fields, { w with next := w.next + 1 })

end Zap.Zapcore
