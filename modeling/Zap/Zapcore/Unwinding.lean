import Zap.Data.Attempt
import Zap.Zapcore.Core

/-!
# Cores whose encoders panic

An encoder runs marshalers of the user, and a marshaler may panic. Nothing in `zapcore/core.go`,
`tee.go`, `hook.go`, `lazy_with.go` and `entry.go` recovers from that: the panic goes through the
core, through the `CheckedEntry` and through the logger to whoever called it. What was to come after
it does not happen, and what was done stays done.

`Panics` says of an encoder which of its calls panic. The operations here are those of `Core` with an
outcome: they end where an encoder panics. Where they return they are the operations of `Core`, which
have no such outcome (`Zap.Laws.Unwinding`).

A lazy core calls `With` inside a `sync.Once`. If that panics, the `Once` is done all the same and the
field `core` is still `nil`, so that every later use panics too. Such a core is listed among those that
have called `With`, and there is no core that it has made.

Destinations, hooks and clocks are outside, as in `Core`, and return.
-/

set_option autoImplicit false

namespace Zap.Zapcore

open Data

/-- Which calls of an encoder panic. What the encoder answers to those is never seen. -/
class Panics (E : Type) (F : outParam Type) where
  addFields : E → List F → Bool
  encodeEntry : E → Entry → List F → Bool

variable {E F : Type}

/-- The function of the `Once` of a lazy core has panicked. -/
def Cells.spend (cells : Cells E F) (ref : Nat) : Cells E F :=
  { cells with evaluated := cells.evaluated ++ [ref] }

/-- `initOnce` and then the field `core`, where `made` is `With` of the wrapped core. -/
def World.doOnce (ref : Nat) (made : World E F → Attempt (World E F) (Core E F false))
    (w : World E F) : Attempt (World E F) (Core E F false) :=
  match w.cells.made ref with
  | some core => (some core, w)
  | none =>
    -- the field is `nil` although the `Once` is done, and a method of `nil` is called
    if ref ∈ w.cells.evaluated then (none, w)
    else
      match made w with
      | (some core, w) => (some core, { w with cells := w.cells.keep ref core })
      | (none, w) => (none, { w with cells := w.cells.spend ref })

/-! ## `ioCore` -/

namespace IoCore

variable [Encoder E F] [Panics E F]

def withFields? (c : IoCore E) (fields : List F) : Option (IoCore E) :=
  if Panics.addFields c.enc fields then none else some (c.withFields fields)

/-- `Write`, which begins with `EncodeEntry`. -/
def write? [Environment E F] (c : IoCore E) (ent : Entry) (fields : List F) (w : World E F) :
    Attempt (World E F) Errors :=
  if Panics.encodeEntry c.enc ent fields then (none, w.emit (.write c ent fields))
  else .of (c.write ent fields w)

end IoCore

namespace Core

variable {b : Bool}

/-! ## `With` -/

section

variable [Encoder E F] [Panics E F]
  (down : Core E F false → List F → World E F → Attempt (World E F) (Core E F false))

mutual
/-- `With`, where `down` is `With` for the core that a lazy core has made. -/
def withUsing? : Core E F b → List F → World E F → Attempt (World E F) (Core E F false)
  | .nop, _, w => (some .nop, w)
  | .io core, fields, w => ((core.withFields? fields).map .io, w)
  | .multi cores, fields, w => (withAll? cores fields w).bind fun cores w => (some (.multi cores), w)
  | .hooked core funcs, fields, w =>
    (withUsing? core fields w).bind fun core w => (some (.hooked core funcs), w)
  | .levelFilter core level, fields, w =>
    (withUsing? core fields w).bind fun core w => (some (.levelFilter core level), w)
  | .sampler core s, fields, w =>
    (withUsing? core fields w).bind fun core w => (some (.sampler core s), w)
  | .lazyWith _ ref original own, fields, w =>
    (w.doOnce ref (withUsing? original own)).bind fun core w => down core fields w
/-- The loop of `multiCore.With`. -/
def withAll? : List (Core E F b) → List F → World E F → Attempt (World E F) (List (Core E F false))
  | [], _, w => (some [], w)
  | core :: cores, fields, w =>
    (withUsing? core fields w).bind fun core w =>
      (withAll? cores fields w).bind fun cores w => (some (core :: cores), w)
end

end

/-- `With`. -/
def withFields? [Encoder E F] [Panics E F] :
    {b : Bool} → Core E F b → List F → World E F → Attempt (World E F) (Core E F false)
  | false => withUsing? fun core _ w => (some core, w)
  | true => withUsing? (withUsing? fun core _ w => (some core, w))

/-- `initOnce`: the core that a lazy core passes calls to. -/
def initOnce? [Encoder E F] [Panics E F] (ref : Nat) (original : Core E F b) (fields : List F)
    (w : World E F) : Attempt (World E F) (Core E F false) :=
  w.doOnce ref (original.withFields? fields)

/-! ## `Check` -/

section

variable [Encoder E F] [Panics E F]
  (down : Core E F false → Entry → Option (CheckedEntry E F) → World E F →
    Attempt (World E F) (Option (CheckedEntry E F)))

mutual
/-- `Check`, where `down` is `Check` for the core that a lazy core has made. -/
def checkUsing? : Core E F b → Entry → Option (CheckedEntry E F) → World E F →
    Attempt (World E F) (Option (CheckedEntry E F))
  | .nop, _, ce, w => (some ce, w)
  | .io core, ent, ce, w =>
    if core.level.enabled ent.level then
      (some (some (CheckedEntry.addCore (b := b) ce ent (.io core))), w)
    else (some ce, w)
  | .multi cores, ent, ce, w => checkAll? cores ent ce w
  | .hooked core funcs, ent, ce, w =>
    (checkUsing? core ent ce w).bind fun downstream w =>
      (some (downstream.elim ce fun ce => some (CheckedEntry.addCore ce ent (.hooked core funcs))),
        w.hookChecked funcs ce downstream)
  | .levelFilter core level, ent, ce, w =>
    if !level.enabled ent.level then (some ce, w) else checkUsing? core ent ce w
  | .sampler core s, ent, ce, w =>
    checkSampled s (core.enabled ent.level) ent (checkUsing? core ent ce) (some ce) w
  | .lazyWith _ ref original fields, ent, ce, w =>
    if !original.enabled ent.level then (some ce, w)
    else (initOnce? ref original fields w).bind fun core w => down core ent ce w
/-- The loop of `multiCore.Check`. -/
def checkAll? : List (Core E F b) → Entry → Option (CheckedEntry E F) → World E F →
    Attempt (World E F) (Option (CheckedEntry E F))
  | [], _, ce, w => (some ce, w)
  | core :: cores, ent, ce, w =>
    (checkUsing? core ent ce w).bind fun ce w => checkAll? cores ent ce w
end

end

/-- `Check`. -/
def check? [Encoder E F] [Panics E F] : {b : Bool} → Core E F b → Entry →
    Option (CheckedEntry E F) → World E F → Attempt (World E F) (Option (CheckedEntry E F))
  | false => checkUsing? fun _ _ ce w => (some ce, w)
  | true => checkUsing? (checkUsing? fun _ _ ce w => (some ce, w))

/-! ## `Write` and `Sync` -/

section

variable [Encoder E F] [Panics E F] [Environment E F]
  (down : Core E F false → Entry → List F → World E F → Attempt (World E F) Errors)

mutual
/-- `Write`, where `down` is `Write` for the core that a lazy core has made. -/
def writeUsing? : Core E F b → Entry → List F → World E F → Attempt (World E F) Errors
  | .nop, _, _, w => (some [], w)
  | .io core, ent, fields, w => core.write? ent fields w
  | .multi cores, ent, fields, w => writeAll? cores ent fields w
  | .hooked _ funcs, ent, _, w => .of (w.runHooks ent funcs)
  | .levelFilter core _, ent, fields, w => writeUsing? core ent fields w
  | .sampler core _, ent, fields, w => writeUsing? core ent fields w
  | .lazyWith _ ref original own, ent, fields, w =>
    (initOnce? ref original own w).bind fun core w => down core ent fields w
/-- The loop of `multiCore.Write`. -/
def writeAll? : List (Core E F b) → Entry → List F → World E F → Attempt (World E F) Errors
  | [], _, _, w => (some [], w)
  | core :: cores, ent, fields, w =>
    (writeUsing? core ent fields w).bind fun err w =>
      (writeAll? cores ent fields w).bind fun errs w => (some (err ++ errs), w)
end

end

/-- `Write`. -/
def write? [Encoder E F] [Panics E F] [Environment E F] :
    {b : Bool} → Core E F b → Entry → List F → World E F → Attempt (World E F) Errors
  | false => writeUsing? fun _ _ _ w => (some [], w)
  | true => writeUsing? (writeUsing? fun _ _ _ w => (some [], w))

section

variable [Encoder E F] [Panics E F] [Environment E F]
  (down : Core E F false → World E F → Attempt (World E F) Errors)

mutual
/-- `Sync`, where `down` is `Sync` for the core that a lazy core has made. -/
def syncUsing? : Core E F b → World E F → Attempt (World E F) Errors
  | .nop, w => (some [], w)
  | .io core, w => .of (w.sync core.out)
  | .multi cores, w => syncAll? cores w
  | .hooked core _, w => syncUsing? core w
  | .levelFilter core _, w => syncUsing? core w
  | .sampler core _, w => syncUsing? core w
  | .lazyWith _ ref original own, w =>
    (initOnce? ref original own w).bind fun core w => down core w
/-- The loop of `multiCore.Sync`. -/
def syncAll? : List (Core E F b) → World E F → Attempt (World E F) Errors
  | [], w => (some [], w)
  | core :: cores, w =>
    (syncUsing? core w).bind fun err w =>
      (syncAll? cores w).bind fun errs w => (some (err ++ errs), w)
end

end

/-- `Sync`. -/
def sync? [Encoder E F] [Panics E F] [Environment E F] :
    {b : Bool} → Core E F b → World E F → Attempt (World E F) Errors
  | false => syncUsing? fun _ w => (some [], w)
  | true => syncUsing? (syncUsing? fun _ w => (some [], w))

end Core

/-! ## `CheckedEntry.Write` -/

namespace CheckedEntry

variable [Encoder E F] [Panics E F] [Environment E F]

/-- Write an entry to cores in order. -/
def writeCores? (ent : Entry) (fields : List F) :
    List ((b : Bool) × Core E F b) → World E F → Attempt (World E F) Errors
  | [], w => (some [], w)
  | core :: cores, w =>
    (core.2.write? ent fields w).bind fun err w =>
      (writeCores? ent fields cores w).bind fun errs w => (some (err ++ errs), w)

/-- `Write`. A panic of a core ends it before errors are reported and before the hook of `After`. -/
def write? (ce : Option (CheckedEntry E F)) (fields : List F) (w : World E F) :
    Attempt (World E F) Unit :=
  match ce with
  | none => (some (), w)
  | some ce =>
    if ce.dirty then (some (), ce.tell (.reuse ce.entry) w)
    else
      let (ent, fields) := ce.before.foldl (fun p hook => hook p.1 p.2) (ce.entry, fields)
      (writeCores? ent fields ce.cores w).bind fun errs w =>
        let w := if errs = [] then w else ce.tell (.writeError ce.entry.time errs) w
        match ce.after with
        | none => (some (), w)
        | some hook => (some (), w.emit (.onWrite hook ce.entry fields))

end CheckedEntry

end Zap.Zapcore
