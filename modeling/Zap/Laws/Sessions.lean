import Zap.Data.Runs
import Zap.Laws.Programs

/-!
# Sessions

A session is what a program does with one core: it calls `Enabled`, `Check` and then `Write`,
`Write`, `Sync` and `With`, in any order, on the core and on the cores that `With` has returned.

The cores that `With` returns have no lazy cores in them, so calls on them have nothing to do with
cells (`call_rebase`).
-/

set_option autoImplicit false

namespace Zap.Zapcore

open Data

variable {E F : Type}

/-- A `CheckedEntry`, or none, on which only leaves and hooks have registered. -/
abbrev Registrations (E F : Type) :=
  {ce : Option (CheckedEntry E F) // ∀ core ∈ CheckedEntry.registered ce, (Kind.of core).isSome}

/-- A call on a core. `Check` is followed by `Write` on what it returns. -/
inductive CoreCall (E F : Type) where
  | enabled (l : Level)
  | check (ent : Entry) (ce : Registrations E F) (fields : List F)
  | write (ent : Entry) (fields : List F)
  | sync
  | withFields (fields : List F)

/-- What a call returns. `With` returns a core, which is called later on. -/
inductive CoreCall.Answer (E F : Type) where
  | enabled (on : Bool)
  | checked (ce : Option (CheckedEntry E F))
  | errors (errs : Errors)
  | core

/-- The core that a session is about, the cores that `With` has returned, and their world. -/
structure Session (E F : Type) where
  first : (b : Bool) × Core E F b
  derived : List (Core E F false)
  world : World E F

/-- A request: a call, and the core it is on. -/
structure Request (E F : Type) where
  target : Nat
  call : CoreCall E F

/-- What a call does: the answer, the core that `With` returned and the world after it. -/
structure Effect (E F : Type) where
  answer : CoreCall.Answer E F
  made : Option (Core E F false)
  world : World E F

section

variable [Encoder E F] [Environment E F]

def CoreCall.apply {b : Bool} (core : Core E F b) (w : World E F) : CoreCall E F → Effect E F
  | .enabled l => ⟨.enabled (core.enabled l), none, w⟩
  | .check ent ce fields =>
    let (ce, w) := core.check ent ce.1 w
    ⟨.checked ce, none, CheckedEntry.write ce fields w⟩
  | .write ent fields =>
    let (errs, w) := core.write ent fields w
    ⟨.errors errs, none, w⟩
  | .sync =>
    let (errs, w) := core.sync w
    ⟨.errors errs, none, w⟩
  | .withFields fields =>
    let (core, w) := core.withFields fields w
    ⟨.core, some core, w⟩

/-- The core that a request is on: one that `With` has returned, or else the first one. -/
def Session.core (s : Session E F) (target : Nat) : (b : Bool) × Core E F b :=
  match s.derived[target]? with
  | some core => ⟨false, core⟩
  | none => s.first

def Session.step (r : Request E F) (s : Session E F) :
    CoreCall.Answer E F × Session E F :=
  let e := r.call.apply (s.core r.target).2 s.world
  (e.answer, { s with derived := s.derived ++ e.made.toList, world := e.world })

/-- The answers to requests, and the session after them. -/
def Session.run (rs : List (Request E F)) (s : Session E F) :
    List (CoreCall.Answer E F) × Session E F :=
  runs Session.step rs s

end

/-! ## Cores without lazy cores -/

/-- The world with other cells, and with other references free. -/
def World.rebase (w : World E F) (cells : Cells E F) (next : Nat) : World E F :=
  { w with cells, next }

section

variable (cells : Cells E F) (next : Nat)

namespace Core

variable [Encoder E F]

theorem check_rebase (core : Core E F false) (ent : Entry) (ce : Option (CheckedEntry E F))
    (w : World E F) :
    core.check ent ce (w.rebase cells next) =
      ((core.check ent ce w).1, (core.check ent ce w).2.rebase cells next) := by
  induction core generalizing ce w with
  | nop => simp only [check_nop]
  | io core =>
    simp only [check_io]
    split <;> rfl
  | nil => simp only [check_nil]
  | cons core cores ih ihs => simp only [check_cons, ih, ihs]
  | hooked core funcs ih =>
    simp only [check_hooked, ih]
    rfl
  | levelFilter core level ih =>
    simp only [check_levelFilter, ih]
    split <;> rfl
  | sampler core s ih =>
    have hdecided : ∀ (w : World E F) d,
        (w.rebase cells next).decided s ent d = (w.decided s ent d).rebase cells next := by
      intro w d
      unfold World.decided
      cases s.hook <;> rfl
    have hcount : (w.rebase cells next).incCheckReset s ent =
        ((w.incCheckReset s ent).1, (w.incCheckReset s ent).2.rebase cells next) := rfl
    simp only [check_sampler, checkSampled, hcount, hdecided, ih]
    split
    · rfl
    · split
      · split <;> rfl
      · rfl
  | lazyWith h _ _ _ _ => cases h

end Core

variable [Environment E F]

theorem runHooks_rebase (ent : Entry) (funcs : List Nat) (w : World E F) :
    (w.rebase cells next).runHooks ent funcs =
      ((w.runHooks ent funcs).1, (w.runHooks ent funcs).2.rebase cells next) := by
  induction funcs generalizing w with
  | nil => rfl
  | cons f funcs ih =>
    have hemit : (w.rebase cells next).emit (.hook f ent) =
        (w.emit (.hook f ent)).rebase cells next := rfl
    simp only [World.runHooks, hemit, ih]
    rfl

variable [Encoder E F]

theorem IoCore.write_rebase (core : IoCore E) (ent : Entry) (fields : List F) (w : World E F) :
    core.write ent fields (w.rebase cells next) =
      ((core.write ent fields w).1, (core.write ent fields w).2.rebase cells next) := by
  have hemit : (w.rebase cells next).emit (.write core ent fields) =
      (w.emit (.write core ent fields)).rebase cells next := rfl
  unfold IoCore.write
  rw [hemit]
  generalize w.emit (.write core ent fields) = w
  cases Encoder.encodeEntry core.enc ent fields with
  | error err => rfl
  | ok buf =>
    have htrace : (w.rebase cells next).trace = w.trace := rfl
    cases herr : Environment.write w.trace core.out buf with
    | none =>
      simp only [World.output, htrace, herr, Option.toList_none]
      split <;> rfl
    | some err =>
      simp only [World.output, htrace, herr, Option.toList_some]
      rfl

namespace Core

theorem write_rebase (core : Core E F false) (ent : Entry) (fields : List F) (w : World E F) :
    core.write ent fields (w.rebase cells next) =
      ((core.write ent fields w).1, (core.write ent fields w).2.rebase cells next) := by
  induction core generalizing w with
  | nop => simp only [write_nop]
  | io core => simp only [write_io, IoCore.write_rebase]
  | nil => simp only [write_nil]
  | cons core cores ih ihs => simp only [write_cons, ih, ihs]
  | hooked core funcs _ => simp only [write_hooked, runHooks_rebase]
  | levelFilter core level ih => simp only [write_levelFilter, ih]
  | sampler core s ih => simp only [write_sampler, ih]
  | lazyWith h _ _ _ _ => cases h

theorem sync_rebase (core : Core E F false) (w : World E F) :
    core.sync (w.rebase cells next) = ((core.sync w).1, (core.sync w).2.rebase cells next) := by
  induction core generalizing w with
  | nop => simp only [sync_nop]
  | io core =>
    simp only [sync_io]
    rfl
  | nil => simp only [sync_nil]
  | cons core cores ih ihs => simp only [sync_cons, ih, ihs]
  | hooked core funcs ih => simp only [sync_hooked, ih]
  | levelFilter core level ih => simp only [sync_levelFilter, ih]
  | sampler core s ih => simp only [sync_sampler, ih]
  | lazyWith h _ _ _ _ => cases h

end Core

namespace CheckedEntry

theorem writeCores_rebase (ent : Entry) (fields : List F) {cores : List ((b : Bool) × Core E F b)}
    (h : ∀ core ∈ cores, (Kind.of core).isSome) (w : World E F) :
    writeCores ent fields cores (w.rebase cells next) =
      ((writeCores ent fields cores w).1, (writeCores ent fields cores w).2.rebase cells next) := by
  induction cores generalizing w with
  | nil => rfl
  | cons core cores ih =>
    obtain ⟨hcore, hcores⟩ := List.forall_mem_cons.mp h
    obtain ⟨k, hk⟩ := Option.isSome_iff_exists.mp hcore
    have hwrite : core.2.write ent fields (w.rebase cells next) =
        ((core.2.write ent fields w).1, (core.2.write ent fields w).2.rebase cells next) := by
      simp only [Kind.write_of hk]
      cases k with
      | leaf core => exact core.write_rebase cells next ent fields w
      | hooks funcs => exact runHooks_rebase cells next ent funcs w
    simp only [writeCores, hwrite, ih hcores]

theorem write_rebase {ce : Option (CheckedEntry E F)}
    (h : ∀ core ∈ CheckedEntry.registered ce, (Kind.of core).isSome) (fields : List F)
    (w : World E F) :
    CheckedEntry.write ce fields (w.rebase cells next) =
      (CheckedEntry.write ce fields w).rebase cells next := by
  cases ce with
  | none => rfl
  | some ce =>
    have htell : ∀ r w, ce.tell r (World.rebase w cells next) = (ce.tell r w).rebase cells next := by
      intro r w
      unfold tell
      cases ce.errorOutput <;> rfl
    have hcores : ∀ ent fields, writeCores ent fields ce.cores (w.rebase cells next) =
        ((writeCores ent fields ce.cores w).1,
          (writeCores ent fields ce.cores w).2.rebase cells next) :=
      fun ent fields => writeCores_rebase cells next ent fields h w
    unfold CheckedEntry.write
    simp only [hcores, htell]
    split
    · rfl
    · generalize ce.before.foldl (fun p hook => hook p.1 p.2) (ce.entry, fields) = p
      by_cases herrs : (writeCores p.1 p.2 ce.cores w).1 = []
      · simp only [herrs, ↓reduceIte]
        cases ce.after <;> rfl
      · simp only [herrs, ↓reduceIte]
        cases ce.after <;> rfl

end CheckedEntry

/-- Calls on a core without lazy cores have nothing to do with cells. -/
theorem CoreCall.apply_rebase (core : Core E F false) (w : World E F) (call : CoreCall E F) :
    call.apply core (w.rebase cells next) =
      { call.apply core w with world := (call.apply core w).world.rebase cells next } := by
  cases call with
  | enabled l => rfl
  | check ent ce fields =>
    -- what is in the cells does not matter, so any content will do
    have hagree : w.cells.Agrees fun ref => (w.cells.made ref).getD .nop :=
      fun ref made hmade => by simp only [hmade, Option.getD_some]
    have hchecked := core.surveyed_eager (n := 0) ent ce.1 w hagree
    obtain ⟨_, hregs, _⟩ := hchecked.registers
    simp only [apply, Core.check_rebase,
      CheckedEntry.write_rebase cells next (hregs.kinds ce.2) fields]
  | write ent fields => simp only [apply, Core.write_rebase]
  | sync => simp only [apply, Core.sync_rebase]
  | withFields fields =>
    simp only [apply, Core.withFields_eager]

end

end Zap.Zapcore
