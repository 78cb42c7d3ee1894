import Zap.Zapcore.FlushLoop

/-!
# The mutex of the buffered write syncer

In `FlushLoop` a critical section is one step. Here it is three: to take the mutex, which has to be
free, to do what the section does, and to give the mutex back. A process that is at `mu.Lock()` and
cannot have the mutex is blocked, and others go on.

The ticker is a number of ticks that wait to be received. `loops` is history, the number of flush
loops that were started.
-/

set_option autoImplicit false

namespace Zap.Zapcore

open Data

/-- Who takes steps: the goroutines that use the syncer, and its flush loop. -/
inductive Process where
  | goroutine (g : Nat)
  | loop
  deriving DecidableEq

/-- Where a process is with the mutex: it does not have it, it has it and has not done its section,
or it has done it and is about to call `Unlock`. -/
inductive Phase where
  | out
  | entered
  | leaving
  deriving DecidableEq

/-- The syncer with its goroutines, its mutex and its ticker. -/
structure Locked (σ : Type) where
  system : System σ
  mutex : Option Process
  phase : Process → Phase
  ticks : Nat
  loops : Nat

/-- A step: the ticker fires, a process takes the mutex or gives it back, or something is done,
inside a section or outside. -/
inductive LockAction where
  | fire
  | lock (p : Process)
  | unlock (p : Process)
  | act (a : Action)

/-- Whose step it is. -/
def Action.process : Action → Process
  | .callWrite g _ => .goroutine g
  | .lockWrite g => .goroutine g
  | .returnWrite g => .goroutine g
  | .callSync g => .goroutine g
  | .lockSync g => .goroutine g
  | .returnSync g => .goroutine g
  | .callStop g => .goroutine g
  | .lockStop g => .goroutine g
  | .receiveDone g => .goroutine g
  | .lockFlush g => .goroutine g
  | .returnStop g => .goroutine g
  | .tick => .loop
  | .lockTick => .loop
  | .receiveStop => .loop

/-- Whether it is a critical section. -/
def Action.isSection : Action → Bool
  | .lockWrite _ => true
  | .lockSync _ => true
  | .lockStop _ => true
  | .lockFlush _ => true
  | .lockTick => true
  | _ => false

/-- Whether a goroutine is at a critical section. -/
def Goroutine.atSection : Goroutine → Bool
  | .writing _ => true
  | .syncing => true
  | .stopping _ => true
  | .flushing _ => true
  | _ => false

/-- Whether the flush loop is at a critical section. -/
def FlushLoop.atSection : FlushLoop → Bool
  | .syncing => true
  | _ => false

def System.atSection {σ : Type} (st : System σ) : Process → Bool
  | .goroutine g => (st.goroutines g).atSection
  | .loop => st.loop.atSection

namespace Locked

variable {σ : Type}

/-- Nobody has used the syncer yet. -/
def start (size : Int) (dev : σ) : Locked σ := ⟨.start size dev, none, fun _ => .out, 0, 0⟩

variable (ws : WriteSyncer σ) (st : Locked σ)

/-- The flush loops that a section starts: the first `Write` starts one. -/
def starts : Action → Nat
  | .lockWrite _ => if st.system.syncer.writer.isNone then 1 else 0
  | _ => 0

/-- The ticks that a step receives. -/
def received : Action → Nat
  | .tick => 1
  | _ => 0

/-- A step, if it can be made. -/
def step : LockAction → Option (Locked σ)
  | .fire =>
    if st.system.syncer.writer.isSome then some { st with ticks := st.ticks + 1 } else none
  | .lock p =>
    if st.mutex = none ∧ st.phase p = .out ∧ st.system.atSection p = true then
      some { st with mutex := some p, phase := Function.update st.phase p .entered }
    else none
  | .unlock p =>
    if st.phase p = .leaving then
      some { st with mutex := none, phase := Function.update st.phase p .out }
    else none
  | .act a =>
    if a.isSection then
      if st.phase a.process = .entered then
        (st.system.step ws a).map fun system =>
          { st with
            system
            phase := Function.update st.phase a.process .leaving
            loops := st.loops + st.starts a }
      else none
    else if st.phase a.process = .out ∧ received a ≤ st.ticks then
      (st.system.step ws a).map fun system => { st with system, ticks := st.ticks - received a }
    else none

/-- An interleaving, if each of its steps can be made. -/
def run : List LockAction → Locked σ → Option (Locked σ)
  | [], st => some st
  | a :: as, st => (st.step ws a).bind (run as)

end Locked

end Zap.Zapcore
