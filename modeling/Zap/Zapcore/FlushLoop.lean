import Mathlib.Logic.Function.Basic
import Zap.Zapcore.BufferedWriteSyncer

/-!
# The buffered write syncer among goroutines

Any number of goroutines use one syncer, and its flush loop runs beside them. A step is one
critical section, one channel operation, or a call or return of a goroutine. Between steps
everything may be interleaved.

Three fields are history and are read by no step of the program: `writes` has the calls of
`Write` in the order of the lock, `returned` says which of them have returned, and a goroutine in
`Stop` remembers those that had returned when it made the call.
-/

set_option autoImplicit false

namespace Zap.Zapcore

open Data

/-- Where a goroutine is. `seen` is what had returned when `Stop` was called. -/
inductive Goroutine where
  | idle
  | writing (bs : Bytes)
  | wrote (i : Nat)
  | syncing
  | synced (errs : List Bytes)
  | stopping (seen : List Nat)
  | waiting (seen : List Nat)
  | flushing (seen : List Nat)
  | stopped (seen : List Nat) (already : Bool) (errs : List Bytes)

/-- Where the flush loop is: not started, in its `select`, in `Sync`, or at its end. -/
inductive FlushLoop where
  | unstarted
  | selecting
  | syncing
  | returned

/-- The syncer, its channels, by how often they were closed, its flush loop, and the goroutines
that use it. -/
structure System (σ : Type) where
  syncer : BufferedWriteSyncer σ
  stopClosed : Nat
  doneClosed : Nat
  loop : FlushLoop
  goroutines : Nat → Goroutine
  writes : List (Bytes × Nat)
  returned : List Nat

/-- A step of goroutine `g`, or of the flush loop. -/
inductive Action where
  | callWrite (g : Nat) (bs : Bytes)
  | lockWrite (g : Nat)
  | returnWrite (g : Nat)
  | callSync (g : Nat)
  | lockSync (g : Nat)
  | returnSync (g : Nat)
  | callStop (g : Nat)
  | lockStop (g : Nat)
  | receiveDone (g : Nat)
  | lockFlush (g : Nat)
  | returnStop (g : Nat)
  | tick
  | lockTick
  | receiveStop

namespace System

variable {σ : Type}

/-- Nobody has used the syncer yet. -/
def start (size : Int) (dev : σ) : System σ :=
  ⟨.new size dev, 0, 0, .unstarted, fun _ => .idle, [], []⟩

variable (ws : WriteSyncer σ) (st : System σ)

/-- The goroutine `g` moves on. -/
def goto (g : Nat) (next : Goroutine) : System σ :=
  { st with goroutines := Function.update st.goroutines g next }

/-- The first `Write` starts the flush loop. -/
def started : FlushLoop :=
  match st.syncer.writer with
  | none => .selecting
  | some _ => st.loop

/-- The section of `Write`. -/
def lockWrite (g : Nat) (bs : Bytes) : System σ :=
  let (r, syncer) := st.syncer.write ws bs
  goto { st with syncer, loop := st.started, writes := st.writes ++ [(bs, r.1)] } g
    (.wrote st.writes.length)

/-- The first section of `Stop`: the call that stops the syncer closes the channel and waits, any
other returns at once. -/
def lockStop (g : Nat) (seen : List Nat) : System σ :=
  match st.syncer.markStopped with
  | (true, syncer) => goto { st with syncer, stopClosed := st.stopClosed + 1 } g (.waiting seen)
  | (false, syncer) => goto { st with syncer } g (.stopped seen st.syncer.stopped [])

/-- A `Sync`, after which the goroutine goes where its result takes it. -/
def lockSync (g : Nat) (next : List Bytes → Goroutine) : System σ :=
  let (errs, syncer) := st.syncer.sync ws
  goto { st with syncer } g (next errs)

/-- A step, if it can be made. -/
def step : Action → Option (System σ)
  | .callWrite g bs =>
    match st.goroutines g with
    | .idle => some (st.goto g (.writing bs))
    | _ => none
  | .lockWrite g =>
    match st.goroutines g with
    | .writing bs => some (st.lockWrite ws g bs)
    | _ => none
  | .returnWrite g =>
    match st.goroutines g with
    | .wrote i => some (goto { st with returned := i :: st.returned } g .idle)
    | _ => none
  | .callSync g =>
    match st.goroutines g with
    | .idle => some (st.goto g .syncing)
    | _ => none
  | .lockSync g =>
    match st.goroutines g with
    | .syncing => some (st.lockSync ws g .synced)
    | _ => none
  | .returnSync g =>
    match st.goroutines g with
    | .synced _ => some (st.goto g .idle)
    | _ => none
  | .callStop g =>
    match st.goroutines g with
    | .idle => some (st.goto g (.stopping st.returned))
    | _ => none
  | .lockStop g =>
    match st.goroutines g with
    | .stopping seen => some (st.lockStop g seen)
    | _ => none
  | .receiveDone g =>
    match st.goroutines g with
    | .waiting seen => if 0 < st.doneClosed then some (st.goto g (.flushing seen)) else none
    | _ => none
  | .lockFlush g =>
    match st.goroutines g with
    | .flushing seen => some (st.lockSync ws g (.stopped seen false))
    | _ => none
  | .returnStop g =>
    match st.goroutines g with
    | .stopped _ _ _ => some (st.goto g .idle)
    | _ => none
  | .tick =>
    match st.loop with
    | .selecting => some { st with loop := .syncing }
    | _ => none
  | .lockTick =>
    match st.loop with
    | .syncing => some { st with syncer := (st.syncer.sync ws).2, loop := .selecting }
    | _ => none
  | .receiveStop =>
    match st.loop with
    | .selecting =>
      if 0 < st.stopClosed then
        some { st with loop := .returned, doneClosed := st.doneClosed + 1 }
      else none
    | _ => none

/-- An interleaving, if each of its steps can be made. -/
def run : List Action → System σ → Option (System σ)
  | [], st => some st
  | a :: as, st => (st.step ws a).bind (run as)

end System

end Zap.Zapcore
