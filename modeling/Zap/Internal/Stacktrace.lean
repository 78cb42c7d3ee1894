import Zap.Data.Pool

/-!
# Stack traces

`Capture`, `Free` and `Count` of `internal/stacktrace/stack.go`, with the pool that stacks come from.
A stack has a storage for program counters, which is kept when the stack goes back to the pool, and
which a capture replaces by a larger one if the call stack does not fit. The call stack lies outside,
and so does `runtime.CallersFrames`, which makes frames out of the counters in `pcs`.

A capture may panic, where it slices the storage, and its loop may have no end; it is given the
number of times that the loop may run. The number of frames to skip is a machine integer, and the sum
that `Capture` makes of it wraps. `runtime.Callers` takes a negative number for none.
-/

set_option autoImplicit false

namespace Zap.Internal

open Data

/-- A `Stack`. `pcs` are the first `count` of the counters in the storage. -/
structure Stack where
  storage : List Nat
  count : Nat

/-- The field `pcs`. -/
def Stack.pcs (st : Stack) : List Nat := st.storage.take st.count

/-- A `Depth`. -/
inductive Depth where
  | first
  | full

/-- Why a capture does not return. -/
inductive Failure where
  | outOfRange
  | outOfFuel

/-- What `_stackPool` makes. -/
def newStack : Stack := ⟨List.replicate 64 0, 0⟩

/-- The program counters of the call stack from `skip` on. -/
def beyond (stack : List Nat) (skip : Int) : List Nat := stack.drop skip.toNat

/-- `runtime.Callers(skip, pcs)`: how many counters there are, and `pcs` with them written over its
first elements. -/
def runtimeCallers (stack : List Nat) (skip : Int) (pcs : List Nat) : Nat × List Nat :=
  let found := (beyond stack skip).take pcs.length
  (found.length, found ++ pcs.drop found.length)

/-- The loop of `Capture`: as long as there is no room left, try again with twice the room. -/
def grow (stack : List Nat) (skip : Int) : Nat → List Nat → Nat → Option (List Nat × Nat)
  | 0, pcs, numFrames => if numFrames = pcs.length then none else some (pcs, numFrames)
  | fuel + 1, pcs, numFrames =>
    if numFrames = pcs.length then
      let (numFrames, pcs) := runtimeCallers stack skip (List.replicate (pcs.length * 2) 0)
      grow stack skip fuel pcs numFrames
    else some (pcs, numFrames)

/-- `Capture` on a stack from the pool. -/
def Stack.capture (fuel : Nat) (stack : List Nat) (skip : Int64) (depth : Depth) (st : Stack) :
    Except Failure Stack :=
  match depth with
  | .first =>
    if st.storage.length < 1 then .error .outOfRange
    else
      let (numFrames, pcs) := runtimeCallers stack (skip + 2).toInt (st.storage.take 1)
      -- `pcs` is a part of the storage
      .ok ⟨pcs ++ st.storage.drop 1, numFrames⟩
  | .full =>
    let (numFrames, pcs) := runtimeCallers stack (skip + 2).toInt st.storage
    match grow stack (skip + 2).toInt fuel pcs numFrames with
    | none => .error .outOfFuel
    | some (pcs, numFrames) => .ok ⟨pcs, numFrames⟩

/-- `Capture`. The pool may give back any stack that was put there, or make a new one. -/
def capture (fuel : Nat) (stack : List Nat) (skip : Int64) (depth : Depth) (pick : Nat)
    (p : Pool Stack) : Except Failure (Nat × Pool Stack) :=
  let (r, p) := p.get pick newStack
  match (p.object r).capture fuel stack skip depth with
  | .error e => .error e
  | .ok st => .ok (r, p.set r st)

/-- `Free`. -/
def free (r : Nat) (p : Pool Stack) : Pool Stack :=
  (p.set r { p.object r with count := 0 }).put r

/-! ## Sequences of calls -/

/-- A `Capture` with the call stack that it finds, or a `Free` of the stack that the capture with a
number returned. -/
inductive StackCall where
  | capture (stack : List Nat) (skip : Int64) (depth : Depth) (pick : Nat)
  | free (i : Nat)

/-- The pool, and the stacks that captures have returned. -/
structure Captures where
  pool : Pool Stack
  taken : List Nat

/-- Before the first capture. -/
def Captures.start : Captures := ⟨⟨0, fun _ => newStack, []⟩, []⟩

/-- One call. There is none where a `Free` has no stack to be called on. -/
def StackCall.run (fuel : Nat) (call : StackCall) (s : Captures) : Except Failure Captures :=
  match call with
  | .capture stack skip depth pick =>
    match Internal.capture fuel stack skip depth pick s.pool with
    | .error e => .error e
    | .ok (r, pool) => .ok ⟨pool, s.taken ++ [r]⟩
  | .free i =>
    match s.taken[i]? with
    | none => .ok s
    | some r => .ok { s with pool := Internal.free r s.pool }

/-- Calls in order. -/
def Captures.run (fuel : Nat) : List StackCall → Captures → Except Failure Captures
  | [], s => .ok s
  | call :: calls, s =>
    match call.run fuel s with
    | .error e => .error e
    | .ok s => s.run fuel calls

end Zap.Internal
