import Zap.Data.Threads
import Zap.Zapcore.Sampler

/-!
# A counter among goroutines

`counter.IncCheckReset` of `zapcore/sampler.go` by its atomic operations, for any number of calls at
a time on one counter. `Counter.incCheckReset` is what a call does that nobody interferes with.
-/

set_option autoImplicit false

namespace Zap.Zapcore

open Data

/-- The atomic operations on the fields of a `counter`. -/
inductive CounterOp where
  | loadResetAt
  | storeCounter (val : UInt64)
  | compareAndSwapResetAt (old new : Int64)
  | addCounter (delta : UInt64)

namespace CounterOp

/-- What an operation answers. -/
def Res : CounterOp → Type
  | .loadResetAt => Int64
  | .storeCounter _ => Unit
  | .compareAndSwapResetAt _ _ => Bool
  | .addCounter _ => UInt64

def exec : (o : CounterOp) → Counter → o.Res × Counter
  | .loadResetAt, c => (c.resetAt, c)
  | .storeCounter val, c => ((), { c with counter := val })
  | .compareAndSwapResetAt old new, c =>
    if c.resetAt = old then (true, { c with resetAt := new }) else (false, c)
  | .addCounter delta, c => (c.counter + delta, { c with counter := c.counter + delta })

end CounterOp

/-- Every operation can be seen by the other calls. -/
def counterMachine : Machine Counter Unit CounterOp CounterOp.Res where
  exec := fun _ => CounterOp.exec
  silent := fun _ => false

namespace CounterSteps

abbrev Code (α : Type) := Prog CounterOp CounterOp.Res α

def load : Code Int64 := .op .loadResetAt .ret

def store (val : UInt64) : Code Unit := .op (.storeCounter val) .ret

def compareAndSwap (old new : Int64) : Code Bool := .op (.compareAndSwapResetAt old new) .ret

def add (delta : UInt64) : Code UInt64 := .op (.addCounter delta) .ret

/-- `IncCheckReset`. -/
def incCheckReset (t : Time) (tick : Duration) : Code UInt64 := do
  let tn := t.unixNano
  let resetAfter ← load
  if resetAfter > tn then add 1
  else
    store 1
    let newResetAfter := tn + tick
    if !(← compareAndSwap resetAfter newResetAfter) then add 1
    else return 1

/-- `k` calls at the same time on one counter. -/
def calls (c : Counter) (t : Time) (tick : Duration) (k : Nat) :
    Threads Counter CounterOp CounterOp.Res UInt64 :=
  ⟨c, List.replicate k (incCheckReset t tick)⟩

end CounterSteps

end Zap.Zapcore
