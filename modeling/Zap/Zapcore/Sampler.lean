import Zap.Zapcore.Entry

/-!
# Counting for the sampler

`counters`, `fnv32a` and the decision of `sampler.Check` in `zapcore/sampler.go`. A counter is
used by one goroutine at a time here, so the compare-and-swap of `IncCheckReset` finds the value
that was loaded just before.
-/

set_option autoImplicit false

namespace Zap.Zapcore

open Data

/-- A `counter`: the end of its window, in nanoseconds of Unix time, and the entries in it. -/
structure Counter where
  resetAt : Int64
  counter : UInt64

/-- `IncCheckReset`: the number of this entry in its window. -/
def Counter.incCheckReset (c : Counter) (t : Time) (tick : Duration) : UInt64 × Counter :=
  let tn := t.unixNano
  let resetAfter := c.resetAt
  if resetAfter > tn then (c.counter + 1, { c with counter := c.counter + 1 })
  else (1, ⟨tn + tick, 1⟩)

/-- FNV-1a, 32 bits. -/
def fnv32a (s : Bytes) : UInt32 :=
  s.foldl (fun hash b => (hash ^^^ b.toUInt32) * 16777619) 2166136261

/-- The index of a counter: a level above the lowest one, and a hash. -/
structure Slot where
  level : Level
  bucket : UInt32
  deriving DecidableEq

def countersPerLevel : UInt32 := 4096

/-- The index that `get` uses. -/
def slotOf (lvl : Level) (key : Bytes) : Slot := ⟨lvl - Level.min, fnv32a key % countersPerLevel⟩

/-- The counters of a sampler. -/
abbrev Counters := Slot → Counter

def newCounters : Counters := fun _ => ⟨0, 0⟩

/-- What a sampler tells its hook. -/
inductive SamplingDecision where
  | logDropped
  | logSampled
  deriving DecidableEq

/-- The fields of a `sampler` other than the core it wraps. The counters are shared with the
samplers that `With` makes, so they are a reference. Without a hook nothing is called. -/
structure Sampler where
  counts : Nat
  tick : Duration
  first : UInt64
  thereafter : UInt64
  hook : Option Nat

/-- Whether the `n`-th entry of a window is dropped. -/
def Sampler.drops (s : Sampler) (n : UInt64) : Bool :=
  decide (n > s.first) && (s.thereafter == 0 || (n - s.first) % s.thereafter != 0)

/-- The levels that are counted. -/
def Level.inRange (l : Level) : Bool := decide (Level.min ≤ l) && decide (l ≤ Level.max)

end Zap.Zapcore
