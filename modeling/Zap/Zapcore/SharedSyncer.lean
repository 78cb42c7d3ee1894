import Zap.Data.Locks
import Zap.Writer

/-!
# Write syncers among goroutines

`zapcore/write_syncer.go` for any number of goroutines, and `CombineWriteSyncers` of `writer.go`.
Here a `lockedWriteSyncer` has its mutex. Mutexes are numbered in the order in which `Lock` makes
them; one syncer that is used in two places has one number.

A call of a device takes time. It begins, and it ends with the device's answer; in between, as
between any two calls, other goroutines may go on.
-/

set_option autoImplicit false

namespace Zap.Zapcore

open Data

/-- A call of a device begins, or it ends. -/
inductive DeviceOp where
  | enter (device : Nat)
  | write (device : Nat) (p : Bytes)
  | sync (device : Nat)

/-- What the end of a call brings. -/
def DeviceOp.Res : DeviceOp → Type
  | .enter _ => Unit
  | .write _ _ => Int × Option Bytes
  | .sync _ => Option Bytes

/-- The devices: the calls that have ended, in their order, and the devices that are at work. -/
structure Bench where
  trace : List DeviceEvent
  busy : List Nat

def Bench.exec [Devices] : (o : DeviceOp) → Bench → o.Res × Bench
  | .enter d, b => ((), { b with busy := d :: b.busy })
  | .write d p, b => (Devices.write b.trace d p, ⟨b.trace ++ [.write d p], b.busy.erase d⟩)
  | .sync d, b => (Devices.sync b.trace d, ⟨b.trace ++ [.sync d], b.busy.erase d⟩)

/-- A program that calls devices. -/
abbrev SyncerProg (α : Type) : Type := LockProg DeviceOp DeviceOp.Res α

/-- A `WriteSyncer`, with the mutexes of those that are locked. -/
inductive SharedSyncer where
  | device (id : Nat)
  | writerWrapper (id : Nat)
  | locked (mutex : Nat) (ws : SharedSyncer)
  | multi (ws : List SharedSyncer)

/-- A method of a `WriteSyncer` with its argument. -/
inductive SyncerCall where
  | write (p : Bytes)
  | sync

/-- What a method returns. -/
inductive SyncerAnswer where
  | wrote (w : Written)
  | synced (errs : List Bytes)

/-- A device's `Write`. -/
def callWrite (d : Nat) (p : Bytes) : SyncerProg Written :=
  .op (.act (.enter d)) fun _ =>
    .op (.act (.write d p)) fun (r : Int × Option Bytes) => .ret (r.1, r.2.toList)

/-- A device's `Sync`. -/
def callSync (d : Nat) : SyncerProg (List Bytes) :=
  .op (.act (.enter d)) fun _ =>
    .op (.act (.sync d)) fun (r : Option Bytes) => .ret r.toList

namespace SharedSyncer

mutual
/-- `Write`. -/
def write : SharedSyncer → Bytes → SyncerProg Written
  | .device id, p => callWrite id p
  | .writerWrapper id, p => callWrite id p
  | .locked mutex ws, p => Prog.critical mutex (ws.write p)
  | .multi ws, p => writeAll ws p 0 []
/-- The loop of `multiWriteSyncer.Write`. -/
def writeAll : List SharedSyncer → Bytes → Int → List Bytes → SyncerProg Written
  | [], _, nWritten, writeErr => .ret (nWritten, writeErr)
  | w :: ws, p, nWritten, writeErr =>
    (w.write p).bind fun r => writeAll ws p (countWritten nWritten r.1) (writeErr ++ r.2)
end

mutual
/-- `Sync`. -/
def sync : SharedSyncer → SyncerProg (List Bytes)
  | .device id => callSync id
  | .writerWrapper _ => .ret []
  | .locked mutex ws => Prog.critical mutex ws.sync
  | .multi ws => syncAll ws []
/-- The loop of `multiWriteSyncer.Sync`. -/
def syncAll : List SharedSyncer → List Bytes → SyncerProg (List Bytes)
  | [], errs => .ret errs
  | w :: ws, errs => w.sync.bind fun err => syncAll ws (errs ++ err)
end

/-- A call of a method. -/
def call (ws : SharedSyncer) : SyncerCall → SyncerProg SyncerAnswer
  | .write p => (ws.write p).bind fun r => .ret (.wrote r)
  | .sync => ws.sync.bind fun errs => .ret (.synced errs)

mutual
/-- The syncer as one goroutine sees it, for which mutexes do nothing. -/
def erase : SharedSyncer → Syncer
  | .device id => .device id
  | .writerWrapper id => .writerWrapper id
  | .locked _ ws => .locked ws.erase
  | .multi ws => .multi (eraseAll ws)
def eraseAll : List SharedSyncer → List Syncer
  | [] => []
  | w :: ws => w.erase :: eraseAll ws
end

mutual
/-- Mutexes are below `n`, and the mutex of a locked syncer is above those inside. -/
def Below (n : Nat) : SharedSyncer → Prop
  | .device _ => True
  | .writerWrapper _ => True
  | .locked mutex ws => mutex < n ∧ ws.Below mutex
  | .multi ws => AllBelow n ws
def AllBelow (n : Nat) : List SharedSyncer → Prop
  | [] => True
  | w :: ws => w.Below n ∧ AllBelow n ws
end

mutual
theorem Below.mono {n n' : Nat} (hn : n ≤ n') : {ws : SharedSyncer} → ws.Below n → ws.Below n'
  | .device _, _ => trivial
  | .writerWrapper _, _ => trivial
  | .locked _ _, h => ⟨Nat.lt_of_lt_of_le h.1 hn, h.2⟩
  | .multi _, h => AllBelow.mono hn h
theorem AllBelow.mono {n n' : Nat} (hn : n ≤ n') :
    {ws : List SharedSyncer} → AllBelow n ws → AllBelow n' ws
  | [], _ => trivial
  | _ :: _, h => ⟨h.1.mono hn, AllBelow.mono hn h.2⟩
end

end SharedSyncer

/-! ## Making syncers -/

/-- A syncer that is made when there are `n` mutexes. It has no others, and since `Lock` makes the
mutex after the syncer, no syncer is inside itself. -/
structure WiredSyncer (n : Nat) where
  ws : SharedSyncer
  below : ws.Below n

namespace WiredSyncer

variable {n : Nat}

/-- `AddSync` of a device that has no `Sync`. -/
def writerWrapper (id : Nat) : WiredSyncer n := ⟨.writerWrapper id, trivial⟩

theorem allBelow_map (ws : List (WiredSyncer n)) : SharedSyncer.AllBelow n (ws.map WiredSyncer.ws) := by
  induction ws with
  | nil => trivial
  | cons w ws ih => exact ⟨w.below, ih⟩

/-- `NewMultiWriteSyncer`. -/
def newMultiWriteSyncer : List (WiredSyncer n) → WiredSyncer n
  | [w] => w
  | ws => ⟨.multi (ws.map WiredSyncer.ws), allBelow_map ws⟩

/-- `Lock`. -/
def lock : WiredSyncer n → WiredSyncer (n + 1)
  | ⟨.locked mutex ws, h⟩ => ⟨.locked mutex ws, h.mono (Nat.le_succ n)⟩
  | ⟨ws, h⟩ => ⟨.locked n ws, Nat.lt_succ_self n, h⟩

/-- `CombineWriteSyncers`. -/
def combineWriteSyncers [Sinks] (writers : List (WiredSyncer n)) : WiredSyncer (n + 1) :=
  if writers.length = 0 then writerWrapper Sinks.discard else (newMultiWriteSyncer writers).lock

/-- A call of a method. -/
def call (w : WiredSyncer n) (c : SyncerCall) : SyncerProg SyncerAnswer := w.ws.call c

end WiredSyncer

/-- A goroutine that makes calls of the methods of syncers. -/
def goroutine {n : Nat} (calls : List (WiredSyncer n × SyncerCall)) :
    SyncerProg (List SyncerAnswer) :=
  Prog.calls (fun c => c.1.call c.2) [] calls

/-- Goroutines that all use one syncer. -/
def sharing {n : Nat} (w : WiredSyncer n) (todo : List (List SyncerCall)) :
    LockThreads Bench DeviceOp DeviceOp.Res (List SyncerAnswer) :=
  .start ⟨[], []⟩ (todo.map fun cs => goroutine (cs.map fun c => (w, c)))

end Zap.Zapcore
