import Zap.Data.Runs
import Zap.Zapcore.SharedSyncer

/-!
# Write syncers among goroutines

What a mutex around write syncers is good for. `Lock` makes calls of a syncer follow one another,
and `CombineWriteSyncers` puts one mutex around all of its writers: whatever the goroutines do, the
calls are made one after the other (`combined_linearizable`), so that all sinks get the same records
in one order, and none is called while it is at work (`combined_agree`). Syncers that are locked
inside one another never block each other for good (`syncers_complete`).

Sinks are outside, and their calls return. One that panicked inside a `lockedWriteSyncer` would leave
its mutex locked, since that is released without `defer`.

Without the mutex around all of them, two sinks may get two records in different orders. That run
stands after the theorem.
-/

set_option autoImplicit false

namespace Zap.Zapcore

open Data

namespace SharedSyncer

/-! ## One goroutine -/

mutual
/-- The devices that a `Write` calls, in order. -/
def leaves : SharedSyncer → List Nat
  | .device id => [id]
  | .writerWrapper id => [id]
  | .locked _ ws => ws.leaves
  | .multi ws => allLeaves ws
def allLeaves : List SharedSyncer → List Nat
  | [] => []
  | w :: ws => w.leaves ++ allLeaves ws
end

mutual
/-- The devices that a `Sync` calls, in order. -/
def synced : SharedSyncer → List Nat
  | .device id => [id]
  | .writerWrapper _ => []
  | .locked _ ws => ws.synced
  | .multi ws => allSynced ws
def allSynced : List SharedSyncer → List Nat
  | [] => []
  | w :: ws => w.synced ++ allSynced ws
end

/-- The calls of devices that a call makes. -/
def events (ws : SharedSyncer) : SyncerCall → List DeviceEvent
  | .write p => ws.leaves.map (.write · p)
  | .sync => ws.synced.map .sync

end SharedSyncer

/-- A call as one goroutine sees it. -/
def Syncer.call [Devices] (ws : Syncer) (c : SyncerCall) (tr : List DeviceEvent) :
    SyncerAnswer × List DeviceEvent :=
  match c with
  | .write p => (.wrote (ws.write p tr).1, (ws.write p tr).2)
  | .sync => (.synced (ws.sync tr).1, (ws.sync tr).2)

section Solo

variable [Devices]

theorem solo_critical {α : Type} (m : Nat) (p : SyncerProg α) (b : Bench) :
    (Prog.critical m p).solo Bench.exec b = p.solo Bench.exec b := by
  rw [Prog.critical, Prog.solo, Prog.solo_bind]
  obtain ⟨r, b'⟩ := p.solo Bench.exec b
  cases r <;> rfl

theorem solo_callWrite (d : Nat) (p : Bytes) (b : Bench) :
    (callWrite d p).solo Bench.exec b =
      (some ((Devices.write b.trace d p).1, (Devices.write b.trace d p).2.toList),
        ⟨b.trace ++ [.write d p], b.busy⟩) := by
  simp only [callWrite, Prog.solo, Bench.exec, List.erase_cons_head]

theorem solo_callSync (d : Nat) (b : Bench) :
    (callSync d).solo Bench.exec b =
      (some (Devices.sync b.trace d).toList, ⟨b.trace ++ [.sync d], b.busy⟩) := by
  simp only [callSync, Prog.solo, Bench.exec, List.erase_cons_head]

namespace SharedSyncer

mutual
/-- One goroutine on its own does what the model without mutexes says. -/
theorem solo_write : (ws : SharedSyncer) → (p : Bytes) → (b : Bench) →
    (ws.write p).solo Bench.exec b =
      (some (ws.erase.write p b.trace).1, ⟨(ws.erase.write p b.trace).2, b.busy⟩)
  | .device id, p, b => solo_callWrite id p b
  | .writerWrapper id, p, b => solo_callWrite id p b
  | .locked mutex ws, p, b => by
    rw [write, solo_critical, solo_write ws p b]
    rfl
  | .multi ws, p, b => solo_writeAll ws p 0 [] b
theorem solo_writeAll : (ws : List SharedSyncer) → (p : Bytes) → (n : Int) → (errs : List Bytes) →
    (b : Bench) → (writeAll ws p n errs).solo Bench.exec b =
      (some (Syncer.writeAll (eraseAll ws) p n errs b.trace).1,
        ⟨(Syncer.writeAll (eraseAll ws) p n errs b.trace).2, b.busy⟩)
  | [], _, _, _, _ => rfl
  | w :: ws, p, n, errs, b => by
    rw [writeAll, Prog.solo_bind, solo_write w p b, Option.elim_some, solo_writeAll ws]
    rfl
end

mutual
theorem solo_sync : (ws : SharedSyncer) → (b : Bench) →
    ws.sync.solo Bench.exec b =
      (some (ws.erase.sync b.trace).1, ⟨(ws.erase.sync b.trace).2, b.busy⟩)
  | .device id, b => solo_callSync id b
  | .writerWrapper id, b => rfl
  | .locked mutex ws, b => by
    rw [sync, solo_critical, solo_sync ws b]
    rfl
  | .multi ws, b => solo_syncAll ws [] b
theorem solo_syncAll : (ws : List SharedSyncer) → (errs : List Bytes) → (b : Bench) →
    (syncAll ws errs).solo Bench.exec b =
      (some (Syncer.syncAll (eraseAll ws) errs b.trace).1,
        ⟨(Syncer.syncAll (eraseAll ws) errs b.trace).2, b.busy⟩)
  | [], _, _ => rfl
  | w :: ws, errs, b => by
    rw [syncAll, Prog.solo_bind, solo_sync w b, Option.elim_some, solo_syncAll ws]
    rfl
end

theorem solo_call (ws : SharedSyncer) (c : SyncerCall) (b : Bench) :
    (ws.call c).solo Bench.exec b =
      (some (ws.erase.call c b.trace).1, ⟨(ws.erase.call c b.trace).2, b.busy⟩) := by
  cases c with
  | write p =>
    rw [call, Prog.solo_bind, solo_write]
    rfl
  | sync =>
    rw [call, Prog.solo_bind, solo_sync]
    rfl

mutual
theorem write_trace : (ws : SharedSyncer) → (p : Bytes) → (tr : List DeviceEvent) →
    (ws.erase.write p tr).2 = tr ++ ws.leaves.map (.write · p)
  | .device _, _, _ => rfl
  | .writerWrapper _, _, _ => rfl
  | .locked _ ws, p, tr => write_trace ws p tr
  | .multi ws, p, tr => writeAll_trace ws p 0 [] tr
theorem writeAll_trace : (ws : List SharedSyncer) → (p : Bytes) → (n : Int) → (errs : List Bytes) →
    (tr : List DeviceEvent) → (Syncer.writeAll (eraseAll ws) p n errs tr).2 =
      tr ++ (allLeaves ws).map (.write · p)
  | [], _, _, _, tr => (List.append_nil tr).symm
  | w :: ws, p, n, errs, tr => by
    rw [allLeaves, List.map_append, ← List.append_assoc, ← write_trace w p tr]
    exact writeAll_trace ws p _ _ _
end

mutual
theorem sync_trace : (ws : SharedSyncer) → (tr : List DeviceEvent) →
    (ws.erase.sync tr).2 = tr ++ ws.synced.map .sync
  | .device _, _ => rfl
  | .writerWrapper _, tr => (List.append_nil tr).symm
  | .locked _ ws, tr => sync_trace ws tr
  | .multi ws, tr => syncAll_trace ws [] tr
theorem syncAll_trace : (ws : List SharedSyncer) → (errs : List Bytes) →
    (tr : List DeviceEvent) → (Syncer.syncAll (eraseAll ws) errs tr).2 =
      tr ++ (allSynced ws).map .sync
  | [], _, tr => (List.append_nil tr).symm
  | w :: ws, errs, tr => by
    rw [allSynced, List.map_append, ← List.append_assoc, ← sync_trace w tr]
    exact syncAll_trace ws _ _
end

theorem call_trace (ws : SharedSyncer) (c : SyncerCall) (tr : List DeviceEvent) :
    (ws.erase.call c tr).2 = tr ++ ws.events c := by
  cases c with
  | write p => exact write_trace ws p tr
  | sync => exact sync_trace ws tr

end SharedSyncer

/-! ### On the way -/

/-- Calls of devices that have ended stay in the trace. -/
theorem Bench.exec_trace (o : DeviceOp) (b : Bench) : b.trace <+: (Bench.exec o b).2.trace := by
  cases o with
  | enter d => exact List.prefix_refl _
  | write d p => exact List.prefix_append _ _
  | sync d => exact List.prefix_append _ _

theorem solo_trace {α : Type} (p : SyncerProg α) (b : Bench) :
    b.trace <+: (p.solo Bench.exec b).2.trace := by
  induction p generalizing b with
  | ret a => exact List.prefix_refl _
  | panic => exact List.prefix_refl _
  | op o next ih =>
    cases o with
    | lock m => exact ih () b
    | unlock m => exact ih () b
    | act a => exact (Bench.exec_trace a b).trans (ih _ _)

theorem reaches_trace {α : Type} {p q : SyncerProg α} {b b' : Bench}
    (h : p.Reaches Bench.exec b q b') : b.trace <+: b'.trace := by
  induction h with
  | refl => exact List.prefix_refl _
  | lock h ih => exact ih
  | unlock h ih => exact ih
  | act h ih => exact ih.trans (Bench.exec_trace _ _)

/-- Inside a call some of its calls of devices have ended. -/
theorem SharedSyncer.reaches_events {ws : SharedSyncer} {c : SyncerCall} {q : SyncerProg SyncerAnswer}
    {b b' : Bench} (h : (ws.call c).Reaches Bench.exec b q b') :
    ∃ evs, evs <+: ws.events c ∧ b'.trace = b.trace ++ evs := by
  obtain ⟨evs, hevs⟩ := reaches_trace h
  obtain ⟨rest, hrest⟩ := solo_trace q b'
  rw [← h.solo_eq, SharedSyncer.solo_call, SharedSyncer.call_trace, ← hevs, List.append_assoc] at hrest
  exact ⟨evs, ⟨rest, List.append_cancel_left hrest⟩, hevs.symm⟩

end Solo

/-! ## How calls are made -/

/-- Programs that call devices, one at a time, and take mutexes below `n`, each below those that it
has. -/
inductive Orderly : Nat → (α : Type) → SyncerProg α → Prop where
  | ret {n : Nat} {α : Type} (a : α) : Orderly n α (.ret a)
  | write {n : Nat} (d : Nat) (p : Bytes) : Orderly n Written (callWrite d p)
  | sync {n : Nat} (d : Nat) : Orderly n (List Bytes) (callSync d)
  | critical {n m : Nat} {α : Type} {p : SyncerProg α} (hm : m < n) (hp : Orderly m α p) :
      Orderly n α (Prog.critical m p)
  | bind {n : Nat} {α β : Type} {p : SyncerProg α} {k : α → SyncerProg β} (hp : Orderly n α p)
      (hk : ∀ a, Orderly n β (k a)) : Orderly n β (p.bind k)

namespace SharedSyncer

mutual
theorem orderly_write {n : Nat} : (ws : SharedSyncer) → (p : Bytes) → ws.Below n →
    Orderly n _ (ws.write p)
  | .device id, p, _ => .write id p
  | .writerWrapper id, p, _ => .write id p
  | .locked _ ws, p, h => .critical h.1 (orderly_write ws p h.2)
  | .multi ws, p, h => orderly_writeAll ws p 0 [] h
theorem orderly_writeAll {n : Nat} : (ws : List SharedSyncer) → (p : Bytes) → (nWritten : Int) →
    (errs : List Bytes) → AllBelow n ws → Orderly n _ (writeAll ws p nWritten errs)
  | [], _, _, _, _ => .ret _
  | w :: ws, p, _, _, h => .bind (orderly_write w p h.1) fun _ => orderly_writeAll ws p _ _ h.2
end

mutual
theorem orderly_sync {n : Nat} : (ws : SharedSyncer) → ws.Below n → Orderly n _ ws.sync
  | .device id, _ => .sync id
  | .writerWrapper _, _ => .ret _
  | .locked _ ws, h => .critical h.1 (orderly_sync ws h.2)
  | .multi ws, h => orderly_syncAll ws [] h
theorem orderly_syncAll {n : Nat} : (ws : List SharedSyncer) → (errs : List Bytes) →
    AllBelow n ws → Orderly n _ (syncAll ws errs)
  | [], _, _ => .ret _
  | w :: ws, _, h => .bind (orderly_sync w h.1) fun _ => orderly_syncAll ws _ h.2
end

theorem orderly_call {n : Nat} {ws : SharedSyncer} (h : ws.Below n) (c : SyncerCall) :
    Orderly n _ (ws.call c) := by
  cases c with
  | write p => exact .bind (orderly_write ws p h) fun _ => .ret _
  | sync => exact .bind (orderly_sync ws h) fun _ => .ret _

end SharedSyncer

namespace Orderly

variable {n : Nat} {α : Type} {p : SyncerProg α}

/-- Mutexes are taken in falling order, and given back. -/
theorem nested (h : Orderly n α p) {hs : List Nat} (hhs : ∀ m ∈ hs, n ≤ m) :
    p.Nested hs fun _ hs' => hs' = hs := by
  induction h generalizing hs with
  | ret a => rfl
  | write d p => exact fun _ _ => rfl
  | sync d => exact fun _ _ => rfl
  | @critical n m α p hm hp ih =>
    refine ⟨fun m' hm' => Nat.lt_of_lt_of_le hm (hhs m' hm'), ?_⟩
    have hall : ∀ m' ∈ m :: hs, m ≤ m' := by
      refine List.forall_mem_cons.mpr ⟨Nat.le_refl m, fun m' hm' => ?_⟩
      exact Nat.le_of_lt (Nat.lt_of_lt_of_le hm (hhs m' hm'))
    change (p.bind _).Nested (m :: hs) _
    rw [Prog.nested_bind]
    exact Prog.wp_mono Prog.nesting_mono (ih hall) fun a hs' hhs' => ⟨hs, hhs', rfl⟩
  | bind hp hk ihp ihk =>
    rw [Prog.nested_bind]
    refine Prog.wp_mono Prog.nesting_mono (ihp hhs) fun a hs' hhs' => ?_
    subst hhs'
    exact ihk a hhs

theorem avoids (h : Orderly n α p) {m : Nat} (hm : n ≤ m) : p.Avoids m := by
  induction h with
  | ret a => trivial
  | write d p => exact fun _ _ => trivial
  | sync d => exact fun _ _ => trivial
  | critical hlt hp ih =>
    have hne := Nat.ne_of_lt (Nat.lt_of_lt_of_le hlt hm)
    exact ⟨hne, Prog.avoids_bind (ih (Nat.le_of_lt (Nat.lt_of_lt_of_le hlt hm)))
      fun _ => ⟨hne, trivial⟩⟩
  | bind hp hk ihp ihk => exact Prog.avoids_bind (ihp hm) fun a => ihk a hm

variable [Devices]

theorem busy (h : Orderly n α p) (b : Bench) : (p.solo Bench.exec b).2.busy = b.busy := by
  induction h generalizing b with
  | ret a => rfl
  | write d p => rw [solo_callWrite]
  | sync d => rw [solo_callSync]
  | critical hlt hp ih =>
    rw [solo_critical]
    exact ih b
  | @bind n α β p k hp hk ihp ihk =>
    rw [Prog.solo_bind]
    have hmid := ihp b
    cases hr : (p.solo Bench.exec b).1 with
    | none => exact hmid
    | some a => exact (ihk a _).trans hmid

/-- No device is called while another one is at work. -/
theorem calm (h : Orderly n α p) {b : Bench} (hb : b.busy = []) :
    p.Always Bench.exec (fun b => b.busy.length ≤ 1) b := by
  have hidle : ∀ {b : Bench}, b.busy = [] → b.busy.length ≤ 1 := by
    intro b hb
    rw [hb]
    exact Nat.zero_le 1
  induction h generalizing b with
  | ret a => exact hidle hb
  | write d p => simp [callWrite, Prog.Always, Bench.exec, hb]
  | sync d => simp [callSync, Prog.Always, Bench.exec, hb]
  | critical hlt hp ih =>
    have hend := hidle ((hp.busy b).trans hb)
    exact ⟨hidle hb, Prog.always_bind (ih hb) fun _ _ => ⟨hend, hend⟩⟩
  | bind hp hk ihp ihk =>
    exact Prog.always_bind (ihp hb) fun a _ => ihk a ((hp.busy b).trans hb)

end Orderly

/-! ## Making syncers -/

theorem SharedSyncer.eraseAll_eq (ws : List SharedSyncer) :
    eraseAll ws = ws.map SharedSyncer.erase := by
  induction ws with
  | nil => rfl
  | cons w ws ih => rw [eraseAll, ih, List.map_cons]

namespace WiredSyncer

variable {n : Nat}

theorem erase_newMultiWriteSyncer (ws : List (WiredSyncer n)) :
    (newMultiWriteSyncer ws).ws.erase = Zapcore.newMultiWriteSyncer (ws.map fun w => w.ws.erase) := by
  match ws with
  | [] => rfl
  | [w] => rfl
  | w₁ :: w₂ :: ws =>
    change Syncer.multi (SharedSyncer.eraseAll _) = Syncer.multi _
    rw [SharedSyncer.eraseAll_eq, List.map_map]
    rfl

theorem erase_lock (w : WiredSyncer n) : w.lock.ws.erase = Zapcore.lock w.ws.erase := by
  obtain ⟨ws, h⟩ := w
  cases ws <;> rfl

/-- The combined syncer is the one of the model without mutexes. -/
theorem erase_combineWriteSyncers [Sinks] (writers : List (WiredSyncer n)) :
    (combineWriteSyncers writers).ws.erase =
      Zap.combineWriteSyncers (writers.map fun w => w.ws.erase) := by
  unfold combineWriteSyncers Zap.combineWriteSyncers
  rw [List.length_map]
  split
  · rfl
  · rw [erase_lock, erase_newMultiWriteSyncer]

/-- It has a mutex around all of its writers. -/
theorem combineWriteSyncers_locked [Sinks] {writers : List (WiredSyncer n)} (hne : writers ≠ []) :
    ∃ m ws, (combineWriteSyncers writers).ws = .locked m ws ∧ ws.Below m := by
  rw [combineWriteSyncers, if_neg (fun h => hne (List.length_eq_zero_iff.mp h))]
  obtain ⟨ws, h⟩ := newMultiWriteSyncer writers
  cases ws with
  | device id => exact ⟨n, .device id, rfl, h⟩
  | writerWrapper id => exact ⟨n, .writerWrapper id, rfl, h⟩
  | locked m ws => exact ⟨m, ws, rfl, h.2⟩
  | multi ws => exact ⟨n, .multi ws, rfl, h⟩

end WiredSyncer

/-! ## Goroutines -/

theorem SharedSyncer.call_locked (m : Nat) (ws : SharedSyncer) (c : SyncerCall) :
    (SharedSyncer.locked m ws).call c = Prog.critical m (ws.call c) := by
  cases c with
  | write p => exact Prog.critical_map (ws.write p) SyncerAnswer.wrote
  | sync => exact Prog.critical_map ws.sync SyncerAnswer.synced

/-- Goroutines that share a locked syncer do all they do with its mutex. -/
theorem sharing_locked {n m : Nat} {ws : SharedSyncer} {w : WiredSyncer n}
    (hw : w.ws = .locked m ws) (todo : List (List SyncerCall)) :
    sharing w todo = .start ⟨[], []⟩ (todo.map (LockThreads.session m ws.call [])) := by
  have hcall : (fun c => w.call c) = fun c => Prog.critical m (ws.call c) := by
    funext c
    rw [WiredSyncer.call, hw, SharedSyncer.call_locked]
  unfold sharing goroutine LockThreads.session
  simp only [Prog.calls_map, hcall]

section

variable [Devices] {m : Nat} {ws : SharedSyncer} {todo : Nat → List SyncerCall}
  {done : List (LockThreads.Made SyncerCall SyncerAnswer)} {t : Bench}
  {st : LockThreads Bench DeviceOp DeviceOp.Res (List SyncerAnswer)}

/-- Calls that were made one after the other are a run of one goroutine. -/
theorem sequential_runs
    (h : LockThreads.Sequential Bench.exec ws.call ⟨[], []⟩ done t) :
    runs ws.erase.call (done.map LockThreads.Made.call) [] =
      (done.map LockThreads.Made.result, t.trace) ∧ t.busy = [] := by
  induction h with
  | nil => exact ⟨rfl, rfl⟩
  | snoc h hd ih =>
    obtain ⟨hruns, hbusy⟩ := ih
    rw [SharedSyncer.solo_call] at hd
    obtain ⟨hresult, rfl⟩ := Prod.mk.inj hd
    refine ⟨?_, hbusy⟩
    rw [List.map_append, List.map_append, List.map_singleton, List.map_singleton, runs_concat, hruns,
      Option.some.inj hresult]

end

/-- An interleaving of goroutines that share a combined syncer is a sequence of calls, and a call that
has the mutex. -/
theorem run_combined [Devices] [Sinks] {n : Nat} {writers : List (WiredSyncer n)}
    (hne : writers ≠ []) {todo : List (List SyncerCall)} {is : List Nat}
    {st : LockThreads Bench DeviceOp DeviceOp.Res (List SyncerAnswer)}
    (hrun : LockThreads.run Bench.exec is (sharing (.combineWriteSyncers writers) todo) = some st) :
    ∃ m ws done t, (WiredSyncer.combineWriteSyncers writers).ws = .locked m ws ∧ ws.Below m ∧
      st.threads.length = todo.length ∧
      st.Serial Bench.exec m ws.call (fun i => todo.getD i []) ⟨[], []⟩ done t := by
  obtain ⟨m, ws, hw, hbelow⟩ := WiredSyncer.combineWriteSyncers_locked hne
  rw [sharing_locked hw] at hrun
  obtain ⟨done, t, h⟩ := LockThreads.run_serial
    (fun c => (SharedSyncer.orderly_call hbelow c).avoids (Nat.le_refl m)) todo hrun
  refine ⟨m, ws, done, t, hw, hbelow, ?_, h⟩
  rw [LockThreads.run_length hrun, LockThreads.start, List.length_map]

theorem Syncer.call_locked [Devices] (ws : Syncer) : (Syncer.locked ws).call = ws.call := by
  funext c tr
  cases c <;> rfl

/-! ### Nobody waits for ever -/

theorem orderly_goroutine {n : Nat} (calls : List (WiredSyncer n × SyncerCall)) :
    Orderly n _ (goroutine calls) := by
  have hcalls : ∀ returned, Orderly n _
      (Prog.calls (fun c : WiredSyncer n × SyncerCall => c.1.call c.2) returned calls) := by
    induction calls with
    | nil => exact fun returned => .ret returned
    | cons c cs ih => exact fun _ => .bind (SharedSyncer.orderly_call c.1.below c.2) fun _ => ih _
  exact hcalls []

theorem disciplined_goroutines {n : Nat} (todo : List (List (WiredSyncer n × SyncerCall))) (b : Bench) :
    (LockThreads.start b (todo.map goroutine)).Disciplined Prog.nesting id
      (fun held owner _ => LockThreads.Holding held owner) (fun _ _ hs => hs = []) fun _ => [] := by
  refine .of_nested fun p hp => ?_
  obtain ⟨calls, -, rfl⟩ := List.mem_map.mp hp
  exact (orderly_goroutine calls).nested (List.forall_mem_nil _)

/-- Goroutines that use any syncers, locked inside one another and shared as they may be: whenever
none of them can go on all have returned, and every run can be completed. -/
theorem syncers_complete [Devices] {n : Nat} (todo : List (List (WiredSyncer n × SyncerCall)))
    (is : List Nat) (st : LockThreads Bench DeviceOp DeviceOp.Res (List SyncerAnswer))
    (hrun : LockThreads.run Bench.exec is (.start ⟨[], []⟩ (todo.map goroutine)) = some st) :
    ((∀ i, LockThreads.step Bench.exec i st = none) → st.Returned) ∧
      ∃ js st', LockThreads.run Bench.exec js st = some st' ∧ st'.Returned := by
  have hl := LockThreads.nesting_locking Bench.exec
  obtain ⟨_, h⟩ := (disciplined_goroutines todo _).run hl hrun
  exact ⟨h.returned_of_stuck hl, h.completes hl⟩

/-- Devices that write what they are given. -/
@[reducible]
def obedient : Devices := ⟨fun _ _ p => (p.length, none), fun _ _ => none⟩

/-- One goroutine is inside both mutexes, the other one waits for the inner one. -/
theorem syncers_complete_nested :
    ∃ st, @LockThreads.run Bench DeviceOp DeviceOp.Res _ (@Bench.exec obedient) [0, 0]
        (.start ⟨[], []⟩ ([[((⟨.locked 1 (.locked 0 (.device 0)), by decide, by decide, trivial⟩ :
          WiredSyncer 2), .sync)], [(⟨.locked 0 (.device 0), by decide, trivial⟩, .sync)]].map
            goroutine)) = some st ∧
      ∃ js st', @LockThreads.run Bench DeviceOp DeviceOp.Res _ (@Bench.exec obedient) js st = some st' ∧
        st'.Returned := by
  obtain ⟨st, hst⟩ := Option.isSome_iff_exists.mp (show Option.isSome (@LockThreads.run Bench DeviceOp
    DeviceOp.Res _ (@Bench.exec obedient) [0, 0] (.start ⟨[], []⟩ ([[((⟨.locked 1 (.locked 0 (.device 0)),
      by decide, by decide, trivial⟩ : WiredSyncer 2), .sync)], [(⟨.locked 0 (.device 0), by decide,
        trivial⟩, .sync)]].map goroutine))) from rfl)
  exact ⟨st, hst, (@syncers_complete obedient 2 _ _ _ hst).2⟩

/-! ### One after the other -/

/-- All goroutines have returned: there is an order of their calls, in which each has its own in the
order in which it made them, such that each got the answers that one goroutine gets that makes the
calls in that order. -/
theorem combined_linearizable [Devices] [Sinks] {n : Nat} (writers : List (WiredSyncer n))
    (hne : writers ≠ []) (todo : List (List SyncerCall)) (is : List Nat)
    (st : LockThreads Bench DeviceOp DeviceOp.Res (List SyncerAnswer))
    (hrun : LockThreads.run Bench.exec is (sharing (.combineWriteSyncers writers) todo) = some st)
    (hret : st.Returned) :
    ∃ done : List (LockThreads.Made SyncerCall SyncerAnswer),
      runs (combineWriteSyncers (writers.map fun w => w.ws.erase)).call
          (done.map LockThreads.Made.call) [] =
        (done.map LockThreads.Made.result, st.state.trace) ∧
      (∀ d ∈ done, d.thread < todo.length) ∧
      ∀ i cs, todo[i]? = some cs →
        (LockThreads.mine i done).map LockThreads.Made.call = cs ∧
          st.threads[i]? = some (.ret ((LockThreads.mine i done).map LockThreads.Made.result)) := by
  obtain ⟨m, ws, done, t, hw, -, hlen, h⟩ := run_combined hne hrun
  have herase := WiredSyncer.erase_combineWriteSyncers writers
  rw [hw, SharedSyncer.erase] at herase
  refine ⟨done, ?_, fun d hd => hlen ▸ h.known hd, fun i cs hcs => ?_⟩
  · rw [← herase, Syncer.call_locked, h.free (h.released hret)]
    exact (sequential_runs h.sequential).1
  · obtain ⟨hlt, -⟩ := List.getElem?_eq_some_iff.mp hcs
    have hi := List.getElem?_eq_getElem (hlen ▸ hlt)
    obtain ⟨hcalls, hq⟩ := h.complete hret hi
    rw [List.getD_eq_getElem?_getD, hcs] at hcalls
    exact ⟨hcalls, hi.trans (congrArg some hq)⟩

/-- Two sinks. -/
def pair : List (WiredSyncer 0) := [⟨.device 0, trivial⟩, ⟨.device 1, trivial⟩]

/-- A registry without sinks. -/
@[reducible]
def noSinks : Sinks := ⟨fun _ _ => .error [], id, 7⟩

/-- Two goroutines that share them. -/
theorem combined_linearizable_pair :
    ∃ is st, @LockThreads.run Bench DeviceOp DeviceOp.Res _ (@Bench.exec obedient) is
        (sharing (@WiredSyncer.combineWriteSyncers 0 noSinks pair) [[.write [1]], [.sync]]) = some st ∧
      st.Returned ∧ ∃ done : List (LockThreads.Made SyncerCall SyncerAnswer),
        runs (@Syncer.call obedient (@combineWriteSyncers noSinks (pair.map fun w => w.ws.erase)))
            (done.map LockThreads.Made.call) [] =
          (done.map LockThreads.Made.result, st.state.trace) := by
  have h := disciplined_goroutines ([[.write [1]], [.sync]].map fun cs : List SyncerCall => cs.map fun c =>
    (@WiredSyncer.combineWriteSyncers 0 noSinks pair, c)) ⟨[], []⟩
  rw [List.map_map] at h
  obtain ⟨is, st, hrun, hret⟩ := h.completes (LockThreads.nesting_locking (@Bench.exec obedient))
  obtain ⟨done, hdone, -⟩ := @combined_linearizable obedient noSinks 0 pair (List.cons_ne_nil _ _)
    [[.write [1]], [.sync]] is st hrun hret
  exact ⟨is, st, hrun, hret, done, hdone⟩

/-! ## What the sinks get -/

/-- The argument of a `Write` of a device. -/
def DeviceEvent.writtenTo (d : Nat) : DeviceEvent → Option Bytes
  | .write d' p => if d' = d then some p else none
  | _ => none

/-- The arguments of the calls of `Write` of a device. -/
def received (d : Nat) (tr : List DeviceEvent) : List Bytes := tr.filterMap (DeviceEvent.writtenTo d)

/-- The argument of a `Write`. -/
def SyncerCall.record : SyncerCall → Option Bytes
  | .write p => some p
  | .sync => none

theorem received_append (d : Nat) (tr tr' : List DeviceEvent) :
    received d (tr ++ tr') = received d tr ++ received d tr' := List.filterMap_append

theorem writtenTo_self (d : Nat) (p : Bytes) : (DeviceEvent.write d p).writtenTo d = some p :=
  if_pos rfl

theorem writtenTo_of_ne {d d' : Nat} (h : d' ≠ d) (p : Bytes) :
    (DeviceEvent.write d' p).writtenTo d = none := if_neg h

theorem received_writes {d : Nat} {ds : List Nat} (hnodup : ds.Nodup) (hd : d ∈ ds) (p : Bytes) :
    received d (ds.map (.write · p)) = [p] := by
  induction ds with
  | nil => cases hd
  | cons d' ds ih =>
    obtain ⟨hnot, hnodup⟩ := List.nodup_cons.mp hnodup
    obtain rfl | hd := List.mem_cons.mp hd
    · -- the rest of the devices are others
      have hrest : received d (ds.map (.write · p)) = [] := by
        refine List.filterMap_eq_nil_iff.mpr fun e he => ?_
        obtain ⟨x, hx, rfl⟩ := List.mem_map.mp he
        refine writtenTo_of_ne ?_ p
        rintro rfl
        exact hnot hx
      rw [List.map_cons, received, List.filterMap_cons_some (writtenTo_self d p)]
      exact congrArg _ hrest
    · have hne : d' ≠ d := by
        rintro rfl
        exact hnot hd
      rw [List.map_cons, received, List.filterMap_cons_none (writtenTo_of_ne hne p)]
      exact ih hnodup hd

/-- Each sink gets the record of a call once. -/
theorem received_events {d : Nat} {ws : SharedSyncer} (hnodup : ws.leaves.Nodup)
    (hd : d ∈ ws.leaves) (c : SyncerCall) : received d (ws.events c) = c.record.toList := by
  cases c with
  | write p => exact received_writes hnodup hd p
  | sync =>
    refine List.filterMap_eq_nil_iff.mpr fun e he => ?_
    obtain ⟨x, -, rfl⟩ := List.mem_map.mp he
    rfl

theorem received_sequential [Devices] {d : Nat} {ws : SharedSyncer} (hnodup : ws.leaves.Nodup)
    (hd : d ∈ ws.leaves) {done : List (LockThreads.Made SyncerCall SyncerAnswer)} {t : Bench}
    (h : LockThreads.Sequential Bench.exec ws.call ⟨[], []⟩ done t) :
    received d t.trace = done.filterMap fun c => c.call.record := by
  induction h with
  | nil => rfl
  | @snoc done t t' c h hc ih =>
    rw [SharedSyncer.solo_call, SharedSyncer.call_trace] at hc
    obtain ⟨-, rfl⟩ := Prod.mk.inj hc
    rw [received_append, ih, received_events hnodup hd, List.filterMap_append]
    cases hrec : c.call.record <;> simp [hrec]

/-- The calls that were made, by whom. -/
def order (done : List (LockThreads.Made SyncerCall SyncerAnswer)) : List (Nat × SyncerCall) :=
  done.map fun d => (d.thread, d.call)

theorem filter_order (done : List (LockThreads.Made SyncerCall SyncerAnswer)) (i : Nat) :
    ((order done).filter (·.1 == i)).map Prod.snd =
      (LockThreads.mine i done).map LockThreads.Made.call := by
  rw [order, List.filter_map, List.map_map]
  rfl

theorem records_order (done : List (LockThreads.Made SyncerCall SyncerAnswer)) :
    (order done).filterMap (·.2.record) = done.filterMap fun d => d.call.record := by
  rw [order, List.filterMap_map]
  rfl

theorem length_record_le (c : SyncerCall) : c.record.toList.length ≤ 1 := by
  cases c with
  | write p => exact Nat.le_refl 1
  | sync => exact Nat.zero_le 1

/-- Goroutines share a combined syncer of one writer or more, whose sinks are all different. At any
point of any interleaving: there is an order of calls, those of each goroutine in the order in which it
makes them, such that every sink has got the records of these calls in this order, the last one perhaps
not yet; and no two calls of sinks are under way. -/
theorem combined_agree [Devices] [Sinks] {n : Nat} (writers : List (WiredSyncer n))
    (hne : writers ≠ [])
    (hnodup : (WiredSyncer.combineWriteSyncers writers).ws.leaves.Nodup)
    (todo : List (List SyncerCall)) (is : List Nat)
    (st : LockThreads Bench DeviceOp DeviceOp.Res (List SyncerAnswer))
    (hrun : LockThreads.run Bench.exec is (sharing (.combineWriteSyncers writers) todo) = some st) :
    st.state.busy.length ≤ 1 ∧
    ∃ order : List (Nat × SyncerCall),
      (∀ i, (order.filter (·.1 == i)).map Prod.snd <+: todo.getD i []) ∧
      ∀ d ∈ (WiredSyncer.combineWriteSyncers writers).ws.leaves,
        received d st.state.trace <+: order.filterMap (·.2.record) ∧
          (order.filterMap (·.2.record)).length ≤ (received d st.state.trace).length + 1 := by
  obtain ⟨m, ws, done, t, hw, hbelow, -, h⟩ := run_combined hne hrun
  rw [hw, SharedSyncer.leaves] at hnodup
  rw [hw, SharedSyncer.leaves]
  have hbusy := (sequential_runs h.sequential).2
  have hmade := h.made_prefix
  cases howner : st.owner m with
  | none =>
    rw [h.free howner, hbusy]
    refine ⟨Nat.zero_le 1, order done, fun i => ?_, fun d hd => ?_⟩
    · rw [filter_order]
      exact hmade i
    · rw [received_sequential hnodup hd h.sequential, records_order]
      exact ⟨List.prefix_refl _, Nat.le_succ _⟩
  | some i =>
    obtain ⟨_, -, c, rest, q, htodo, hreach, -⟩ := h.inside howner
    have hcalm := (SharedSyncer.orderly_call hbelow c).calm hbusy
    obtain ⟨evs, hevs, htrace⟩ := SharedSyncer.reaches_events hreach
    refine ⟨(hcalm.reaches hreach).now, order done ++ [(i, c)], fun j => ?_, fun d hd => ?_⟩
    · rw [List.filter_append, List.map_append, filter_order]
      by_cases hij : i = j
      · subst hij
        refine ⟨rest, ?_⟩
        simp only [List.filter_cons, beq_self_eq_true, if_true, List.filter_nil, List.map_cons,
          List.map_nil, List.append_assoc, List.cons_append, List.nil_append]
        exact htodo.symm
      · simp only [List.filter_cons, beq_eq_false_iff_ne.mpr hij, Bool.false_eq_true, if_false,
          List.filter_nil, List.map_nil, List.append_nil]
        exact hmade j
    · have hlast : [(i, c)].filterMap (·.2.record) = c.record.toList := by
        cases hrec : c.record <;> simp only [List.filterMap_cons, hrec, List.filterMap_nil] <;> rfl
      have hpart : received d evs <+: c.record.toList := by
        rw [← received_events hnodup hd c]
        exact hevs.filterMap _
      rw [htrace, received_append, received_sequential hnodup hd h.sequential, List.filterMap_append,
        records_order, hlast]
      refine ⟨List.prefix_append_right_inj _ |>.mpr hpart, ?_⟩
      have hle := length_record_le c
      simp only [List.length_append]
      omega

/-- One goroutine has written to the first of two sinks. -/
theorem combined_agree_pair :
    ∃ st, @LockThreads.run Bench DeviceOp DeviceOp.Res _ (@Bench.exec obedient) [1, 1, 1]
        (sharing (@WiredSyncer.combineWriteSyncers 0 noSinks pair) [[.write [1]], [.write [2]]]) =
          some st ∧ received 0 st.state.trace = [[2]] ∧ received 1 st.state.trace = [] ∧
      st.state.busy.length ≤ 1 ∧ ∃ order : List (Nat × SyncerCall),
        (∀ i, (order.filter (·.1 == i)).map Prod.snd <+: [[.write [1]], [.write [2]]].getD i []) ∧
        ∀ d ∈ (@WiredSyncer.combineWriteSyncers 0 noSinks pair).ws.leaves,
          received d st.state.trace <+: order.filterMap (·.2.record) ∧
            (order.filterMap (·.2.record)).length ≤ (received d st.state.trace).length + 1 := by
  obtain ⟨st, hst⟩ := Option.isSome_iff_exists.mp (show Option.isSome (@LockThreads.run Bench DeviceOp
    DeviceOp.Res _ (@Bench.exec obedient) [1, 1, 1] (sharing (@WiredSyncer.combineWriteSyncers 0 noSinks
      pair) [[.write [1]], [.write [2]]])) from rfl)
  have hagree := @combined_agree obedient noSinks 0 pair (List.cons_ne_nil _ _) (by decide)
    [[.write [1]], [.write [2]]] _ st hst
  cases hst
  exact ⟨_, rfl, rfl, rfl, hagree⟩

/-- Without a mutex around both, the sinks get the records in different orders. -/
example :
    (@LockThreads.run Bench DeviceOp DeviceOp.Res _ (@Bench.exec obedient) [0, 0, 1, 1, 1, 1, 0, 0]
      (sharing (WiredSyncer.newMultiWriteSyncer pair) [[.write [1]], [.write [2]]])).map
        (fun st => (received 0 st.state.trace, received 1 st.state.trace)) =
      some ([[1], [2]], [[2], [1]]) := rfl

end Zap.Zapcore
