import Zap.Laws.FlushLoop

/-!
# A destination that has failed

The flush loop drops the errors of its flushes. None is forgotten: the buffer keeps the first error
of the destination (`Bufio.State.Sticky`), and from then on every `Write` and every `Sync` returns
it, and the destination is left alone.
-/

set_option autoImplicit false

namespace Zap.Zapcore

open Data

/-- An answer that tells of an error. A tick and the first section of `Stop` have nothing to tell
it with. -/
def Answer.Fails : Answer → Prop
  | .wrote n err => n = 0 ∧ err ≠ none
  | .synced errs => errs ≠ []
  | .ticked => True
  | .marked _ => True

namespace BufferedWriteSyncer

variable {σ : Type} (ws : WriteSyncer σ) {s : BufferedWriteSyncer σ}

/-! ## The error is kept -/

theorem sticky_congr {b b' : Bufio.State σ} (h : b.Sticky) (hw : b'.writer = b.writer)
    (hc : b'.port.calls = b.port.calls) : b'.Sticky := by
  rintro ⟨c, hmem, herr⟩
  rw [hw]
  exact h ⟨c, hc ▸ hmem, herr⟩

theorem sync_sticky (h : s.bufio.Sticky) : (s.sync ws).2.bufio.Sticky := by
  obtain ⟨o, b, hf, hw, hc, _⟩ := s.sync_flushed ws
  exact sticky_congr (h.flushed hf) hw hc

theorem step_sticky (h : s.bufio.Sticky) (c : Section) : (s.step ws c).2.bufio.Sticky := by
  cases c with
  | write bs =>
    obtain ⟨b, hput, hwrote⟩ := s.write_wrote ws bs
    have hgoal : (s.write ws bs).2.bufio.Sticky := by
      rw [hput, put_bufio]
      generalize (s.write ws bs).1 = r at hwrote
      cases hwrote with
      | failed hf => exact h.flushed hf
      | flushed hf => exact (h.flushed hf).write ws.toDevice bs
      | room _ => exact h.write ws.toDevice bs
    exact hgoal
  | sync => exact sync_sticky ws h
  | tick => exact sync_sticky ws h
  | stop =>
    have hstop : s.markStopped.2.bufio.Sticky := s.markStopped_bufio.symm ▸ h
    exact hstop

/-! ## Sections after an error -/

/-- The buffer has an error. -/
def Broken (s : BufferedWriteSyncer σ) : Prop := ∃ w err, s.writer = some w ∧ w.err = some err

/-- A call of the destination that failed has left its error in the buffer. -/
theorem broken_of_failed (h : s.bufio.Sticky) (hfailed : s.port.Failed) : s.Broken := by
  have herr := h hfailed
  cases hw : s.writer with
  | none =>
    simp only [bufio, hw] at herr
    exact absurd rfl herr
  | some w =>
    simp only [bufio, hw, Option.getD_some] at herr
    obtain ⟨err, hsome⟩ := Option.ne_none_iff_exists'.mp herr
    exact ⟨w, err, hw, hsome⟩

/-- With an error in the buffer, a section fails, does not call `Write` of the destination, and
leaves the error where it is. -/
structure Refuses (s s' : BufferedWriteSyncer σ) (a : Answer) : Prop where
  fails : a.Fails
  calls : s'.port.calls = s.port.calls
  writer : s'.writer = s.writer

theorem write_broken (h : s.Broken) (bs : Bytes) :
    ∃ err, s.write ws bs = ((0, some err), s) := by
  obtain ⟨w, err, hw, herr⟩ := h
  have hbufio : s.bufio.writer.err = some err := by
    simp only [bufio, hw, Option.getD_some, herr]
  have hsame : s.put s.bufio = s := by
    simp only [put, bufio, hw, Option.getD_some]
    rw [← hw]
  have hflush : s.bufio.flush ws.toDevice = (some err, s.bufio) := by
    rw [Bufio.State.flush, hbufio]
  refine ⟨err, ?_⟩
  unfold write
  simp only [hflush, Bufio.State.write_err ws.toDevice s.bufio hbufio, hsame, ite_self]

theorem sync_broken (h : s.Broken) : s.Refuses (s.sync ws).2 (.synced (s.sync ws).1) := by
  obtain ⟨w, err, hw, herr⟩ := h
  have hflush : s.bufio.flush ws.toDevice = (some err, s.bufio) := by
    rw [Bufio.State.flush]
    simp only [bufio, hw, Option.getD_some, herr]
  simp only [sync, hw, hflush]
  refine ⟨?_, rfl, ?_⟩
  · exact List.append_ne_nil_of_left_ne_nil (List.cons_ne_nil _ _) _
  · simp only [put, bufio, hw, Option.getD_some]

theorem step_broken (h : s.Broken) (c : Section) : s.Refuses (s.step ws c).2 (s.step ws c).1 := by
  cases c with
  | write bs =>
    obtain ⟨err, hwrite⟩ := write_broken ws h bs
    simp only [step, hwrite]
    exact ⟨⟨rfl, Option.some_ne_none err⟩, rfl, rfl⟩
  | sync => exact sync_broken ws h
  | tick => exact ⟨trivial, (sync_broken ws h).calls, (sync_broken ws h).writer⟩
  | stop =>
    refine ⟨trivial, ?_, ?_⟩
    · exact congrArg (fun b => b.port.calls) s.markStopped_bufio
    · simp only [step, markStopped]
      split
      · rfl
      · split <;> rfl

end BufferedWriteSyncer

/-! ## Interleavings -/

namespace System

variable {σ : Type} (ws : WriteSyncer σ) {st st' : System σ}

/-- A step leaves the syncer alone or runs one of its sections. -/
theorem step_syncer {a : Action} (h : st.step ws a = some st') :
    st'.syncer = st.syncer ∨ ∃ c, st'.syncer = (st.syncer.step ws c).2 := by
  cases step_stepped h with
  | lockWrite _ => exact .inr ⟨.write _, rfl⟩
  | lockSync _ => exact .inr ⟨.sync, rfl⟩
  | lockStop _ =>
    refine .inr ⟨.stop, ?_⟩
    simp only [lockStop, BufferedWriteSyncer.step]
    split <;> next hmark => simp only [hmark, goto]
  | lockFlush _ => exact .inr ⟨.sync, rfl⟩
  | lockTick _ => exact .inr ⟨.tick, rfl⟩
  | _ => exact .inl rfl

/-- What the section of a step returns to its caller. The flush of a tick returns to nobody, and
the first section of `Stop` has no error to return. -/
def answer (st : System σ) : Action → Option Answer
  | .lockWrite g =>
    match st.goroutines g with
    | .writing bs => some (.wrote (st.syncer.write ws bs).1.1 (st.syncer.write ws bs).1.2)
    | _ => none
  | .lockSync g =>
    match st.goroutines g with
    | .syncing => some (.synced (st.syncer.sync ws).1)
    | _ => none
  | .lockFlush g =>
    match st.goroutines g with
    | .flushing _ => some (.synced (st.syncer.sync ws).1)
    | _ => none
  | _ => none

theorem step_sticky {a : Action} (hstep : st.step ws a = some st') (h : st.syncer.bufio.Sticky) :
    st'.syncer.bufio.Sticky := by
  rcases step_syncer ws hstep with hsame | ⟨c, hc⟩
  · rw [hsame]
    exact h
  · rw [hc]
    exact BufferedWriteSyncer.step_sticky ws h c

theorem run_sticky {as : List Action} (hrun : run ws as st = some st')
    (h : st.syncer.bufio.Sticky) : st'.syncer.bufio.Sticky := by
  induction as generalizing st with
  | nil => cases hrun; exact h
  | cons a as ih =>
    obtain ⟨st₁, hstep, hrest⟩ := Option.bind_eq_some_iff.mp hrun
    exact ih hrest (step_sticky ws hstep h)

theorem step_broken {a : Action} (hstep : st.step ws a = some st') (h : st.syncer.Broken) :
    st'.syncer.Broken ∧ st'.syncer.port.calls = st.syncer.port.calls := by
  rcases step_syncer ws hstep with hsame | ⟨c, hc⟩
  · rw [hsame]
    exact ⟨h, rfl⟩
  · have hrefuses := BufferedWriteSyncer.step_broken ws h c
    obtain ⟨w, err, hw, herr⟩ := h
    rw [hc]
    exact ⟨⟨w, err, hrefuses.writer.trans hw, herr⟩, hrefuses.calls⟩

theorem run_broken {as : List Action} (hrun : run ws as st = some st') (h : st.syncer.Broken) :
    st'.syncer.Broken ∧ st'.syncer.port.calls = st.syncer.port.calls := by
  induction as generalizing st with
  | nil => cases hrun; exact ⟨h, rfl⟩
  | cons a as ih =>
    obtain ⟨st₁, hstep, hrest⟩ := Option.bind_eq_some_iff.mp hrun
    obtain ⟨hbroken, hcalls⟩ := step_broken ws hstep h
    obtain ⟨hbroken', hcalls'⟩ := ih hrest hbroken
    exact ⟨hbroken', hcalls'.trans hcalls⟩

/-- With an error in the buffer, whatever is asked of the syncer fails. -/
theorem answer_fails (h : st.syncer.Broken) {a : Action} {ans : Answer}
    (hans : st.answer ws a = some ans) : ans.Fails := by
  have hsync := (BufferedWriteSyncer.sync_broken ws h).fails
  cases a with
  | lockWrite g =>
    simp only [answer] at hans
    split at hans
    · next bs _ =>
      cases hans
      obtain ⟨err, hwrite⟩ := BufferedWriteSyncer.write_broken ws h bs
      rw [hwrite]
      exact ⟨rfl, Option.some_ne_none err⟩
    · cases hans
  | lockSync g =>
    simp only [answer] at hans
    split at hans
    · cases hans; exact hsync
    · cases hans
  | lockFlush g =>
    simp only [answer] at hans
    split at hans
    · cases hans; exact hsync
    · cases hans
  | _ => cases hans

/-- Once a call of the destination's `Write` has failed, in the flush of a tick or anywhere else, it
is not called again. Whatever happens then, every `Write` returns 0 and an error and every `Sync`
returns an error, and so does the `Stop` that does the cleanup. -/
theorem failure_sticks (size : Int) (dev : σ) {before after : List Action}
    (hrun : run ws before (start size dev) = some st) (hfailed : st.syncer.port.Failed)
    (hrest : run ws after st = some st') :
    st'.syncer.port.calls = st.syncer.port.calls ∧
      (∀ a ans, st'.answer ws a = some ans → ans.Fails) ∧
      ∀ g st'', st'.step ws (.lockFlush g) = some st'' →
        ∃ seen errs, st''.goroutines g = .stopped seen false errs ∧ errs ≠ [] := by
  have hsticky : st.syncer.bufio.Sticky := run_sticky ws hrun fun ⟨_, hmem, _⟩ => by cases hmem
  obtain ⟨hbroken, hcalls⟩ := run_broken ws hrest
    (BufferedWriteSyncer.broken_of_failed hsticky hfailed)
  refine ⟨hcalls, fun a ans => answer_fails ws hbroken, fun g st'' hstep => ?_⟩
  cases step_stepped hstep with
  | lockFlush _ =>
    exact ⟨_, (st'.syncer.sync ws).1, Function.update_self g _ _,
      (BufferedWriteSyncer.sync_broken ws hbroken).fails⟩

/-- A destination that takes nothing. -/
def full : WriteSyncer Unit where
  write := fun _ p => (⟨0, some (utf8 "disk full"), Nat.zero_le _, fun _ => by simp⟩, ())
  sync := fun _ => (none, ())

theorem full_write_record :
    (BufferedWriteSyncer.new 0 ()).write full record =
      ((2, none), (BufferedWriteSyncer.new 0 ()).put
        ((BufferedWriteSyncer.new 0 ()).bufio.copy record)) :=
  BufferedWriteSyncer.write_room _ _ (by decide) rfl

/-- A tick fails to flush a record that `Write` has acknowledged, and `Stop` tells of it. -/
theorem failure_sticks_tick :
    ∃ st st', run full [.callWrite 0 record, .lockWrite 0, .returnWrite 0, .tick, .lockTick]
        (start 0 ()) = some st ∧
      run full [.callStop 1, .lockStop 1, .receiveStop, .receiveDone 1] st = some st' ∧
      st.syncer.port.Failed ∧ st'.answer full (.lockFlush 1) = some (.synced (st'.syncer.sync full).1) ∧
      (st'.syncer.sync full).1 ≠ [] := by
  have hcalls : (BufferedWriteSyncer.sync full
      ((BufferedWriteSyncer.new 0 ()).write full record).2).2.port.calls =
        [⟨record, 0, some (utf8 "disk full")⟩] := by
    rw [full_write_record]
    rfl
  obtain ⟨st, hrun, hfailed, st', hrest, hans⟩ : ∃ st, run full
      [.callWrite 0 record, .lockWrite 0, .returnWrite 0, .tick, .lockTick] (start 0 ()) = some st ∧
      st.syncer.port.Failed ∧ ∃ st', run full
        [.callStop 1, .lockStop 1, .receiveStop, .receiveDone 1] st = some st' ∧
        st'.answer full (.lockFlush 1) = some (.synced (st'.syncer.sync full).1) :=
    ⟨_, rfl, ⟨_, hcalls.symm ▸ List.mem_singleton_self _, Option.some_ne_none _⟩, _, rfl, rfl⟩
  exact ⟨st, st', hrun, hrest, hfailed, hans,
    (failure_sticks full 0 () hrun hfailed hrest).2.1 _ _ hans⟩

end System

end Zap.Zapcore
