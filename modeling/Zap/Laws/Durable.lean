import Zap.Laws.FlushLoop
import Zap.Laws.Programs
import Zap.Laws.Terminal
import Zap.Zapcore.BufferedOutputs

/-!
# What is written before a crash

After an entry above the error level the process may end, in `OnWrite`, without any chance to flush
buffers. So `ioCore.Write` syncs its destination after such an entry. Here the destinations are
`BufferedWriteSyncer`s, whose flush loops may run at any time: when the terminal hook of the entry is
called, all that was ever written to a destination of the entry has been delivered, unless a call of
`Write` below the buffer has failed (`entry_durable`).

A destination keeps what it was given (`Holds`), and a `Sync` delivers it (`Delivered`). Both leave
room for a failure below, which the buffer remembers.
-/

set_option autoImplicit false

namespace Zap.Zapcore

open Data

/-! ## One destination -/

namespace BufferedWriteSyncer

variable {σ : Type} (ws : WriteSyncer σ) {s : BufferedWriteSyncer σ} {bytes : Bytes}

/-- The destination has taken some bytes, or has them in its buffer, unless a call below failed. -/
def Holds (s : BufferedWriteSyncer σ) (bytes : Bytes) : Prop :=
  s.port.Failed ∨ (s.bufio.writer.err = none ∧ s.bufio.held = bytes)

/-- All of some bytes have been delivered, unless a call below failed. -/
def Delivered (s : BufferedWriteSyncer σ) (bytes : Bytes) : Prop :=
  s.port.Failed ∨ (s.bufio.writer.err = none ∧ s.buffered = [] ∧ s.port.delivered = bytes)

theorem Delivered.holds (h : s.Delivered bytes) : s.Holds bytes := by
  refine h.imp_right fun ⟨herr, hbuf, hbytes⟩ => ⟨herr, ?_⟩
  have hempty : s.bufio.writer.buf = [] := hbuf
  rw [Bufio.State.held, hempty, List.append_nil]
  exact hbytes

theorem Holds.truthful (h : s.Holds bytes) : s.bufio.Truthful := by
  intro hne
  rcases h with hfailed | ⟨herr, _⟩
  · exact hfailed
  · exact absurd herr hne

/-- `Write` returns the error that the buffer then keeps. -/
theorem write_answer (bs : Bytes) : (s.write ws bs).1.2 = (s.write ws bs).2.bufio.writer.err := by
  obtain ⟨b, hput, hwrote⟩ := s.write_wrote ws bs
  rw [hput, put_bufio]
  generalize (s.write ws bs).1 = r at hwrote
  cases hwrote with
  | failed hf => exact hf.err.symm
  | flushed _ => exact (Bufio.State.write_spec _ _ bs).1
  | room _ => exact (Bufio.State.write_spec _ _ bs).1

theorem write_calls (bs : Bytes) : s.port.calls <+: (s.write ws bs).2.port.calls := by
  obtain ⟨b, hput, hwrote⟩ := s.write_wrote ws bs
  rw [hput]
  generalize (s.write ws bs).1 = r at hwrote
  cases hwrote with
  | failed hf => exact hf.calls
  | flushed hf => exact hf.calls.trans (Bufio.State.write_calls _ _ bs)
  | room _ => exact Bufio.State.write_calls ws.toDevice s.bufio bs

/-- What `Write` leaves behind tells the truth, and without an error it has taken all. -/
theorem write_truthful (h : s.bufio.Truthful) (bs : Bytes) :
    (s.write ws bs).2.bufio.Truthful ∧
      ((s.write ws bs).1.2 = none → (s.write ws bs).1.1 = bs.length) := by
  obtain ⟨b, hput, hwrote⟩ := s.write_wrote ws bs
  rw [hput, put_bufio]
  generalize (s.write ws bs).1 = r at hwrote
  cases hwrote with
  | failed hf => exact ⟨h.flushed hf, fun hnone => by cases hnone⟩
  | @flushed b hf =>
    obtain ⟨_, hfull, htruth⟩ := Bufio.State.write_spec ws.toDevice b bs
    exact ⟨htruth (h.flushed hf), hfull⟩
  | room _ =>
    obtain ⟨_, hfull, htruth⟩ := Bufio.State.write_spec ws.toDevice s.bufio bs
    exact ⟨htruth h, hfull⟩

/-- What is written is held. -/
theorem Holds.write (h : s.Holds bytes) (bs : Bytes) : (s.write ws bs).2.Holds (bytes ++ bs) := by
  obtain ⟨htruth, hfull⟩ := write_truthful ws h.truthful bs
  rcases h with hfailed | ⟨_, hheld⟩
  · exact .inl (hfailed.mono (write_calls ws bs))
  · cases hanswer : (s.write ws bs).1.2 with
    | some err =>
      refine .inl (htruth ?_)
      rw [← write_answer, hanswer]
      exact Option.some_ne_none err
    | none =>
      refine .inr ⟨(write_answer ws bs).symm.trans hanswer, ?_⟩
      rw [s.write_held ws, hheld, hfull hanswer, List.take_length]

/-- A `Sync` delivers what is held. -/
theorem Holds.sync (h : s.Holds bytes) : (s.sync ws).2.Delivered bytes := by
  obtain ⟨o, b, hf, hw, hc, _⟩ := s.sync_flushed ws
  have hcalls : s.port.calls <+: (s.sync ws).2.port.calls := hc ▸ hf.calls
  have hfails : b.port.Failed → (s.sync ws).2.port.Failed := fun hb =>
    hb.mono (hc ▸ List.prefix_rfl)
  have htruth := h.truthful.flushed hf
  rcases h with hfailed | ⟨_, hheld⟩
  · exact .inl (hfailed.mono hcalls)
  · cases o with
    | some err => exact .inl (hfails (htruth (hf.err ▸ Option.some_ne_none err)))
    | none =>
      obtain ⟨hbuf, herr⟩ := hf.none
      have hempty : (s.sync ws).2.bufio.writer.buf = [] := hw ▸ hbuf
      have hsame := s.sync_held ws
      rw [Bufio.State.held, hempty, List.append_nil, hheld] at hsame
      exact .inr ⟨hw ▸ herr, hempty, hsame⟩

/-- Sections one after the other. -/
theorem run_append (cs ds : List Section) :
    (run ws (cs ++ ds) s).2 = (run ws ds (run ws cs s).2).2 := by
  induction cs generalizing s with
  | nil => rfl
  | cons c cs ih => exact ih

/-- The flush loop keeps what is held, and delivers it at some time. -/
theorem Holds.ticks (h : s.Holds bytes) (n : Nat) :
    (run ws (List.replicate n .tick) s).2.Holds bytes := by
  induction n generalizing s with
  | zero => exact h
  | succ n ih => exact ih (h.sync ws).holds

theorem Delivered.ticks (h : s.Delivered bytes) (n : Nat) :
    (run ws (List.replicate n .tick) s).2.Delivered bytes := by
  induction n generalizing s with
  | zero => exact h
  | succ n ih => exact ih (h.holds.sync ws)

end BufferedWriteSyncer

/-! ## A destination along a trace -/

namespace BufferedOutputs

variable {σ E F : Type} (p : BufferedOutputs σ E F) (out : Nat)

/-- One more event: the flush loop, and the call that the event stands for. -/
theorem state_concat (trace : List (Event E F)) (e : Event E F) :
    p.state out (trace ++ [e]) =
      (BufferedWriteSyncer.run (p.ws out) (p.calls out e) (p.ready out trace)).2 := by
  unfold ready state sections
  rw [history_concat, BufferedWriteSyncer.run_append, BufferedWriteSyncer.run_append]

theorem written_concat (trace : List (Event E F)) (e : Event E F) :
    p.written out (trace ++ [e]) =
      p.written out trace ++ ((p.calls out e).flatMap Section.argument).flatten := by
  unfold written
  rw [List.flatMap_append, List.flatMap_singleton, List.flatMap_append, List.flatten_append]

/-- An event is at most one call of a destination, of `Write` or of `Sync`. -/
theorem calls_cases (e : Event E F) :
    p.calls out e = [] ∨ (∃ bs, p.calls out e = [.write bs]) ∨ p.calls out e = [.sync] := by
  unfold calls
  split
  next o buf => by_cases h : o = out <;> simp [h]
  next o r => by_cases h : o = out <;> simp [h]
  next o => by_cases h : o = out <;> simp [h]
  next => exact .inl rfl

section

variable {p out} {trace : List (Event E F)} {e : Event E F}

/-- An event that is not for the destination. -/
theorem concat_other (h : p.calls out e = []) :
    p.state out (trace ++ [e]) = p.ready out trace ∧
      p.written out (trace ++ [e]) = p.written out trace := by
  rw [state_concat, written_concat, h]
  exact ⟨rfl, List.append_nil _⟩

theorem concat_write {bs : Bytes} (h : p.calls out e = [.write bs]) :
    p.state out (trace ++ [e]) = ((p.ready out trace).write (p.ws out) bs).2 ∧
      p.written out (trace ++ [e]) = p.written out trace ++ bs := by
  rw [state_concat, written_concat, h]
  exact ⟨rfl, congrArg (p.written out trace ++ ·) (List.append_nil bs)⟩

theorem concat_sync (h : p.calls out e = [.sync]) :
    p.state out (trace ++ [e]) = ((p.ready out trace).sync (p.ws out)).2 ∧
      p.written out (trace ++ [e]) = p.written out trace := by
  rw [state_concat, written_concat, h]
  exact ⟨rfl, List.append_nil _⟩

end

/-- A destination holds what was written to it. -/
theorem holds (trace : List (Event E F)) : (p.state out trace).Holds (p.written out trace) := by
  induction trace using List.reverseRecOn with
  | nil => exact .inr ⟨rfl, rfl⟩
  | append_singleton trace e ih =>
    have hready : (p.ready out trace).Holds (p.written out trace) :=
      ih.ticks (p.ws out) (p.ticks out trace)
    rcases p.calls_cases out e with h | ⟨bs, h⟩ | h
    · rw [(concat_other h).1, (concat_other h).2]
      exact hready
    · rw [(concat_write h).1, (concat_write h).2]
      exact hready.write (p.ws out) bs
    · rw [(concat_sync h).1, (concat_sync h).2]
      exact (hready.sync (p.ws out)).holds

/-- … also when it gets its next call. -/
theorem holds_ready (trace : List (Event E F)) :
    (p.ready out trace).Holds (p.written out trace) :=
  (p.holds out trace).ticks (p.ws out) (p.ticks out trace)

/-- Everything that was written to a destination has been delivered. -/
def Durable (trace : List (Event E F)) : Prop := (p.state out trace).Delivered (p.written out trace)

variable {p out}

/-- After a `Sync` everything has been delivered. -/
theorem durable_sync {trace : List (Event E F)} {e : Event E F} (h : p.calls out e = [.sync]) :
    p.Durable out (trace ++ [e]) := by
  unfold Durable
  rw [(concat_sync h).1, (concat_sync h).2]
  exact (p.holds_ready out trace).sync (p.ws out)

/-- An event that is not for the destination changes nothing, and the flush loop has nothing to do. -/
theorem Durable.concat {trace : List (Event E F)} (h : p.Durable out trace) {e : Event E F}
    (he : p.calls out e = []) : p.Durable out (trace ++ [e]) := by
  unfold Durable
  rw [(concat_other he).1, (concat_other he).2]
  exact h.ticks (p.ws out) (p.ticks out trace)

/-- A `Write` that returns an error has failed below. -/
theorem durable_of_error {trace : List (Event E F)} {buf err : Bytes}
    (h : ((p.ready out trace).write (p.ws out) buf).1.2 = some err) :
    p.Durable out (trace ++ [.output out buf]) := by
  have hwrite : p.calls out (.output out buf) = [.write buf] := if_pos rfl
  have htruth := ((p.holds_ready out trace).write (p.ws out) buf).truthful
  unfold Durable
  rw [(concat_write hwrite).1]
  refine .inl (htruth ?_)
  rw [← BufferedWriteSyncer.write_answer, h]
  exact Option.some_ne_none err

end BufferedOutputs

/-! ## Writing an entry -/

section

variable {σ E F : Type} [Encoder E F] [Environment E F] {p : BufferedOutputs σ E F}

/-- The destinations answer a `Write` as their buffers do. -/
def BufferedOutputs.Answers (p : BufferedOutputs σ E F) : Prop :=
  ∀ trace out buf, Environment.write trace out buf = ((p.ready out trace).write (p.ws out) buf).1.2

/-- From one world to another, everything that is durable stays so, and what was written to becomes
durable. -/
structure Settles (p : BufferedOutputs σ E F) (w w' : World E F) (outs : List (Nat × Bytes)) :
    Prop where
  outputs : outputsOf w'.trace = outputsOf w.trace ++ outs
  keeps : ∀ out, p.Durable out w.trace → p.Durable out w'.trace
  durable : ∀ o ∈ outs, p.Durable o.1 w'.trace

namespace Settles

variable {w w' w'' : World E F} {outs outs' : List (Nat × Bytes)}

omit [Encoder E F] [Environment E F] in
theorem refl (w : World E F) : Settles p w w [] :=
  ⟨(List.append_nil _).symm, fun _ h => h, List.forall_mem_nil _⟩

omit [Encoder E F] [Environment E F] in
theorem trans (h : Settles p w w' outs) (h' : Settles p w' w'' outs') :
    Settles p w w'' (outs ++ outs') where
  outputs := by rw [h'.outputs, h.outputs, List.append_assoc]
  keeps out hout := h'.keeps out (h.keeps out hout)
  durable := List.forall_mem_append.mpr ⟨fun o ho => h'.keeps o.1 (h.durable o ho), h'.durable⟩

omit [Encoder E F] [Environment E F] in
/-- A call that is not for a destination. -/
theorem emit (w : World E F) {e : Event E F} (he : ∀ out, p.calls out e = [])
    (hout : outputsOf [e] = []) : Settles p w (w.emit e) [] where
  outputs := List.filterMap_append.trans (congrArg (outputsOf w.trace ++ ·) hout)
  keeps out h := h.concat (he out)
  durable := List.forall_mem_nil _

omit [Encoder E F] [Environment E F] in
/-- Calls of `Write` of one destination with a `Sync` in the end. -/
theorem emit_sync {e : Event E F} {o : Nat} (he : ∀ out, o ≠ out → p.calls out e = [])
    (h : ∀ x ∈ outputsOf [e], x.1 = o) (w : World E F) :
    Settles p w ((w.emit e).emit (.sync o)) (outputsOf [e]) := by
  have hsync : p.Durable o ((w.emit e).emit (.sync o)).trace :=
    BufferedOutputs.durable_sync (if_pos rfl)
  refine ⟨?_, fun out hout => ?_, fun x hx => (h x hx).symm ▸ hsync⟩
  · rw [World.emit, World.emit, List.append_assoc]
    exact List.filterMap_append
  · by_cases heq : o = out
    · exact heq ▸ hsync
    · exact (hout.concat (he out heq)).concat (if_neg heq)

omit [Encoder E F] [Environment E F] in
/-- A report is synced as well. -/
theorem report (out : Nat) (r : Report) (w : World E F) :
    Settles p w ((w.emit (.report out r)).emit (.sync out)) [] :=
  .emit_sync (e := .report out r) (fun _ h => if_neg h) (List.forall_mem_nil _) w

end Settles

omit [Encoder E F] in
theorem runHooks_settles (ent : Entry) (funcs : List Nat) (w : World E F) :
    Settles p w (w.runHooks ent funcs).2 [] := by
  induction funcs generalizing w with
  | nil => exact .refl w
  | cons f funcs ih =>
    exact (Settles.emit w (fun _ => rfl) rfl).trans (ih (w.emit (.hook f ent)))

/-- An entry above the error level: a `Write` that succeeds is followed by a `Sync`, and one that
does not has failed below. -/
theorem IoCore.write_settles (henv : p.Answers) (core : IoCore E) {ent : Entry}
    (hlvl : Level.error < ent.level) (fields : List F) (w : World E F) :
    ∃ outs, Settles p w (core.write ent fields w).2 outs := by
  have hwrite : Settles p w (w.emit (.write core ent fields)) [] := .emit w (fun _ => rfl) rfl
  unfold IoCore.write
  cases henc : Encoder.encodeEntry core.enc ent fields with
  | error err => exact ⟨[], hwrite⟩
  | ok buf =>
    have hother : ∀ out, core.out ≠ out → p.calls out (.output core.out buf) = [] := fun out h =>
      if_neg h
    have hout : ∀ x ∈ outputsOf [Event.output (E := E) (F := F) core.out buf], x.1 = core.out :=
      List.forall_mem_singleton.mpr rfl
    cases herr : Environment.write (w.emit (.write core ent fields)).trace core.out buf with
    | none =>
      simp only [World.output, herr, Option.toList_none, if_pos hlvl]
      exact ⟨_, hwrite.trans (.emit_sync hother hout _)⟩
    | some err =>
      simp only [World.output, herr, Option.toList_some]
      rw [henv] at herr
      have hdur := BufferedOutputs.durable_of_error herr
      refine ⟨_, hwrite.trans ⟨List.filterMap_append, fun out h => ?_,
        fun x hx => (hout x hx).symm ▸ hdur⟩⟩
      by_cases heq : core.out = out
      · exact heq ▸ hdur
      · exact h.concat (hother out heq)

theorem writeCores_settles (henv : p.Answers) {ent : Entry} (hlvl : Level.error < ent.level)
    (fields : List F) {cores : List ((b : Bool) × Core E F b)}
    (h : ∀ core ∈ cores, (Kind.of core).isSome) (w : World E F) :
    ∃ outs, Settles p w (CheckedEntry.writeCores ent fields cores w).2 outs :=
  CheckedEntry.writeCores_keeps (R := fun w _ w' => ∃ outs, Settles p w w' outs)
    (fun w => ⟨[], .refl w⟩) (fun ⟨_, h⟩ ⟨_, h'⟩ => ⟨_, h.trans h'⟩)
    (fun core w => core.write_settles henv hlvl fields w)
    (fun funcs w => ⟨[], runHooks_settles ent funcs w⟩) h w

/-- `Write`, up to the hook of `After` and with it. -/
theorem CheckedEntry.Ready.write_settles (henv : p.Answers) {ce : CheckedEntry E F}
    {after : Option CheckWriteHook} (h : ce.Ready after) (hlvl : Level.error < ce.entry.level)
    (fields : List F) (w : World E F) :
    ∃ outs, Settles p w (CheckedEntry.write (some ce) fields w) outs := by
  obtain ⟨outs, hcores⟩ := writeCores_settles henv hlvl fields h.cores w
  obtain ⟨w', htold, hlast⟩ := CheckedEntry.write_cases h.dirty h.before fields w
  have hreport : ∃ outs, Settles p w w' outs := by
    rcases htold with ⟨rfl, _⟩ | ⟨_, out, _, rfl⟩
    · exact ⟨outs, hcores⟩
    · exact ⟨_, hcores.trans (.report out _ _)⟩
  obtain ⟨outs, hreport⟩ := hreport
  rw [hlast]
  cases ce.after with
  | none => exact ⟨outs, hreport⟩
  | some hook => exact ⟨_, hreport.trans (.emit _ (fun _ => rfl) rfl)⟩

end

end Zap.Zapcore

namespace Zap

open Data Zapcore

variable {σ E F V : Type}

namespace Logger

variable [Encoder E F] [Environment E F] [Process E F]

/-- The entry of a message has its level. -/
theorem check_level (log : Logger E F) (lvl : Level) (msg : Bytes) (w : World E F)
    {ce : CheckedEntry E F} (h : (log.check lvl msg w).1 = some ce) : ce.entry.level = lvl := by
  rcases log.check_cases lvl msg w with ⟨hc, _⟩ | ⟨_, hc⟩ | ⟨cores, _, hc⟩
  · rw [hc] at h
    cases h
  · rw [hc] at h
    obtain ⟨hook, _, rfl⟩ := Option.map_eq_some_iff.mp h
    rfl
  · rw [hc] at h
    cases h
    obtain ⟨⟨caller, stack, hce⟩, _⟩ := log.annotate_cases (log.entry lvl msg w)
      ⟨log.entry lvl msg w, none, false, log.terminal lvl, cores, []⟩
      (log.core.check (log.entry lvl msg w) none w).2
    rw [hce]
    rfl

/-- An entry above the error level, written at whatever time. -/
theorem write_settles {p : BufferedOutputs σ E F} (henv : p.Answers) (log : Logger E F)
    {lvl : Level} (hlvl : Level.error < lvl) (msg : Bytes) (w : World E F) (fields : List F)
    (w' : World E F) :
    ∃ outs, Settles p w' (CheckedEntry.write (log.check lvl msg w).1 fields w') outs := by
  rcases (log.check_checks lvl msg w).ready with ⟨hnone, _⟩ | ⟨ce, hsome, hready⟩
  · rw [hnone]
    exact ⟨[], .refl w'⟩
  · rw [hsome]
    exact hready.write_settles henv ((log.check_level lvl msg w hsome).symm ▸ hlvl) fields w'

end Logger

/-- There is no level between the error and the development panic level. -/
theorem not_lt_dpanic {lvl : Level} (h : Level.error < lvl) : ¬lvl < Level.dpanic := by
  rw [Int8.lt_iff_toInt_lt] at h ⊢
  have herror : Level.error.toInt = 2 := rfl
  have hdpanic : Level.dpanic.toInt = 3 := rfl
  omega

namespace LogCall

variable [Encoder E F] [Environment E F] [Process E F] [Format F V]

/-- Above the error level no method returns early: it checks, makes its fields and writes. -/
theorem run_write (call : LogCall F V) (hlvl : Level.error < call.method.level) (log : Logger E F)
    (w : World E F) :
    ∃ fields w', call.run log w =
      CheckedEntry.write (log.check call.method.level call.message w).1 fields w' := by
  have hsugared : ∀ lvl msg (context : List (Arg F V)), Level.error < lvl → ∃ fields w',
      (if lvl < Level.dpanic && !log.core.enabled lvl then w
        else SugaredLogger.write ⟨log⟩ lvl msg context w) =
        CheckedEntry.write (log.check lvl msg w).1 fields w' := by
    intro lvl msg context hlvl
    have hge : (decide (lvl < Level.dpanic) && !log.core.enabled lvl) = false := by
      rw [decide_eq_false (not_lt_dpanic hlvl), Bool.false_and]
    rw [if_neg (Bool.eq_false_iff.mp hge), SugaredLogger.write]
    generalize log.check lvl msg w = r
    obtain ⟨_ | ce, w'⟩ := r
    · exact ⟨[], w', rfl⟩
    · exact ⟨_, _, rfl⟩
  cases call with
  | log method msg fields => exact ⟨fields, _, rfl⟩
  | print method args => exact hsugared _ _ _ hlvl
  | printf method template args => exact hsugared _ _ _ hlvl
  | printw method msg keysAndValues => exact hsugared _ _ _ hlvl
  | println method args => exact hsugared _ _ _ hlvl

end LogCall

/-- Every destination of a logger is a `BufferedWriteSyncer`. An entry above the error level is
written, at any time after it was checked: when its terminal hook runs, each destination that the
entry went to has an empty buffer and has delivered everything that was ever written to it, unless a
call of `Write` below that buffer has failed. Every method of a logger and of a sugared logger writes
such an entry in that way. -/
theorem entry_durable [Encoder E F] [Process E F] [Format F V] (p : BufferedOutputs σ E F)
    (log : Logger E F) {lvl : Level} (hlvl : Level.error < lvl) :
    let _ := p.environment
    (∀ msg w fields w', ∃ outs,
      outputsOf (CheckedEntry.write (log.check lvl msg w).1 fields w').trace =
          outputsOf w'.trace ++ outs ∧
        ∀ o ∈ outs,
          let s := p.state o.1 (CheckedEntry.write (log.check lvl msg w).1 fields w').trace
          s.port.Failed ∨ s.buffered = [] ∧ s.port.delivered =
            p.written o.1 (CheckedEntry.write (log.check lvl msg w).1 fields w').trace) ∧
    ∀ (call : LogCall F V) (w : World E F), call.method.level = lvl → ∃ fields w',
      call.run log w = CheckedEntry.write (log.check lvl call.message w).1 fields w' := by
  intro _
  have henv : p.Answers := fun _ _ _ => rfl
  refine ⟨fun msg w fields w' => ?_, ?_⟩
  · obtain ⟨outs, hsettles⟩ := log.write_settles henv hlvl msg w fields w'
    refine ⟨outs, hsettles.outputs, fun o ho => ?_⟩
    exact (hsettles.durable o ho).imp_right And.right
  · rintro call w rfl
    exact call.run_write hlvl log w

/-- A fatal message, over a buffer whose flush loop runs before every call. -/
theorem entry_durable_fatal :
    let _ : Encoder Unit Unit := ⟨fun enc _ => enc, fun _ ent _ => .ok ent.message⟩
    let _ : Process Unit Unit := ⟨fun _ _ => .ofUnixNano 0 Location.utc, fun _ _ _ => [], 0, 0, 0⟩
    let _ : Format Unit Unit := ⟨fun _ => [], fun _ _ => [], fun _ => [], fun _ _ => (),
      fun _ => (), fun _ => ()⟩
    let p : BufferedOutputs Unit Unit Unit := ⟨fun _ => System.perfect, fun _ => (), fun _ => 0,
      fun _ _ => 1, fun _ => [], fun _ _ _ => none⟩
    let _ := p.environment
    let log := { (Logger.newNop : Logger Unit Unit) with core := newCore () 0 (.level Level.debug) }
    Level.error < Level.fatal ∧ ∃ outs,
      outputsOf (log.log .fatal (utf8 "bye") [] World.start).trace = [] ++ outs ∧
        ∀ o ∈ outs,
          let s := p.state o.1 (log.log .fatal (utf8 "bye") [] World.start).trace
          s.port.Failed ∨ s.buffered = [] ∧ s.port.delivered =
            p.written o.1 (log.log .fatal (utf8 "bye") [] World.start).trace := by
  intro _ _ _ p _ log
  have hlvl : Level.error < Level.fatal := by decide
  exact ⟨hlvl, (entry_durable p log hlvl).1 (utf8 "bye") World.start []
    (log.check Level.fatal (utf8 "bye") World.start).2⟩

end Zap
