import Zap.Zapcore.BufferedWriteSyncer

/-!
# What reaches the destination of a buffered write syncer

Two facts about every order of critical sections and every behaviour of the destination. Bytes
are accounted for: what the destination took, followed by what is in the buffer, is what the
calls of `Write` acknowledged. Records stay whole: each slice that the destination is given is
the concatenation of consecutive arguments of `Write`.

Both are invariants of the buffer and the destination, kept by each section.
-/

set_option autoImplicit false

namespace Zap.Zapcore

open Data

namespace BufferedWriteSyncer

variable {σ : Type} (ws : WriteSyncer σ) (s : BufferedWriteSyncer σ)

/-- The bytes in the buffer. -/
def buffered : Bytes := s.bufio.writer.buf

theorem put_bufio (b : Bufio.State σ) : (s.put b).bufio = b := rfl

/-! ## Sections as operations on the buffer -/

/-- How a `Write` can go: a flush fails, or the buffer is written to, after a flush if the data
does not fit behind what is in it. -/
inductive Wrote (bs : Bytes) : Nat × Option Bytes → Bufio.State σ → Prop
  | failed {err : Bytes} {b : Bufio.State σ} (h : s.bufio.Flushed ws.toDevice (some err) b) :
      Wrote bs (0, some err) b
  | flushed {b : Bufio.State σ} (h : s.bufio.Flushed ws.toDevice none b) :
      Wrote bs (b.write ws.toDevice bs).1 (b.write ws.toDevice bs).2
  | room (h : ¬(s.bufio.available < bs.length ∧ 0 < s.bufio.writer.buf.length)) :
      Wrote bs (s.bufio.write ws.toDevice bs).1 (s.bufio.write ws.toDevice bs).2

theorem write_wrote (bs : Bytes) :
    ∃ b, (s.write ws bs).2 = s.put b ∧ Wrote ws s bs (s.write ws bs).1 b := by
  unfold write
  by_cases hroom : s.bufio.available < bs.length ∧ 0 < s.bufio.writer.buf.length
  · have hf := s.bufio.flush_flushed ws.toDevice
    simp only [if_pos hroom]
    generalize s.bufio.flush ws.toDevice = r at hf
    obtain ⟨o, b⟩ := r
    cases o with
    | some err => exact ⟨b, rfl, .failed hf⟩
    | none => exact ⟨_, rfl, .flushed hf⟩
  · simp only [if_neg hroom]
    exact ⟨_, rfl, .room hroom⟩

/-- Data for which there is room is copied into the buffer. -/
theorem write_room {bs : Bytes} (h : bs.length ≤ s.bufio.available)
    (herr : s.bufio.writer.err = none) :
    s.write ws bs = ((bs.length, none), s.put (s.bufio.copy bs)) := by
  rw [write, if_neg fun hlt => Nat.not_lt_of_le h hlt.1, Bufio.State.write_fits _ _ h herr]

/-- A `Sync` flushes the buffer; without a buffer there is nothing to flush. -/
theorem sync_flushed :
    ∃ o b, s.bufio.Flushed ws.toDevice o b ∧ (s.sync ws).2.bufio.writer = b.writer ∧
      (s.sync ws).2.port.calls = b.port.calls ∧ ((s.sync ws).1 = [] → o = none) := by
  unfold sync
  cases hw : s.writer with
  | none =>
    refine ⟨none, s.bufio, .nothing ?_ ?_, ?_, rfl, fun _ => rfl⟩
    · simp only [bufio, hw]; rfl
    · simp only [bufio, hw]; rfl
    · simp only [bufio, hw]; rfl
  | some w =>
    refine ⟨_, _, s.bufio.flush_flushed ws.toDevice, rfl, rfl, fun h => ?_⟩
    have herr := (List.append_eq_nil_iff.mp h).1
    exact Option.toList_eq_nil_iff.mp herr

theorem markStopped_bufio : s.markStopped.2.bufio = s.bufio := by
  unfold markStopped
  split
  · rfl
  · split <;> rfl

/-! ## Bytes are accounted for -/

/-- `Write` appends the bytes it acknowledges. -/
theorem write_held (bs : Bytes) :
    (s.write ws bs).2.bufio.held = s.bufio.held ++ bs.take (s.write ws bs).1.1 := by
  obtain ⟨b, hput, hwrote⟩ := s.write_wrote ws bs
  rw [hput, put_bufio]
  generalize (s.write ws bs).1 = r at hwrote
  cases hwrote with
  | failed h => rw [h.held, List.take_zero, List.append_nil]
  | flushed h => rw [(Bufio.State.write_held _ _ bs).2, h.held]
  | room _ => exact (Bufio.State.write_held _ _ bs).2

/-- Two states with one buffer and the same calls hold the same bytes. -/
theorem held_congr {b b' : Bufio.State σ} (hw : b'.writer = b.writer)
    (hc : b'.port.calls = b.port.calls) : b'.held = b.held := by
  simp only [Bufio.State.held, Bufio.Port.delivered, hw, hc]

theorem sync_held : (s.sync ws).2.bufio.held = s.bufio.held := by
  obtain ⟨o, b, hf, hw, hc, _⟩ := s.sync_flushed ws
  rw [held_congr hw hc, hf.held]

theorem step_held (c : Section) :
    (s.step ws c).2.bufio.held = s.bufio.held ++ c.acknowledged (s.step ws c).1 := by
  cases c with
  | write bs => exact s.write_held ws bs
  | sync => exact (s.sync_held ws).trans (List.append_nil _).symm
  | tick => exact (s.sync_held ws).trans (List.append_nil _).symm
  | stop => exact (congrArg Bufio.State.held s.markStopped_bufio).trans (List.append_nil _).symm

theorem run_held (cs : List Section) :
    (run ws cs s).2.bufio.held =
      s.bufio.held ++ (run ws cs s).1.flatMap fun r => r.1.acknowledged r.2 := by
  induction cs generalizing s with
  | nil => exact (List.append_nil _).symm
  | cons c cs ih =>
    simp only [run, ih, s.step_held ws, List.flatMap_cons, List.append_assoc]

/-- Every byte is accounted for: after any sections, what the destination has taken, followed by
what is in the buffer, is what the calls of `Write` acknowledged, in the order of the lock. A
`Sync` that then succeeds leaves nothing in the buffer. -/
theorem bytes_accounted (size : Int) (dev : σ) (cs : List Section) :
    let r := run ws cs (new size dev)
    let acknowledged := r.1.flatMap fun a => a.1.acknowledged a.2
    r.2.port.delivered ++ r.2.buffered = acknowledged ∧
      ((r.2.sync ws).1 = [] →
        (r.2.sync ws).2.buffered = [] ∧ (r.2.sync ws).2.port.delivered = acknowledged) := by
  intro r acknowledged
  have hheld : r.2.port.delivered ++ r.2.buffered = acknowledged := run_held ws (new size dev) cs
  refine ⟨hheld, fun hnil => ?_⟩
  obtain ⟨o, b, hf, hw, _, hnone⟩ := r.2.sync_flushed ws
  rw [hnone hnil] at hf
  have hempty : (r.2.sync ws).2.buffered = [] := (congrArg Bufio.Writer.buf hw).trans hf.none.1
  have hsync := r.2.sync_held ws
  unfold Bufio.State.held at hsync
  rw [show (r.2.sync ws).2.bufio.writer.buf = [] from hempty, List.append_nil] at hsync
  exact ⟨hempty, hsync.trans hheld⟩

/-! ## Records stay whole -/

/-- The arguments of `Write` in groups: each slice that the destination was given is one group
in full, and the slices are in the order of the arguments. -/
structure Grouped (args : List Bytes) (slices : List Bytes) (groups : List (List Bytes))
    (rest : List Bytes) : Prop where
  args_eq : args = groups.flatten ++ rest
  slices_eq : slices = groups.map List.flatten
  ne_nil : ∀ g ∈ groups, g ≠ []

/-- The last arguments become a group of their own. -/
theorem Grouped.close {args slices : List Bytes} {groups : List (List Bytes)} {rest : List Bytes}
    (h : Grouped args slices groups rest) (hne : rest ≠ []) :
    Grouped args (slices ++ [rest.flatten]) (groups ++ [rest]) [] := by
  refine ⟨?_, ?_, ?_⟩
  · rw [h.args_eq, List.flatten_append, List.flatten_singleton, List.append_nil]
  · rw [h.slices_eq, List.map_append, List.map_singleton]
  · intro g hg
    rcases List.mem_append.mp hg with hg | hg
    · exact h.ne_nil g hg
    · rw [List.mem_singleton.mp hg]
      exact hne

theorem Grouped.push {args slices : List Bytes} {groups : List (List Bytes)} {rest : List Bytes}
    (h : Grouped args slices groups rest) (bs : Bytes) :
    Grouped (args ++ [bs]) slices groups (rest ++ [bs]) :=
  ⟨by rw [h.args_eq, List.append_assoc], h.slices_eq, h.ne_nil⟩

/-- As long as there is no error the buffer is what the destination has not been given yet. After
an error the destination is not called again. -/
inductive Whole (args : List Bytes) (b : Bufio.State σ) : Prop
  | running {groups : List (List Bytes)} {rest : List Bytes}
      (h : Grouped args b.port.slices groups rest) (herr : b.writer.err = none)
      (hbuf : b.writer.buf = rest.flatten)
  | failed {groups : List (List Bytes)} {rest : List Bytes} {err : Bytes}
      (h : Grouped args b.port.slices groups rest) (herr : b.writer.err = some err)

variable {args : List Bytes} {b b' : Bufio.State σ}

theorem Whole.grouped (h : Whole args b) : ∃ groups rest, Grouped args b.port.slices groups rest := by
  cases h with
  | running h _ _ => exact ⟨_, _, h⟩
  | failed h _ => exact ⟨_, _, h⟩

/-- Only the buffer and the calls matter. -/
theorem Whole.congr (h : Whole args b) (hw : b'.writer = b.writer)
    (hc : b'.port.calls = b.port.calls) : Whole args b' := by
  have hslices : b'.port.slices = b.port.slices := congrArg (List.map _) hc
  cases h with
  | running h herr hbuf => exact .running (hslices ▸ h) (hw ▸ herr) (hw ▸ hbuf)
  | failed h herr => exact .failed (hslices ▸ h) (hw ▸ herr)

theorem Whole.flushed {d : Bufio.Device σ} {o : Option Bytes} (h : Whole args b)
    (hf : b.Flushed d o b') : Whole args b' := by
  cases hf with
  | kept _ => exact h
  | nothing _ _ => exact h
  | failed hnone hne hr =>
    cases h with
    | failed _ herr => rw [hnone] at herr; cases herr
    | running h _ hbuf =>
      have hclose := h.close fun hnil => hne (by rw [hbuf, hnil]; rfl)
      rw [← hbuf, ← Bufio.Port.write_slices d] at hclose
      exact .failed hclose rfl
  | written hnone hne hr =>
    cases h with
    | failed _ herr => rw [hnone] at herr; cases herr
    | running h herr hbuf =>
      have hclose := h.close fun hnil => hne (by rw [hbuf, hnil]; rfl)
      rw [← hbuf, ← Bufio.Port.write_slices d] at hclose
      exact .running hclose herr rfl

/-- Writing keeps records whole if the data fits or the buffer is empty. -/
theorem Whole.write {d : Bufio.Device σ} (h : Whole args b) {bs : Bytes}
    (hroom : bs.length ≤ b.available ∨ b.writer.buf = []) :
    Whole (args ++ [bs]) (b.write d bs).2 := by
  cases h with
  | failed h herr =>
    rw [Bufio.State.write_err d b herr]
    exact .failed (h.push bs) herr
  | running h herr hbuf =>
    by_cases hfits : bs.length ≤ b.available
    · rw [Bufio.State.write_fits d b hfits herr]
      refine .running (h.push bs) herr ?_
      rw [b.copy_buf hfits, hbuf, List.flatten_append, List.flatten_singleton]
    · -- the arguments that wait are all empty, and go with this one
      have hempty : b.writer.buf = [] := hroom.resolve_left hfits
      rw [Bufio.State.write_direct d b (Nat.lt_of_not_le hfits) herr hempty]
      have hpush := (h.push bs).close (List.append_ne_nil_of_right_ne_nil _ (List.cons_ne_nil _ _))
      rw [List.flatten_append, List.flatten_singleton, ← hbuf, hempty, List.nil_append,
        ← Bufio.Port.write_slices d] at hpush
      cases hr : (b.port.write d bs).1.err with
      | none => exact .running hpush hr hempty
      | some err => exact .failed hpush hr

theorem step_whole {args : List Bytes} (h : Whole args s.bufio) (c : Section) :
    Whole (args ++ c.argument) (s.step ws c).2.bufio := by
  have hsync : Whole args (s.sync ws).2.bufio := by
    obtain ⟨o, b, hf, hw, hc, _⟩ := s.sync_flushed ws
    exact (h.flushed hf).congr hw hc
  cases c with
  | write bs =>
    obtain ⟨b, hput, hwrote⟩ := s.write_wrote ws bs
    have hgoal : Whole (args ++ [bs]) (s.write ws bs).2.bufio := by
      rw [hput, put_bufio]
      generalize (s.write ws bs).1 = r at hwrote
      cases hwrote with
      | failed hf =>
        obtain ⟨groups, rest, hg⟩ := (h.flushed hf).grouped
        exact .failed (hg.push bs) hf.err
      | flushed hf => exact (h.flushed hf).write (.inr hf.none.1)
      | room hroom =>
        refine h.write ?_
        by_cases hfits : bs.length ≤ s.bufio.available
        · exact .inl hfits
        · exact .inr (List.eq_nil_iff_length_eq_zero.mpr (by omega))
    exact hgoal
  | sync => exact (List.append_nil args).symm ▸ hsync
  | tick => exact (List.append_nil args).symm ▸ hsync
  | stop =>
    have hstop : Whole args s.markStopped.2.bufio := s.markStopped_bufio.symm ▸ h
    exact (List.append_nil args).symm ▸ hstop

theorem run_whole {args : List Bytes} (h : Whole args s.bufio) (cs : List Section) :
    Whole (args ++ cs.flatMap Section.argument) (run ws cs s).2.bufio := by
  induction cs generalizing s args with
  | nil => exact (List.append_nil args).symm ▸ h
  | cons c cs ih =>
    have hstep := ih _ (s.step_whole ws h c)
    rw [List.append_assoc] at hstep
    exact hstep

/-- Records stay whole: the slices that the destination is given are the concatenations of
consecutive groups of arguments of `Write`, each of at least one argument. What follows the
groups has not been given to the destination. -/
theorem records_whole (size : Int) (dev : σ) (cs : List Section) :
    ∃ (groups : List (List Bytes)) (rest : List Bytes),
      cs.flatMap Section.argument = groups.flatten ++ rest ∧
      (run ws cs (new size dev)).2.port.slices = groups.map List.flatten ∧
      ∀ g ∈ groups, g ≠ [] := by
  have hnone : Grouped [] (new size dev).bufio.port.slices [] [] := ⟨rfl, rfl, nofun⟩
  obtain ⟨groups, rest, h⟩ := (run_whole ws (new size dev) (.running hnone rfl rfl) cs).grouped
  exact ⟨groups, rest, h.args_eq, h.slices_eq, h.ne_nil⟩

end BufferedWriteSyncer

end Zap.Zapcore
