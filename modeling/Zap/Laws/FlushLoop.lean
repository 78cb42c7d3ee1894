import Zap.Laws.BufferedWriteSyncer
import Zap.Zapcore.FlushLoop

/-!
# Stopping a buffered write syncer

When `Stop` returns without an error, what had been acknowledged before it was called has reached
the destination, unless `Stop` found the syncer stopped already: then it returns at once, whether
or not an earlier `Stop` is still at work and whatever was written since.

`Sound` is the invariant. It holds in every interleaving, for every destination.
-/

set_option autoImplicit false

namespace Zap.Zapcore

open Data

namespace BufferedWriteSyncer

variable {σ : Type} (ws : WriteSyncer σ) (s : BufferedWriteSyncer σ)

theorem write_delivered (bs : Bytes) :
    s.port.delivered <+: (s.write ws bs).2.port.delivered := by
  obtain ⟨b, hput, hwrote⟩ := s.write_wrote ws bs
  rw [hput]
  refine Bufio.Port.delivered_mono ?_
  generalize (s.write ws bs).1 = r at hwrote
  cases hwrote with
  | failed h => exact h.calls
  | flushed h => exact h.calls.trans (Bufio.State.write_calls _ _ bs)
  | room _ => exact Bufio.State.write_calls ws.toDevice s.bufio bs

theorem sync_delivered : s.port.delivered <+: (s.sync ws).2.port.delivered := by
  obtain ⟨o, b, hf, _, hc, _⟩ := s.sync_flushed ws
  exact Bufio.Port.delivered_mono (hc ▸ hf.calls)

/-- A `Sync` without errors delivers everything. -/
theorem sync_nil (h : (s.sync ws).1 = []) : (s.sync ws).2.port.delivered = s.bufio.held := by
  obtain ⟨o, b, hf, hw, _, hnone⟩ := s.sync_flushed ws
  rw [hnone h] at hf
  have hempty : (s.sync ws).2.bufio.writer.buf = [] := (congrArg Bufio.Writer.buf hw).trans hf.none.1
  rw [← s.sync_held ws, Bufio.State.held, hempty, List.append_nil]
  rfl

/-- When the first section of `Stop` does nothing, and when it marks the syncer. -/
theorem markStopped_eq :
    s.markStopped = (false, s) ∧ s.writer = none ∨ s.markStopped = (false, s) ∧ s.stopped = true ∨
      s.markStopped = (true, { s with stopped := true }) := by
  unfold markStopped
  split
  · next hw => exact .inl ⟨rfl, hw⟩
  · split
    · next hs => exact .inr (.inl ⟨rfl, hs⟩)
    · exact .inr (.inr rfl)

end BufferedWriteSyncer

/-- The calls of `Write` that a goroutine refers to. -/
def Goroutine.known : Goroutine → List Nat
  | .wrote i => [i]
  | .stopping seen => seen
  | .waiting seen => seen
  | .flushing seen => seen
  | .stopped seen _ _ => seen
  | _ => []

namespace System

variable {σ : Type} (ws : WriteSyncer σ) (st : System σ)

/-! ## Steps -/

/-- What a step can do. -/
inductive Stepped : Action → System σ → Prop
  | callWrite {g : Nat} {bs : Bytes} (hg : st.goroutines g = .idle) :
      Stepped (.callWrite g bs) (st.goto g (.writing bs))
  | lockWrite {g : Nat} {bs : Bytes} (hg : st.goroutines g = .writing bs) :
      Stepped (.lockWrite g) (st.lockWrite ws g bs)
  | returnWrite {g i : Nat} (hg : st.goroutines g = .wrote i) :
      Stepped (.returnWrite g) (goto { st with returned := i :: st.returned } g .idle)
  | callSync {g : Nat} (hg : st.goroutines g = .idle) :
      Stepped (.callSync g) (st.goto g .syncing)
  | lockSync {g : Nat} (hg : st.goroutines g = .syncing) :
      Stepped (.lockSync g) (st.lockSync ws g .synced)
  | returnSync {g : Nat} {errs : List Bytes} (hg : st.goroutines g = .synced errs) :
      Stepped (.returnSync g) (st.goto g .idle)
  | callStop {g : Nat} (hg : st.goroutines g = .idle) :
      Stepped (.callStop g) (st.goto g (.stopping st.returned))
  | lockStop {g : Nat} {seen : List Nat} (hg : st.goroutines g = .stopping seen) :
      Stepped (.lockStop g) (st.lockStop g seen)
  | receiveDone {g : Nat} {seen : List Nat} (hg : st.goroutines g = .waiting seen)
      (hdone : 0 < st.doneClosed) : Stepped (.receiveDone g) (st.goto g (.flushing seen))
  | lockFlush {g : Nat} {seen : List Nat} (hg : st.goroutines g = .flushing seen) :
      Stepped (.lockFlush g) (st.lockSync ws g (.stopped seen false))
  | returnStop {g : Nat} {seen : List Nat} {already : Bool} {errs : List Bytes}
      (hg : st.goroutines g = .stopped seen already errs) :
      Stepped (.returnStop g) (st.goto g .idle)
  | tick (hloop : st.loop = .selecting) : Stepped .tick { st with loop := .syncing }
  | lockTick (hloop : st.loop = .syncing) :
      Stepped .lockTick { st with syncer := (st.syncer.sync ws).2, loop := .selecting }
  | receiveStop (hloop : st.loop = .selecting) (hstop : 0 < st.stopClosed) :
      Stepped .receiveStop { st with loop := .returned, doneClosed := st.doneClosed + 1 }

variable {ws st} in
theorem step_stepped {a : Action} {st' : System σ} (h : st.step ws a = some st') :
    Stepped ws st a st' := by
  cases a with
  | receiveDone g =>
    simp only [step] at h
    split at h
    · next hg =>
      split at h
      · next hdone => cases h; exact .receiveDone hg hdone
      · cases h
    · cases h
  | receiveStop =>
    simp only [step] at h
    split at h
    · next hloop =>
      split at h
      · next hstop => cases h; exact .receiveStop hloop hstop
      · cases h
    · cases h
  | _ =>
    simp only [step] at h
    split at h
    · next hat => cases h; constructor; exact hat
    · cases h

/-- The bytes that calls of `Write` acknowledged. -/
def acknowledged (writes : List (Bytes × Nat)) : Bytes := writes.flatMap fun w => w.1.take w.2

/-- The bytes of these calls of `Write`, and of all before them, have been delivered. -/
def Durable (seen : List Nat) : Prop :=
  ∀ i ∈ seen, acknowledged (st.writes.take (i + 1)) <+: st.syncer.port.delivered

/-- The invariant of the system. -/
structure Sound : Prop where
  held : st.syncer.bufio.held = acknowledged st.writes
  unused : st.syncer.writer = none → st.writes = []
  known : ∀ g, ∀ i ∈ (st.goroutines g).known, i < st.writes.length
  returned : ∀ i ∈ st.returned, i < st.writes.length
  durable : ∀ g seen, st.goroutines g = .stopped seen false [] → st.Durable seen

theorem sound_start (size : Int) (dev : σ) : (start size dev).Sound where
  held := rfl
  unused := fun _ => rfl
  known := fun _ => nofun
  returned := nofun
  durable := fun _ _ h => by cases h

variable {st}

theorem Durable.grow {st' : System σ} {seen : List Nat} (h : st.Durable seen)
    (hseen : ∀ i ∈ seen, i < st.writes.length) (hwrites : st.writes <+: st'.writes)
    (hdel : st.syncer.port.delivered <+: st'.syncer.port.delivered) : st'.Durable seen := by
  intro i hi
  obtain ⟨rest, hrest⟩ := hwrites
  rw [← hrest, List.take_append_of_le_length (hseen i hi)]
  exact (h i hi).trans hdel

/-- A goroutine moves on, and the others stay where they are. -/
theorem forall_goto {P : Nat → Goroutine → Prop} {g : Nat} {next : Goroutine} (hnext : P g next)
    (h : ∀ g', P g' (st.goroutines g')) : ∀ g', P g' ((st.goto g next).goroutines g') :=
  (Function.forall_update_iff st.goroutines P).mpr ⟨hnext, fun g' _ => h g'⟩

theorem Sound.goto (h : st.Sound) (g : Nat) {next : Goroutine}
    (hknown : ∀ i ∈ next.known, i < st.writes.length)
    (hdurable : ∀ seen, next = .stopped seen false [] → st.Durable seen) :
    (st.goto g next).Sound where
  held := h.held
  unused := h.unused
  known := forall_goto (P := fun _ x => ∀ i ∈ x.known, i < st.writes.length) hknown h.known
  returned := h.returned
  durable := forall_goto (P := fun _ x => ∀ seen, x = .stopped seen false [] → st.Durable seen)
    hdurable h.durable

/-- A goroutine moves on and keeps to the calls it knows. -/
theorem Sound.follow (h : st.Sound) {g : Nat} {now next : Goroutine} (hg : st.goroutines g = now)
    (hknown : next.known ⊆ now.known) (hnot : ∀ seen, next ≠ .stopped seen false []) :
    (st.goto g next).Sound :=
  h.goto g (fun i hi => h.known g i (hg ▸ hknown hi)) fun seen he => absurd he (hnot seen)

/-- Sections that write nothing. -/
theorem Sound.section (h : st.Sound) {syncer : BufferedWriteSyncer σ}
    (hheld : syncer.bufio.held = st.syncer.bufio.held)
    (hunused : syncer.writer = none → st.syncer.writer = none)
    (hdel : st.syncer.port.delivered <+: syncer.port.delivered) :
    System.Sound { st with syncer } where
  held := hheld.trans h.held
  unused := fun hnone => h.unused (hunused hnone)
  known := h.known
  returned := h.returned
  durable := fun g seen hg => (h.durable g seen hg).grow
    (fun i hi => h.known g i (by rw [hg]; exact hi)) List.prefix_rfl hdel

theorem Sound.sync (h : st.Sound) : System.Sound { st with syncer := (st.syncer.sync ws).2 } := by
  refine h.section (st.syncer.sync_held ws) (fun hnone => ?_) (st.syncer.sync_delivered ws)
  cases hw : st.syncer.writer with
  | none => rfl
  | some w =>
    simp only [BufferedWriteSyncer.sync, hw] at hnone
    cases hnone

theorem Sound.lockWrite (h : st.Sound) (g : Nat) (bs : Bytes) : (st.lockWrite ws g bs).Sound := by
  have hlen : (st.writes ++ [(bs, (st.syncer.write ws bs).1.1)]).length = st.writes.length + 1 := by
    rw [List.length_append, List.length_singleton]
  have hwrote : System.Sound { st with
      syncer := (st.syncer.write ws bs).2, loop := st.started
      writes := st.writes ++ [(bs, (st.syncer.write ws bs).1.1)] } := by
    refine ⟨?_, fun hnone => ?_, fun g' i hi => ?_, fun i hi => ?_, fun g' seen hg' => ?_⟩
    · rw [st.syncer.write_held ws, h.held]
      simp only [acknowledged, List.flatMap_append, List.flatMap_singleton]
    · obtain ⟨b, hput, _⟩ := st.syncer.write_wrote ws bs
      rw [hput] at hnone
      cases hnone
    · exact hlen ▸ Nat.lt_succ_of_lt (h.known g' i hi)
    · exact hlen ▸ Nat.lt_succ_of_lt (h.returned i hi)
    · exact (h.durable g' seen hg').grow (fun i hi => h.known g' i (by rw [hg']; exact hi))
        (List.prefix_append _ _) (st.syncer.write_delivered ws bs)
  refine hwrote.goto g (fun i hi => ?_) nofun
  rw [List.mem_singleton.mp hi, hlen]
  exact Nat.lt_succ_self _

theorem Sound.lockStop (h : st.Sound) {g : Nat} {seen : List Nat}
    (hg : st.goroutines g = .stopping seen) : (st.lockStop g seen).Sound := by
  have hseen : ∀ i ∈ seen, i < st.writes.length := fun i hi => h.known g i (by rw [hg]; exact hi)
  rcases st.syncer.markStopped_eq with ⟨hmark, hw⟩ | ⟨hmark, hs⟩ | hmark
  · -- nothing was ever written
    simp only [System.lockStop, hmark]
    refine h.goto g hseen fun seen' he => ?_
    injection he with hsame
    intro i hi
    have hlt := hseen i (hsame ▸ hi)
    rw [h.unused hw] at hlt
    cases hlt
  · simp only [System.lockStop, hmark, hs]
    exact h.goto g hseen nofun
  · have hsec : System.Sound { st with syncer := { st.syncer with stopped := true } } :=
      h.section rfl id List.prefix_rfl
    have hclosed : System.Sound { st with
        syncer := { st.syncer with stopped := true }, stopClosed := st.stopClosed + 1 } :=
      ⟨hsec.held, hsec.unused, hsec.known, hsec.returned, hsec.durable⟩
    simp only [System.lockStop, hmark]
    exact hclosed.goto g hseen nofun

/-- The `Sync` at the end of `Stop`. -/
theorem Sound.lockFlush (h : st.Sound) {g : Nat} {seen : List Nat}
    (hg : st.goroutines g = .flushing seen) :
    (st.lockSync ws g (.stopped seen false)).Sound := by
  refine (h.sync ws).goto g (fun i hi => h.known g i (by rw [hg]; exact hi)) fun seen' he => ?_
  have hnil : (st.syncer.sync ws).1 = [] := by
    injection he
  intro i _
  rw [st.syncer.sync_nil ws hnil, h.held]
  unfold acknowledged
  refine ⟨(st.writes.drop (i + 1)).flatMap fun w => w.1.take w.2, ?_⟩
  rw [← List.flatMap_append, List.take_append_drop]

/-- Every step keeps the invariant. -/
theorem Sound.step (h : st.Sound) {a : Action} {st' : System σ} (hstep : st.step ws a = some st') :
    st'.Sound := by
  cases step_stepped hstep with
  | callWrite hg => exact h.follow hg (List.nil_subset _) nofun
  | lockWrite hg => exact h.lockWrite ws _ _
  | @returnWrite g i hg =>
    have hi : i < st.writes.length := h.known g i (by rw [hg]; exact List.mem_singleton_self i)
    have hreturned : System.Sound { st with returned := i :: st.returned } :=
      ⟨h.held, h.unused, h.known, List.forall_mem_cons.mpr ⟨hi, h.returned⟩, h.durable⟩
    exact hreturned.goto g nofun nofun
  | callSync hg => exact h.follow hg (List.nil_subset _) nofun
  | lockSync hg => exact (h.sync ws).goto _ nofun nofun
  | returnSync hg => exact h.follow hg (List.nil_subset _) nofun
  | callStop hg => exact h.goto _ h.returned nofun
  | lockStop hg => exact h.lockStop hg
  | receiveDone hg _ => exact h.follow hg (List.Subset.refl _) nofun
  | lockFlush hg => exact h.lockFlush ws hg
  | returnStop hg => exact h.follow hg (List.nil_subset _) nofun
  | tick _ => exact ⟨h.held, h.unused, h.known, h.returned, h.durable⟩
  | lockTick _ =>
    have hsync := h.sync ws
    exact ⟨hsync.held, hsync.unused, hsync.known, hsync.returned, hsync.durable⟩
  | receiveStop _ _ => exact ⟨h.held, h.unused, h.known, h.returned, h.durable⟩

theorem Sound.run (h : st.Sound) {as : List Action} {st' : System σ}
    (hrun : System.run ws as st = some st') : st'.Sound := by
  induction as generalizing st with
  | nil => cases hrun; exact h
  | cons a as ih =>
    obtain ⟨st₁, hstep, hrest⟩ := Option.bind_eq_some_iff.mp hrun
    exact ih (h.step ws hstep) hrest

/-- In every interleaving, when `Stop` is about to return without an error and did not find the
syncer stopped already, every byte that was acknowledged by a `Write` that had returned before
this `Stop` was called has been delivered. -/
theorem stop_durable (size : Int) (dev : σ) {as : List Action}
    (hrun : System.run ws as (start size dev) = some st) {g : Nat} {seen : List Nat}
    (hg : st.goroutines g = .stopped seen false []) : st.Durable seen :=
  ((sound_start size dev).run ws hrun).durable g seen hg

/-- A destination that never fails. -/
def perfect : WriteSyncer Unit where
  write := fun _ p => (⟨p.length, none, Nat.le_refl _, fun h => absurd h (Nat.lt_irrefl _)⟩, ())
  sync := fun _ => (none, ())

/-- A record. -/
def record : Bytes := [0x61, 0x0A]

/-- One goroutine has written a record, and another stops the syncer. -/
def beforeFlush : List Action :=
  [.callWrite 0 record, .lockWrite 0, .returnWrite 0, .callStop 1, .lockStop 1]

theorem write_record :
    (BufferedWriteSyncer.new 0 ()).write perfect record =
      ((2, none), (BufferedWriteSyncer.new 0 ()).put
        ((BufferedWriteSyncer.new 0 ()).bufio.copy record)) :=
  BufferedWriteSyncer.write_room _ _ (by decide) rfl

theorem stop_durable_record :
    ∃ st, System.run perfect (beforeFlush ++ [.receiveStop, .receiveDone 1, .lockFlush 1])
        (start 0 ()) = some st ∧
      st.goroutines 1 = .stopped [0] false [] ∧ st.Durable [0] := by
  have hsync : (BufferedWriteSyncer.sync perfect
      { ((BufferedWriteSyncer.new 0 ()).write perfect record).2 with stopped := true }).1 = [] := by
    rw [write_record]
    rfl
  obtain ⟨st, hrun, hg⟩ : ∃ st, System.run perfect
      (beforeFlush ++ [.receiveStop, .receiveDone 1, .lockFlush 1]) (start 0 ()) = some st ∧
      st.goroutines 1 = .stopped [0] false [] :=
    ⟨_, rfl, congrArg (Goroutine.stopped [0] false) hsync⟩
  exact ⟨st, hrun, hg, stop_durable perfect 0 () hrun hg⟩

/-- A second `Stop` returns without an error while the first has not flushed the buffer. -/
theorem stop_returns_early :
    ∃ st, System.run perfect (beforeFlush ++ [.callStop 2, .lockStop 2]) (start 0 ()) = some st ∧
      st.goroutines 2 = .stopped [0] true [] ∧ ¬st.Durable [0] := by
  refine ⟨_, rfl, rfl, fun hdurable => ?_⟩
  have h : acknowledged [(record, ((BufferedWriteSyncer.new 0 ()).write perfect record).1.1)] <+:
      ((BufferedWriteSyncer.new 0 ()).write perfect record).2.port.delivered :=
    hdurable 0 (List.mem_singleton_self 0)
  rw [write_record] at h
  exact absurd h (by decide)

end System

end Zap.Zapcore
