import Zap.Laws.FlushLoop
import Zap.Zapcore.Mutex

/-!
# Stopping does not deadlock

The mutex, the two channels and the flush loop, for any number of goroutines. `System.Orderly`
relates the channels and the flush loop to the flags of the syncer, and `Locked.Safe` the mutex to
where the processes are. Both hold in every interleaving.

When a `Stop` waits for the flush loop, the channel `stop` is closed. The loop may be waiting for
the mutex, because it has received a tick. But whoever holds the mutex can go on and give it back,
and the waiting `Stop` does not hold it. So there is always a way for the loop to end.
-/

set_option autoImplicit false

namespace Zap.Zapcore

open Data

/-- How often a flush loop at this point has closed the channel `done`. -/
def FlushLoop.closings : FlushLoop → Nat
  | .returned => 1
  | _ => 0

namespace BufferedWriteSyncer

variable {σ : Type} (ws : WriteSyncer σ) (s : BufferedWriteSyncer σ)

theorem write_flags (bs : Bytes) :
    (s.write ws bs).2.writer ≠ none ∧ (s.write ws bs).2.stopped = s.stopped := by
  obtain ⟨b, hput, _⟩ := s.write_wrote ws bs
  rw [hput]
  exact ⟨Option.some_ne_none _, rfl⟩

theorem sync_flags :
    ((s.sync ws).2.writer = none ↔ s.writer = none) ∧ (s.sync ws).2.stopped = s.stopped := by
  unfold sync
  cases hw : s.writer with
  | none => exact ⟨by simp only [hw], rfl⟩
  | some w => exact ⟨by simp [put], rfl⟩

/-- `Stop` marks the syncer once, and only if it was initialized. -/
theorem markStopped_cases :
    s.markStopped = (false, s) ∨
      s.writer ≠ none ∧ s.stopped = false ∧ s.markStopped = (true, { s with stopped := true }) := by
  unfold markStopped
  split
  · exact .inl rfl
  · next hw =>
    split
    · exact .inl rfl
    · next hs => exact .inr ⟨hw ▸ Option.some_ne_none _, Bool.not_eq_true _ ▸ hs, rfl⟩

end BufferedWriteSyncer

namespace System

variable {σ : Type} (ws : WriteSyncer σ) {st st' : System σ}

/-! ## Flags and channels -/

/-- The channels and the flush loop are as the flags of the syncer say. -/
structure Orderly (st : System σ) : Prop where
  unstarted : st.loop = .unstarted ↔ st.syncer.writer = none
  initialized : st.syncer.stopped = true → st.syncer.writer ≠ none
  stopClosed : st.stopClosed = if st.syncer.stopped then 1 else 0
  doneClosed : st.doneClosed = st.loop.closings
  returned : st.loop = .returned → st.syncer.stopped = true
  waiting : ∀ g seen, st.goroutines g = .waiting seen → st.syncer.stopped = true

theorem orderly_start (size : Int) (dev : σ) : (start size dev).Orderly where
  unstarted := ⟨fun _ => rfl, fun _ => rfl⟩
  initialized := fun h => by cases h
  stopClosed := rfl
  doneClosed := rfl
  returned := fun h => by cases h
  waiting := fun _ _ h => by cases h

/-- A goroutine moves on, and does not begin to wait. -/
theorem Orderly.goto (h : st.Orderly) (g : Nat) {next : Goroutine}
    (hnext : ∀ seen, next = .waiting seen → st.syncer.stopped = true) : (st.goto g next).Orderly :=
  ⟨h.unstarted, h.initialized, h.stopClosed, h.doneClosed, h.returned,
    forall_goto (P := fun _ x => ∀ seen, x = .waiting seen → st.syncer.stopped = true) hnext h.waiting⟩

/-- A `Sync` changes no flag. -/
theorem Orderly.sync (h : st.Orderly) :
    System.Orderly { st with syncer := (st.syncer.sync ws).2 } := by
  obtain ⟨hwriter, hstopped⟩ := st.syncer.sync_flags ws
  refine ⟨?_, ?_, ?_, h.doneClosed, ?_, ?_⟩
  · rw [hwriter]
    exact h.unstarted
  · rw [hstopped, Ne, hwriter]
    exact h.initialized
  · rw [hstopped]
    exact h.stopClosed
  · rw [hstopped]
    exact h.returned
  · rw [hstopped]
    exact h.waiting

/-- The first `Write` starts the flush loop. -/
theorem Orderly.lockWrite (h : st.Orderly) (g : Nat) (bs : Bytes) : (st.lockWrite ws g bs).Orderly := by
  obtain ⟨hwriter, hstopped⟩ := st.syncer.write_flags ws bs
  have hwrote : System.Orderly { st with
      syncer := (st.syncer.write ws bs).2, loop := st.started
      writes := st.writes ++ [(bs, (st.syncer.write ws bs).1.1)] } := by
    unfold started
    cases hw : st.syncer.writer with
    | none =>
      have hloop : st.loop = .unstarted := h.unstarted.mpr hw
      refine ⟨⟨fun he => (by cases he), fun he => absurd he hwriter⟩, fun _ => hwriter, ?_, ?_,
        fun he => (by cases he), ?_⟩
      · simp only [hstopped]
        exact h.stopClosed
      · have := h.doneClosed
        rw [hloop] at this
        exact this
      · simp only [hstopped]
        exact h.waiting
    | some w =>
      have hloop : st.loop ≠ .unstarted := fun he => by
        rw [h.unstarted.mp he] at hw
        cases hw
      refine ⟨⟨fun he => absurd he hloop, fun he => absurd he hwriter⟩, fun _ => hwriter, ?_,
        h.doneClosed, ?_, ?_⟩
      · simp only [hstopped]
        exact h.stopClosed
      · simp only [hstopped]
        exact h.returned
      · simp only [hstopped]
        exact h.waiting
  exact hwrote.goto g fun seen he => by cases he

/-- The first section of `Stop` closes the channel once. -/
theorem Orderly.lockStop (h : st.Orderly) (g : Nat) (seen : List Nat) :
    (st.lockStop g seen).Orderly := by
  rcases st.syncer.markStopped_cases with hmark | ⟨hw, hs, hmark⟩
  · simp only [System.lockStop, hmark]
    exact h.goto g fun _ he => by cases he
  · have hclosed : st.stopClosed = 0 := by
      rw [h.stopClosed, hs]
      rfl
    have hmarked : System.Orderly { st with
        syncer := { st.syncer with stopped := true }, stopClosed := st.stopClosed + 1 } :=
      ⟨h.unstarted, fun _ => hw, by rw [hclosed]; rfl, h.doneClosed, fun _ => rfl, fun _ _ _ => rfl⟩
    simp only [System.lockStop, hmark]
    exact hmarked.goto g fun _ _ => rfl

/-- A flush loop was started by a `Write`, which has made the writer. -/
theorem Orderly.started (h : st.Orderly) (hloop : st.loop ≠ .unstarted) :
    st.syncer.writer ≠ none :=
  fun hw => hloop (h.unstarted.mpr hw)

theorem Orderly.step (h : st.Orderly) {a : Action} (hstep : st.step ws a = some st') :
    st'.Orderly := by
  have stays : ∀ g {next : Goroutine}, (∀ seen, next ≠ .waiting seen) → (st.goto g next).Orderly :=
    fun g _ hne => h.goto g fun seen he => absurd he (hne seen)
  cases step_stepped hstep with
  | callWrite _ => exact stays _ fun _ he => by cases he
  | lockWrite _ => exact h.lockWrite ws _ _
  | @returnWrite g i _ =>
    have hreturned : System.Orderly { st with returned := i :: st.returned } :=
      ⟨h.unstarted, h.initialized, h.stopClosed, h.doneClosed, h.returned, h.waiting⟩
    exact hreturned.goto g fun _ he => by cases he
  | callSync _ => exact stays _ fun _ he => by cases he
  | lockSync _ => exact (h.sync ws).goto _ fun _ he => by cases he
  | returnSync _ => exact stays _ fun _ he => by cases he
  | callStop _ => exact stays _ fun _ he => by cases he
  | lockStop _ => exact h.lockStop _ _
  | receiveDone _ _ => exact stays _ fun _ he => by cases he
  | lockFlush _ => exact (h.sync ws).goto _ fun _ he => by cases he
  | returnStop _ => exact stays _ fun _ he => by cases he
  | tick hloop =>
    have hstarted := h.started (by rw [hloop]; exact fun he => (by cases he))
    refine ⟨⟨fun he => (by cases he), fun he => absurd he hstarted⟩, h.initialized, h.stopClosed, ?_,
      fun he => (by cases he), h.waiting⟩
    have hdone := h.doneClosed
    rw [hloop] at hdone
    exact hdone
  | lockTick hloop =>
    have hsync := h.sync ws
    have hstarted := hsync.started (show st.loop ≠ _ by rw [hloop]; exact fun he => (by cases he))
    refine ⟨⟨fun he => (by cases he), fun he => absurd he hstarted⟩, hsync.initialized,
      hsync.stopClosed, ?_, fun he => (by cases he), hsync.waiting⟩
    have hdone := h.doneClosed
    rw [hloop] at hdone
    exact hdone
  | receiveStop hloop hstop =>
    have hstarted := h.started (by rw [hloop]; exact fun he => (by cases he))
    have hstopped : st.syncer.stopped = true := by
      cases hs : st.syncer.stopped with
      | true => rfl
      | false =>
        rw [h.stopClosed, hs] at hstop
        exact absurd hstop (Nat.lt_irrefl 0)
    refine ⟨⟨fun he => (by cases he), fun he => absurd he hstarted⟩, h.initialized, h.stopClosed, ?_,
      fun _ => hstopped, h.waiting⟩
    have hdone := h.doneClosed
    rw [hloop] at hdone
    rw [hdone]
    rfl

/-! ## Who is at a section -/

/-- A goroutine that takes a step leaves the others where they are. -/
theorem atSection_goto (st : System σ) {g : Nat} (next : Goroutine) {p : Process}
    (hp : p ≠ .goroutine g) : (st.goto g next).atSection p = st.atSection p := by
  cases p with
  | goroutine g' =>
    have hne : g' ≠ g := fun he => hp (congrArg Process.goroutine he)
    simp only [System.atSection, System.goto, Function.update_of_ne hne]
  | loop => rfl

theorem atSection_goto_self (st : System σ) (g : Nat) (next : Goroutine) :
    (st.goto g next).atSection (.goroutine g) = next.atSection := by
  simp only [System.atSection, System.goto, Function.update_self]

/-- Only its own steps take a process to a section or away from it. -/
theorem step_atSection (h : st.Orderly) {a : Action} (hstep : st.step ws a = some st')
    {p : Process} (hp : p ≠ a.process) : st'.atSection p = st.atSection p := by
  cases step_stepped hstep with
  | lockWrite _ =>
    refine (atSection_goto _ _ hp).trans ?_
    cases p with
    | goroutine g' => rfl
    | loop =>
      -- The loop that a first `Write` starts is not at a section, nor was it before.
      simp only [System.atSection, started]
      cases hw : st.syncer.writer with
      | none => rw [h.unstarted.mpr hw]; rfl
      | some w => rfl
  | lockStop _ =>
    simp only [lockStop]
    split <;> exact atSection_goto _ _ hp
  | tick _ =>
    cases p with
    | goroutine g' => rfl
    | loop => exact absurd rfl hp
  | lockTick _ =>
    cases p with
    | goroutine g' => rfl
    | loop => exact absurd rfl hp
  | receiveStop _ _ =>
    cases p with
    | goroutine g' => rfl
    | loop => exact absurd rfl hp
  | _ => exact atSection_goto _ _ hp

/-- Who has done its section is at none. -/
theorem step_section {a : Action} (hstep : st.step ws a = some st') (ha : a.isSection = true) :
    st'.atSection a.process = false := by
  cases step_stepped hstep with
  | lockWrite _ => exact atSection_goto_self _ _ _
  | lockSync _ => exact atSection_goto_self _ _ _
  | lockStop _ =>
    simp only [lockStop]
    split <;> exact atSection_goto_self _ _ _
  | lockFlush _ => exact atSection_goto_self _ _ _
  | lockTick _ => rfl
  | _ => cases ha

/-- A goroutine that is at a section can do it. The flush loop stays where it is, if it was started,
and a syncer that is stopped stays so. -/
theorem section_enabled {g : Nat} (hg : st.atSection (.goroutine g) = true) :
    ∃ a st', a.isSection = true ∧ a.process = .goroutine g ∧ st.step ws a = some st' ∧
      (st.syncer.writer ≠ none → st'.loop = st.loop) ∧
      (st.syncer.stopped = true → st'.syncer.stopped = true) := by
  have hsync := (st.syncer.sync_flags ws).2
  simp only [System.atSection] at hg
  cases hat : st.goroutines g with
  | writing bs =>
    refine ⟨.lockWrite g, st.lockWrite ws g bs, rfl, rfl, by simp only [step, hat], ?_, ?_⟩
    · intro hw
      simp only [System.lockWrite, goto, started]
      cases hw' : st.syncer.writer with
      | none => exact absurd hw' hw
      | some w => rfl
    · intro hs
      exact (st.syncer.write_flags ws bs).2.trans hs
  | syncing =>
    exact ⟨.lockSync g, st.lockSync ws g .synced, rfl, rfl, by simp only [step, hat], fun _ => rfl,
      hsync.trans⟩
  | stopping seen =>
    refine ⟨.lockStop g, st.lockStop g seen, rfl, rfl, by simp only [step, hat], fun _ => ?_,
      fun hs => ?_⟩
    · simp only [System.lockStop]
      split <;> rfl
    · simp only [System.lockStop]
      rcases st.syncer.markStopped_cases with hmark | ⟨_, hs', _⟩
      · rw [hmark]
        exact hs
      · rw [hs] at hs'
        cases hs'
  | flushing seen =>
    exact ⟨.lockFlush g, st.lockSync ws g (.stopped seen false), rfl, rfl,
      by simp only [step, hat], fun _ => rfl, hsync.trans⟩
  | _ => rw [hat] at hg; cases hg

end System

/-! ## The mutex -/

namespace Locked

variable {σ : Type} (ws : WriteSyncer σ) {st st' : Locked σ}

/-- What a step can do. -/
inductive Stepped (st : Locked σ) : LockAction → Locked σ → Prop
  | fire (hw : st.system.syncer.writer.isSome = true) :
      Stepped st .fire { st with ticks := st.ticks + 1 }
  | lock {p : Process} (hfree : st.mutex = none) (hout : st.phase p = .out)
      (hat : st.system.atSection p = true) :
      Stepped st (.lock p)
        { st with mutex := some p, phase := Function.update st.phase p .entered }
  | unlock {p : Process} (hleaving : st.phase p = .leaving) :
      Stepped st (.unlock p) { st with mutex := none, phase := Function.update st.phase p .out }
  | enter {a : Action} {system : System σ} (ha : a.isSection = true)
      (hentered : st.phase a.process = .entered) (hstep : st.system.step ws a = some system) :
      Stepped st (.act a)
        { st with
          system
          phase := Function.update st.phase a.process .leaving
          loops := st.loops + st.starts a }
  | outside {a : Action} {system : System σ} (ha : a.isSection = false)
      (hout : st.phase a.process = .out) (hticks : received a ≤ st.ticks)
      (hstep : st.system.step ws a = some system) :
      Stepped st (.act a) { st with system, ticks := st.ticks - received a }

theorem step_stepped {a : LockAction} (h : st.step ws a = some st') : Stepped ws st a st' := by
  cases a with
  | fire =>
    simp only [step] at h
    split at h
    · next hw => cases h; exact .fire hw
    · cases h
  | lock p =>
    simp only [step] at h
    split at h
    · next hgo => cases h; exact .lock hgo.1 hgo.2.1 hgo.2.2
    · cases h
  | unlock p =>
    simp only [step] at h
    split at h
    · next hleaving => cases h; exact .unlock hleaving
    · cases h
  | act a =>
    simp only [step] at h
    split at h
    · next ha =>
      split at h
      · next hentered =>
        obtain ⟨system, hstep, rfl⟩ := Option.map_eq_some_iff.mp h
        exact .enter ha hentered hstep
      · cases h
    · next ha =>
      split at h
      · next hgo =>
        obtain ⟨system, hstep, rfl⟩ := Option.map_eq_some_iff.mp h
        exact .outside (Bool.not_eq_true _ ▸ ha) hgo.1 hgo.2 hstep
      · cases h

/-- The mutex belongs to the process that is between `Lock` and `Unlock`, and that process is at a
section until it has done it. -/
structure Safe (st : Locked σ) : Prop where
  orderly : st.system.Orderly
  holder : ∀ p, st.mutex = some p ↔ st.phase p ≠ .out
  entered : ∀ p, st.phase p = .entered → st.system.atSection p = true
  leaving : ∀ p, st.phase p = .leaving → st.system.atSection p = false
  loops : st.loops = if st.system.syncer.writer.isSome then 1 else 0

theorem safe_start (size : Int) (dev : σ) : (start size dev).Safe where
  orderly := System.orderly_start size dev
  holder := fun _ => ⟨fun h => (by cases h), fun h => absurd rfl h⟩
  entered := fun _ h => by cases h
  leaving := fun _ h => by cases h
  loops := rfl

/-- The first `Write`, and nothing else, initializes the syncer. -/
theorem starts_eq {a : Action} {system : System σ} (h : st.system.step ws a = some system) :
    (if system.syncer.writer.isSome then 1 else 0) =
      (if st.system.syncer.writer.isSome then 1 else 0) + st.starts a := by
  have hsync : (st.system.syncer.sync ws).2.writer.isSome = st.system.syncer.writer.isSome := by
    have hflags := (st.system.syncer.sync_flags ws).1
    cases hw : st.system.syncer.writer with
    | none => rw [hflags.mpr hw]
    | some w =>
      cases hw' : (st.system.syncer.sync ws).2.writer with
      | none =>
        rw [hflags.mp hw'] at hw
        cases hw
      | some w' => rfl
  cases System.step_stepped h with
  | @lockWrite g bs _ =>
    have hwrote : (st.system.syncer.write ws bs).2.writer.isSome = true :=
      Option.isSome_iff_ne_none.mpr (st.system.syncer.write_flags ws bs).1
    simp only [System.lockWrite, System.goto, hwrote, starts]
    cases st.system.syncer.writer <;> rfl
  | lockSync _ => simp only [System.lockSync, System.goto, hsync, starts, Nat.add_zero]
  | lockStop _ =>
    simp only [System.lockStop, starts, Nat.add_zero]
    rcases st.system.syncer.markStopped_cases with hmark | ⟨_, _, hmark⟩ <;>
      simp only [hmark, System.goto]
  | lockFlush _ => simp only [System.lockSync, System.goto, hsync, starts, Nat.add_zero]
  | lockTick _ => simp only [hsync, starts, Nat.add_zero]
  | _ => rfl

/-- Nobody is between `Lock` and `Unlock` while the mutex is free. -/
theorem Safe.out_of_free (h : st.Safe) (hfree : st.mutex = none) (p : Process) :
    st.phase p = .out := by
  by_contra hne
  rw [(h.holder p).mpr hne] at hfree
  cases hfree

/-- And nobody but the one who has it, if it is not. -/
theorem Safe.out_of_ne (h : st.Safe) {p q : Process} (hp : st.phase p ≠ .out) (hne : q ≠ p) :
    st.phase q = .out := by
  by_contra hq
  have hsame := ((h.holder q).mpr hq).symm.trans ((h.holder p).mpr hp)
  exact hne (Option.some.inj hsame)

theorem Safe.step (h : st.Safe) {a : LockAction} (hstep : st.step ws a = some st') : st'.Safe := by
  cases step_stepped ws hstep with
  | fire _ => exact ⟨h.orderly, h.holder, h.entered, h.leaving, h.loops⟩
  | @lock p hfree _ hat =>
    refine ⟨h.orderly, ?_, ?_, ?_, h.loops⟩
    · apply (Function.forall_update_iff st.phase fun q x => some p = some q ↔ x ≠ Phase.out).mpr
      refine ⟨iff_of_true rfl (by decide), fun q hq => ?_⟩
      exact iff_of_false (fun he => hq (Option.some.inj he).symm) fun hne =>
        hne (h.out_of_free hfree q)
    · apply (Function.forall_update_iff st.phase fun q x => x = Phase.entered →
        st.system.atSection q = true).mpr
      exact ⟨fun _ => hat, fun q _ => h.entered q⟩
    · apply (Function.forall_update_iff st.phase fun q x => x = Phase.leaving →
        st.system.atSection q = false).mpr
      exact ⟨fun he => (by cases he), fun q _ => h.leaving q⟩
  | @unlock p hleaving =>
    have hp : st.phase p ≠ .out := by
      rw [hleaving]
      decide
    have hout : ∀ q, Function.update st.phase p .out q = .out :=
      (Function.forall_update_iff st.phase fun _ x => x = Phase.out).mpr
        ⟨rfl, fun q hq => h.out_of_ne hp hq⟩
    refine ⟨h.orderly, fun q => ?_, fun q hq => ?_, fun q hq => ?_, h.loops⟩
    · exact ⟨fun he => (by cases he), fun hne => absurd (hout q) hne⟩
    · exact absurd ((hout q).symm.trans hq) (by decide)
    · exact absurd ((hout q).symm.trans hq) (by decide)
  | @enter a system ha hentered hact =>
    have hkept : ∀ q, q ≠ a.process → system.atSection q = st.system.atSection q :=
      fun q hq => System.step_atSection ws h.orderly hact hq
    refine ⟨h.orderly.step ws hact, ?_, ?_, ?_, ?_⟩
    · apply (Function.forall_update_iff st.phase fun q x => st.mutex = some q ↔ x ≠ Phase.out).mpr
      refine ⟨iff_of_true ((h.holder _).mpr ?_) (by decide), fun q _ => h.holder q⟩
      rw [hentered]
      decide
    · apply (Function.forall_update_iff st.phase fun q x => x = Phase.entered →
        system.atSection q = true).mpr
      exact ⟨fun he => (by cases he), fun q hq he => (hkept q hq).trans (h.entered q he)⟩
    · apply (Function.forall_update_iff st.phase fun q x => x = Phase.leaving →
        system.atSection q = false).mpr
      exact ⟨fun _ => System.step_section ws hact ha,
        fun q hq he => (hkept q hq).trans (h.leaving q he)⟩
    · exact (congrArg (· + st.starts a) h.loops).trans (starts_eq ws hact).symm
  | @outside a system ha hout _ hact =>
    have hother : ∀ q, st.phase q ≠ .out → q ≠ a.process := by
      rintro q hq rfl
      exact hq hout
    refine ⟨h.orderly.step ws hact, h.holder, fun q hq => ?_, fun q hq => ?_, ?_⟩
    · have hne := hother q (by rw [hq]; decide)
      exact (System.step_atSection ws h.orderly hact hne).trans (h.entered q hq)
    · have hne := hother q (by rw [hq]; decide)
      exact (System.step_atSection ws h.orderly hact hne).trans (h.leaving q hq)
    · have hstarts : st.starts a = 0 := by
        cases a with
        | lockWrite g => cases ha
        | _ => rfl
      have heq := starts_eq ws hact
      rw [hstarts, Nat.add_zero] at heq
      exact h.loops.trans heq.symm

theorem Safe.run (h : st.Safe) {as : List LockAction} (hrun : Locked.run ws as st = some st') :
    st'.Safe := by
  induction as generalizing st with
  | nil => cases hrun; exact h
  | cons a as ih =>
    obtain ⟨st₁, hstep, hrest⟩ := Option.bind_eq_some_iff.mp hrun
    exact ih (h.step ws hstep) hrest

/-- Every interleaving here is one of the system in which a section is one step. -/
theorem run_refines {as : List LockAction} (hrun : Locked.run ws as st = some st') :
    ∃ acts, System.run ws acts st.system = some st'.system := by
  induction as generalizing st with
  | nil => cases hrun; exact ⟨[], rfl⟩
  | cons a as ih =>
    obtain ⟨st₁, hstep, hrest⟩ := Option.bind_eq_some_iff.mp hrun
    obtain ⟨acts, hacts⟩ := ih hrest
    cases step_stepped ws hstep with
    | fire _ => exact ⟨acts, hacts⟩
    | lock _ _ _ => exact ⟨acts, hacts⟩
    | unlock _ => exact ⟨acts, hacts⟩
    | @enter a system _ _ hact => exact ⟨a :: acts, Option.bind_eq_some_iff.mpr ⟨system, hact, hacts⟩⟩
    | @outside a system _ _ _ hact =>
      exact ⟨a :: acts, Option.bind_eq_some_iff.mpr ⟨system, hact, hacts⟩⟩

end Locked

/-! ## The way to the end of the flush loop -/

namespace LockAction

/-- Whose step it is; the ticker is nobody's. -/
def process : LockAction → Option Process
  | .fire => none
  | .lock p => some p
  | .unlock p => some p
  | .act a => some a.process

/-- Whether the flush loop takes the mutex. -/
def locksLoop : LockAction → Bool
  | .lock .loop => true
  | _ => false

end LockAction

namespace Locked

variable {σ : Type} {ws : WriteSyncer σ} {st st₁ st' : Locked σ}

/-- The tick that the flush loop has received and has not taken the mutex for. -/
def unhandled (st : Locked σ) : Nat :=
  if st.system.atSection .loop = true ∧ st.phase .loop = .out then 1 else 0

/-- The ticks for which the flush loop has yet to take the mutex. -/
def pending (st : Locked σ) : Nat := st.ticks + st.unhandled

theorem unhandled_of_phase (h : st.phase .loop ≠ .out) : st.unhandled = 0 :=
  if_neg fun hgo => h hgo.2

theorem unhandled_of_atSection (h : st.system.atSection .loop = false) : st.unhandled = 0 :=
  if_neg fun hgo => by
    rw [h] at hgo
    cases hgo.1

/-- The flush loop takes the mutex for pending ticks only, once for each. -/
theorem Safe.step_pending (h : st.Safe) {a : LockAction} (hstep : st.step ws a = some st') :
    (if a.locksLoop then 1 else 0) + st'.pending =
      st.pending + if a.process = none then 1 else 0 := by
  cases step_stepped ws hstep with
  | fire _ => exact (Nat.zero_add _).trans (Nat.add_right_comm _ _ _)
  | @lock p _ hout hat =>
    cases p with
    | goroutine g =>
      have hkept : Function.update st.phase (.goroutine g) Phase.entered .loop = st.phase .loop :=
        Function.update_of_ne (fun he => by cases he) _ _
      simp only [LockAction.locksLoop, LockAction.process, pending, unhandled, hkept,
        Bool.false_eq_true, reduceCtorEq, ↓reduceIte, Nat.zero_add, Nat.add_zero]
    | loop =>
      simp only [LockAction.locksLoop, LockAction.process, pending, unhandled, hout, hat,
        Function.update_self, reduceCtorEq, and_false, and_self, ↓reduceIte, Nat.add_zero]
      exact Nat.add_comm _ _
  | @unlock p hleaving =>
    simp only [LockAction.locksLoop, LockAction.process, Bool.false_eq_true, reduceCtorEq,
      ↓reduceIte, Nat.zero_add, Nat.add_zero, pending, Nat.add_left_cancel_iff]
    cases p with
    | goroutine g =>
      have hkept : Function.update st.phase (.goroutine g) Phase.out .loop = st.phase .loop :=
        Function.update_of_ne (fun he => by cases he) _ _
      simp only [unhandled, hkept]
    | loop =>
      have hat := h.leaving _ hleaving
      rw [unhandled_of_atSection hat]
      exact unhandled_of_atSection hat
  | @enter a system ha hentered hact =>
    simp only [LockAction.locksLoop, LockAction.process, Bool.false_eq_true, reduceCtorEq,
      ↓reduceIte, Nat.zero_add, Nat.add_zero, pending, Nat.add_left_cancel_iff]
    by_cases hloop : Process.loop = a.process
    · have hbefore : st.unhandled = 0 := unhandled_of_phase (by rw [hloop, hentered]; decide)
      rw [hbefore]
      refine unhandled_of_phase ?_
      simp only [← hloop, Function.update_self, ne_eq, reduceCtorEq, not_false_eq_true]
    · simp only [unhandled, System.step_atSection ws h.orderly hact hloop,
        Function.update_of_ne hloop]
  | @outside a system ha hout hticks hact =>
    simp only [LockAction.locksLoop, LockAction.process, Bool.false_eq_true, reduceCtorEq,
      ↓reduceIte, Nat.zero_add, Nat.add_zero]
    by_cases hloop : Process.loop = a.process
    · cases System.step_stepped hact with
      | tick hat =>
        simp only [received] at hticks
        simp only [pending, unhandled, System.atSection, FlushLoop.atSection, hat, received,
          hloop ▸ hout, Bool.false_eq_true, false_and, and_self, ↓reduceIte]
        omega
      | receiveStop hat _ =>
        have hout' : st.unhandled = 0 := unhandled_of_atSection (by
          simp only [System.atSection, hat, FlushLoop.atSection])
        simp only [pending, hout']
        rfl
      | lockTick _ => cases ha
      | _ => cases hloop
    · have hticks' : received a = 0 := by
        cases a with
        | tick => exact absurd rfl hloop
        | _ => rfl
      simp only [pending, unhandled, System.step_atSection ws h.orderly hact hloop, hticks',
        Nat.sub_zero]

theorem Safe.run_pending (h : st.Safe) {as : List LockAction}
    (hrun : Locked.run ws as st = some st') :
    as.countP LockAction.locksLoop + st'.pending =
      st.pending + as.countP fun a => a.process = none := by
  induction as generalizing st with
  | nil => cases hrun; exact Nat.zero_add _
  | cons a as ih =>
    obtain ⟨st₁, hstep, hrest⟩ := Option.bind_eq_some_iff.mp hrun
    have hone := h.step_pending hstep
    have hmany := ih (h.step ws hstep) hrest
    simp only [List.countP_cons, decide_eq_true_eq]
    omega

/-- The steps of `path` are the flush loop's own and those of the process that has the mutex, and
they lead to the end of the flush loop, where it closes `done`. -/
def FinishesBy (ws : WriteSyncer σ) (st : Locked σ) (holder : Option Process)
    (path : List LockAction) : Prop :=
  (∃ st', run ws path st = some st' ∧ st'.system.loop = .returned ∧ st'.system.doneClosed = 1) ∧
    ∀ a ∈ path, ∃ p, a.process = some p ∧ (p = .loop ∨ holder = some p)

def CanFinish (ws : WriteSyncer σ) (st : Locked σ) (holder : Option Process) : Prop :=
  ∃ path, st.FinishesBy ws holder path

variable {holder : Option Process}

theorem CanFinish.cons {a : LockAction} {p : Process} (hstep : st.step ws a = some st₁)
    (ha : a.process = some p) (hp : p = .loop ∨ holder = some p) (h : st₁.CanFinish ws holder) :
    st.CanFinish ws holder := by
  obtain ⟨path, ⟨st', hrun, hend⟩, hwho⟩ := h
  refine ⟨a :: path, ⟨st', ?_, hend⟩, List.forall_mem_cons.mpr ⟨⟨p, ha, hp⟩, hwho⟩⟩
  rw [run, hstep]
  exact hrun

/-- The loop is in its `select`, and `stop` is closed. -/
theorem Safe.finish_selecting (h : st.Safe) (hstopped : st.system.syncer.stopped = true)
    (hloop : st.system.loop = .selecting) (hout : st.phase .loop = .out) :
    st.CanFinish ws holder := by
  have hstop : 0 < st.system.stopClosed := by
    rw [h.orderly.stopClosed, hstopped]
    exact Nat.one_pos
  have hsys : st.system.step ws .receiveStop =
      some { st.system with loop := .returned, doneClosed := st.system.doneClosed + 1 } := by
    simp only [System.step, hloop, hstop, ↓reduceIte]
  have hdone := h.orderly.doneClosed
  rw [hloop] at hdone
  refine ⟨[.act .receiveStop], ⟨{ st with
    system := { st.system with loop := .returned, doneClosed := st.system.doneClosed + 1 } }, ?_, rfl,
    congrArg (· + 1) hdone⟩, fun a ha => ⟨.loop, ?_, .inl rfl⟩⟩
  · simp only [Locked.run, Locked.step, Action.isSection, Action.process, hout, received, Bool.false_eq_true,
      ↓reduceIte, Nat.zero_le, and_self, hsys, Option.map_some, Nat.sub_zero, Option.bind_some]
  · rw [List.mem_singleton.mp ha]
    rfl

/-- The loop has flushed and is about to give the mutex back. -/
theorem Safe.finish_leaving (h : st.Safe) (hstopped : st.system.syncer.stopped = true)
    (hloop : st.system.loop = .selecting) (hleaving : st.phase .loop = .leaving) :
    st.CanFinish ws holder := by
  have hstep : st.step ws (.unlock .loop) =
      some { st with mutex := none, phase := Function.update st.phase .loop .out } := by
    simp only [Locked.step, hleaving, ↓reduceIte]
  exact .cons hstep rfl (.inl rfl) ((h.step ws hstep).finish_selecting hstopped hloop
    (Function.update_self .loop .out st.phase))

/-- The loop has the mutex and is about to flush. -/
theorem Safe.finish_entered (h : st.Safe) (hstopped : st.system.syncer.stopped = true)
    (hloop : st.system.loop = .syncing) (hentered : st.phase .loop = .entered) :
    st.CanFinish ws holder := by
  have hstep : st.step ws (.act .lockTick) = some { st with
      system := { st.system with syncer := (st.system.syncer.sync ws).2, loop := .selecting }
      phase := Function.update st.phase .loop .leaving
      loops := st.loops + st.starts .lockTick } := by
    simp only [Locked.step, Action.isSection, Action.process, hentered, ↓reduceIte, System.step, hloop,
      Option.map_some]
  exact .cons hstep rfl (.inl rfl) ((h.step ws hstep).finish_leaving
    ((st.system.syncer.sync_flags ws).2.trans hstopped) rfl
    (Function.update_self .loop .leaving st.phase))

/-- The loop waits for the mutex, which is free. -/
theorem Safe.finish_free (h : st.Safe) (hstopped : st.system.syncer.stopped = true)
    (hloop : st.system.loop = .syncing) (hfree : st.mutex = none) : st.CanFinish ws holder := by
  have hat : st.system.atSection .loop = true := by
    simp only [System.atSection, hloop, FlushLoop.atSection]
  have hstep : st.step ws (.lock .loop) =
      some { st with mutex := some .loop, phase := Function.update st.phase .loop .entered } := by
    simp only [Locked.step, hfree, h.out_of_free hfree .loop, hat, and_self, ↓reduceIte]
  exact .cons hstep rfl (.inl rfl) ((h.step ws hstep).finish_entered hstopped hloop
    (Function.update_self .loop .entered st.phase))

/-- The loop waits for the mutex, which somebody is about to give back. -/
theorem Safe.finish_unlock (h : st.Safe) (hstopped : st.system.syncer.stopped = true)
    (hloop : st.system.loop = .syncing) {p : Process} (hleaving : st.phase p = .leaving) :
    st.CanFinish ws (some p) := by
  have hstep : st.step ws (.unlock p) =
      some { st with mutex := none, phase := Function.update st.phase p .out } := by
    simp only [Locked.step, hleaving, ↓reduceIte]
  exact .cons hstep rfl (.inr rfl) ((h.step ws hstep).finish_free hstopped hloop rfl)

/-- The loop waits for the mutex, which a goroutine has taken for its section. -/
theorem Safe.finish_section (h : st.Safe) (hstopped : st.system.syncer.stopped = true)
    (hloop : st.system.loop = .syncing) {g : Nat} (hentered : st.phase (.goroutine g) = .entered) :
    st.CanFinish ws (some (.goroutine g)) := by
  obtain ⟨a, system, ha, hproc, hact, hkeep, hstop⟩ :=
    System.section_enabled ws (h.entered _ hentered)
  have hstep : st.step ws (.act a) = some { st with
      system, phase := Function.update st.phase a.process .leaving
      loops := st.loops + st.starts a } := by
    simp only [Locked.step, ha, hproc, hentered, ↓reduceIte, hact, Option.map_some]
  have hloop' : system.loop = .syncing := (hkeep (h.orderly.initialized hstopped)).trans hloop
  refine .cons hstep (congrArg some hproc) (.inr rfl) ((h.step ws hstep).finish_unlock (hstop hstopped)
    hloop' ?_)
  rw [← hproc]
  exact Function.update_self a.process .leaving st.phase

/-- Once the syncer is stopped, the flush loop can always come to its end. -/
theorem Safe.can_finish (h : st.Safe) (hstopped : st.system.syncer.stopped = true) :
    st.CanFinish ws st.mutex := by
  have hstarted : st.system.loop ≠ .unstarted := fun he =>
    h.orderly.initialized hstopped (h.orderly.unstarted.mp he)
  cases hloop : st.system.loop with
  | unstarted => exact absurd hloop hstarted
  | returned =>
    have hdone := h.orderly.doneClosed
    rw [hloop] at hdone
    exact ⟨[], ⟨st, rfl, hloop, hdone⟩, fun _ ha => absurd ha List.not_mem_nil⟩
  | selecting =>
    cases hphase : st.phase .loop with
    | out => exact h.finish_selecting hstopped hloop hphase
    | leaving => exact h.finish_leaving hstopped hloop hphase
    | entered =>
      have hat := h.entered _ hphase
      simp only [System.atSection, hloop, FlushLoop.atSection, Bool.false_eq_true] at hat
  | syncing =>
    cases hmutex : st.mutex with
    | none => exact h.finish_free hstopped hloop hmutex
    | some p =>
      cases hphase : st.phase p with
      | out => exact absurd hphase ((h.holder p).mp hmutex)
      | leaving => exact h.finish_unlock hstopped hloop hphase
      | entered =>
        cases p with
        | loop => exact h.finish_entered hstopped hloop hphase
        | goroutine g => exact h.finish_section hstopped hloop hphase

/-- The goroutine `g` is at `<-s.done` in `Stop`. -/
def Waits (st : Locked σ) (g : Nat) : Prop :=
  (∃ seen, st.system.goroutines g = .waiting seen) ∧ st.phase (.goroutine g) = .out

/-- In every interleaving at most one flush loop is started and each channel is closed at most once.
While a `Stop` waits, `stop` is closed, the one who waits does not have the mutex, and the flush loop
can come to its end by steps of its own and of the process that has the mutex, taking the mutex
at most once for each pending tick. -/
theorem stop_never_deadlocks (size : Int) (dev : σ) {as : List LockAction}
    (hrun : run ws as (start size dev) = some st) :
    st.loops ≤ 1 ∧ st.system.stopClosed ≤ 1 ∧ st.system.doneClosed ≤ 1 ∧
      ∀ g, st.Waits g →
        st.system.stopClosed = 1 ∧ st.mutex ≠ some (.goroutine g) ∧
          ∃ path, st.FinishesBy ws st.mutex path ∧
            path.countP LockAction.locksLoop ≤ st.pending := by
  have h : st.Safe := (safe_start size dev).run ws hrun
  refine ⟨?_, ?_, ?_, fun g hg => ?_⟩
  · rw [h.loops]
    split <;> decide
  · rw [h.orderly.stopClosed]
    split <;> decide
  · rw [h.orderly.doneClosed]
    cases st.system.loop <;> decide
  · obtain ⟨⟨seen, hwait⟩, hout⟩ := hg
    have hstopped : st.system.syncer.stopped = true := h.orderly.waiting g seen hwait
    refine ⟨?_, fun hheld => (h.holder _).mp hheld hout, ?_⟩
    · rw [h.orderly.stopClosed, hstopped]
      rfl
    · have hfinish : st.CanFinish ws st.mutex := h.can_finish hstopped
      obtain ⟨path, ⟨st', hpath, hend⟩, hwho⟩ := hfinish
      refine ⟨path, ⟨⟨st', hpath, hend⟩, hwho⟩, ?_⟩
      -- The ticker does not fire on the path, so all that it handles was pending.
      have hquiet : path.countP (fun a => a.process = none) = 0 := by
        refine List.countP_eq_zero.mpr fun a ha hnone => ?_
        obtain ⟨p, hp, _⟩ := hwho a ha
        rw [decide_eq_true_eq, hp] at hnone
        cases hnone
      have hcount := h.run_pending hpath
      omega

/-- `Stop` waits while the flush loop has received a tick and has not got the mutex yet. -/
theorem stop_never_deadlocks_tick :
    ∃ st, run System.perfect
        [.act (.callWrite 0 System.record), .lock (.goroutine 0), .act (.lockWrite 0),
          .unlock (.goroutine 0), .fire, .act .tick, .act (.callStop 1), .lock (.goroutine 1),
          .act (.lockStop 1), .unlock (.goroutine 1)] (start 0 ()) = some st ∧
      st.Waits 1 ∧ st.pending = 1 ∧
      ∃ path, st.FinishesBy System.perfect st.mutex path ∧ path.countP LockAction.locksLoop ≤ 1 := by
  obtain ⟨st, hrun, hwaits, hpending⟩ : ∃ st, run System.perfect
      [.act (.callWrite 0 System.record), .lock (.goroutine 0), .act (.lockWrite 0),
        .unlock (.goroutine 0), .fire, .act .tick, .act (.callStop 1), .lock (.goroutine 1),
        .act (.lockStop 1), .unlock (.goroutine 1)] (start 0 ()) = some st ∧
      st.Waits 1 ∧ st.pending = 1 := ⟨_, rfl, ⟨⟨[], rfl⟩, rfl⟩, rfl⟩
  obtain ⟨_, _, path, hpath, hcount⟩ := (stop_never_deadlocks 0 () hrun).2.2.2 1 hwaits
  exact ⟨st, hrun, hwaits, hpending, path, hpath, hpending ▸ hcount⟩

end Locked

end Zap.Zapcore
