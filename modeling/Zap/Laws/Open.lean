import Zap.Config

/-!
# All outputs or none

What `Open` and `Build` do to sinks is in the trace of events: which paths were tried, which sinks
came out, which were closed. A call that fails has closed every sink that came out during it, and a
call that succeeds has closed none (`openWriters_spec`, `openSinks_spec`).
-/

set_option autoImplicit false

namespace Zap.Zapcore

open Data

/-! ## Reading a trace -/

namespace DeviceEvent

/-- The path of a call of `newSink`. -/
def path? : DeviceEvent → Option Bytes
  | .newSink path _ => some path
  | _ => none

/-- The sink that came out of `newSink`. -/
def opened? : DeviceEvent → Option Nat
  | .newSink _ (.ok sink) => some sink
  | _ => none

/-- A path that failed, and its error. -/
def failed? : DeviceEvent → Option (Bytes × Bytes)
  | .newSink path (.error err) => some (path, err)
  | _ => none

/-- The sink that was closed. -/
def closed? : DeviceEvent → Option Nat
  | .close sink => some sink
  | _ => none

end DeviceEvent

/-- The paths that were tried, in order. -/
def triedPaths (evs : List DeviceEvent) : List Bytes := evs.filterMap DeviceEvent.path?

/-- The sinks that were opened, one for each time. -/
def openedSinks (evs : List DeviceEvent) : List Nat := evs.filterMap DeviceEvent.opened?

/-- The paths that failed. -/
def failedPaths (evs : List DeviceEvent) : List (Bytes × Bytes) :=
  evs.filterMap DeviceEvent.failed?

/-- The sinks that were closed, one for each time. -/
def closedSinks (evs : List DeviceEvent) : List Nat := evs.filterMap DeviceEvent.closed?

section

variable (evs evs' : List DeviceEvent)

@[simp] theorem triedPaths_append : triedPaths (evs ++ evs') = triedPaths evs ++ triedPaths evs' :=
  List.filterMap_append

@[simp] theorem openedSinks_append :
    openedSinks (evs ++ evs') = openedSinks evs ++ openedSinks evs' := List.filterMap_append

@[simp] theorem failedPaths_append :
    failedPaths (evs ++ evs') = failedPaths evs ++ failedPaths evs' := List.filterMap_append

@[simp] theorem closedSinks_append :
    closedSinks (evs ++ evs') = closedSinks evs ++ closedSinks evs' := List.filterMap_append

end

section

variable (sinks : List Nat)

@[simp] theorem triedPaths_closes : triedPaths (sinks.map .close) = [] :=
  List.filterMap_eq_nil_iff.mpr (List.forall_mem_map.mpr fun _ _ => rfl)

@[simp] theorem openedSinks_closes : openedSinks (sinks.map .close) = [] :=
  List.filterMap_eq_nil_iff.mpr (List.forall_mem_map.mpr fun _ _ => rfl)

@[simp] theorem failedPaths_closes : failedPaths (sinks.map .close) = [] :=
  List.filterMap_eq_nil_iff.mpr (List.forall_mem_map.mpr fun _ _ => rfl)

@[simp] theorem closedSinks_closes : closedSinks (sinks.map .close) = sinks := by
  rw [closedSinks, List.filterMap_map]
  exact List.filterMap_some

end

end Zap.Zapcore

namespace Zap

open Data Zapcore

/-- One invocation of `closeAll` closes each sink once. -/
theorem closeAll_eq (closers : List Nat) (tr : List DeviceEvent) :
    closeAll closers tr = tr ++ closers.map .close := by
  induction closers generalizing tr with
  | nil => exact (List.append_nil tr).symm
  | cons c cs ih =>
    rw [closeAll, List.foldl_cons, ← closeAll, ih, List.append_assoc]
    rfl

variable [Sinks]

/-- The errors that `open` makes of failed paths. -/
def openErrors (evs : List DeviceEvent) : List Bytes :=
  (failedPaths evs).map fun f => openSinkError f.1 f.2

/-- The loop tries every path, closes nothing, and keeps the sinks and the errors. -/
theorem openLoop_spec (paths : List Bytes) (o : Opening) (tr : List DeviceEvent) :
    ∃ evs, openLoop paths o tr =
        (⟨o.writers ++ (openedSinks evs).map .device, o.closers ++ openedSinks evs,
          o.openErr ++ openErrors evs⟩, tr ++ evs) ∧
      triedPaths evs = paths ∧ closedSinks evs = [] ∧
      (openedSinks evs).length + (failedPaths evs).length = paths.length := by
  induction paths generalizing o tr with
  | nil =>
    refine ⟨[], ?_, rfl, rfl, rfl⟩
    simp only [openLoop, openedSinks, openErrors, failedPaths, List.filterMap_nil, List.map_nil,
      List.append_nil]
  | cons path paths ih =>
    rw [openLoop]
    cases hout : Sinks.newSink tr path with
    | error err =>
      obtain ⟨evs, heq, htried, hclosed, hcount⟩ :=
        ih { o with openErr := o.openErr ++ [openSinkError path err] }
          (tr ++ [.newSink path (.error err)])
      refine ⟨.newSink path (.error err) :: evs, ?_, congrArg (path :: ·) htried, hclosed, ?_⟩
      · simp only [heq, List.append_assoc]
        rfl
      · show (openedSinks evs).length + ((failedPaths evs).length + 1) = paths.length + 1
        omega
    | ok sink =>
      obtain ⟨evs, heq, htried, hclosed, hcount⟩ :=
        ih { o with writers := o.writers ++ [.device sink], closers := o.closers ++ [sink] }
          (tr ++ [.newSink path (.ok sink)])
      refine ⟨.newSink path (.ok sink) :: evs, ?_, congrArg (path :: ·) htried, hclosed, ?_⟩
      · simp only [heq, List.append_assoc]
        rfl
      · show (openedSinks evs).length + 1 + (failedPaths evs).length = paths.length + 1
        omega

/-- What a call of `Open` has done, which answered `r`. Every path was tried, in order. With an error
it reports every path that failed, and has closed what it had opened, each sink once. Without one it
has opened every path and closed nothing, and its function closes each sink once whenever it is
called. -/
structure OpensAll (paths : List Bytes) (evs : List DeviceEvent)
    (r : Except (List Bytes) (Syncer × List Nat)) : Prop where
  tried : triedPaths evs = paths
  failed : ∀ errs, r = .error errs → failedPaths evs ≠ [] ∧ errs = openErrors evs ∧
    closedSinks evs = openedSinks evs
  succeeded : ∀ writer closers, r = .ok (writer, closers) → failedPaths evs = [] ∧
    closedSinks evs = [] ∧ (openedSinks evs).length = paths.length ∧
    writer = combineWriteSyncers ((openedSinks evs).map .device) ∧
    ∀ tr, closeAll closers tr = tr ++ (openedSinks evs).map .close

theorem openWriters_spec (paths : List Bytes) (tr : List DeviceEvent) :
    ∃ evs, (openWriters paths tr).2 = tr ++ evs ∧ OpensAll paths evs (openWriters paths tr).1 := by
  obtain ⟨evs, hloop, htried, hclosed, hcount⟩ := openLoop_spec paths ⟨[], [], []⟩ tr
  simp only [List.nil_append] at hloop
  unfold openWriters openPaths
  simp only [hloop]
  by_cases hfail : openErrors evs = []
  · have hnone : failedPaths evs = [] := List.map_eq_nil_iff.mp hfail
    rw [if_neg (not_not.mpr hfail)]
    refine ⟨evs, rfl, htried, fun errs herr => ?_, fun writer closers hok => ?_⟩
    · cases herr
    · cases hok
      rw [hnone] at hcount
      exact ⟨hnone, hclosed, hcount, rfl, closeAll_eq _⟩
  · rw [if_pos hfail, closeAll_eq]
    refine ⟨evs ++ (openedSinks evs).map .close, List.append_assoc _ _ _, ?_, fun errs herr => ?_,
      fun writer closers hok => ?_⟩
    · simp [htried]
    · cases herr
      refine ⟨?_, ?_, ?_⟩
      · simpa [openErrors] using hfail
      · simp [openErrors]
      · simp [hclosed]
    · cases hok

/-- What a call that opens two lists of paths has done, which answered `r`. With an error, each sink
that was opened has been closed once, and every path that failed is reported. Without one, every path
was opened, in order, and nothing was closed. -/
structure BuildsAll {V α : Type} (cfg : Config V) (evs : List DeviceEvent)
    (r : Except (List Bytes) α) : Prop where
  failed : ∀ errs, r = .error errs → (closedSinks evs).Perm (openedSinks evs) ∧
    ∀ f ∈ failedPaths evs, openSinkError f.1 f.2 ∈ errs
  succeeded : ∀ a, r = .ok a → failedPaths evs = [] ∧ closedSinks evs = [] ∧
    triedPaths evs = cfg.outputPaths ++ cfg.errorOutputPaths ∧
    (openedSinks evs).length = cfg.outputPaths.length + cfg.errorOutputPaths.length

theorem mem_openErrors {evs : List DeviceEvent} {f : Bytes × Bytes} (hf : f ∈ failedPaths evs) :
    openSinkError f.1 f.2 ∈ openErrors evs :=
  List.mem_map_of_mem (f := fun f => openSinkError f.1 f.2) hf

theorem openSinks_spec {V : Type} (cfg : Config V) (tr : List DeviceEvent) :
    ∃ evs, (cfg.openSinks tr).2 = tr ++ evs ∧ BuildsAll cfg evs (cfg.openSinks tr).1 := by
  obtain ⟨out, htr, hout⟩ := openWriters_spec cfg.outputPaths tr
  unfold Config.openSinks
  generalize openWriters cfg.outputPaths tr = r at htr hout
  obtain ⟨r, tr₁⟩ := r
  obtain rfl : tr₁ = tr ++ out := htr
  cases r with
  | error errs =>
    obtain ⟨-, rfl, hclosed⟩ := hout.failed errs rfl
    refine ⟨out, rfl, fun errs herr => ?_, fun a hok => by cases hok⟩
    cases herr
    exact ⟨.of_eq hclosed, fun f => mem_openErrors⟩
  | ok opened =>
    obtain ⟨sink, closeOut⟩ := opened
    obtain ⟨hnone, hclosed, hcount, -, hclose⟩ := hout.succeeded sink closeOut rfl
    obtain ⟨err, htr, herrs⟩ := openWriters_spec cfg.errorOutputPaths (tr ++ out)
    simp only
    generalize openWriters cfg.errorOutputPaths (tr ++ out) = r at htr herrs
    obtain ⟨r, tr₂⟩ := r
    obtain rfl : tr₂ = tr ++ out ++ err := htr
    cases r with
    | error errs =>
      obtain ⟨-, rfl, hclosed'⟩ := herrs.failed errs rfl
      refine ⟨out ++ err ++ (openedSinks out).map .close, ?_, fun errs herr => ?_,
        fun a hok => by cases hok⟩
      · simp only [hclose, List.append_assoc]
      · cases herr
        constructor
        · -- the error outputs were closed first
          simpa [hclosed, hclosed'] using List.perm_append_comm
        · simpa [hnone] using fun f => mem_openErrors (f := f)
    | ok opened =>
      obtain ⟨errSink, closeErr⟩ := opened
      obtain ⟨hnone', hclosed', hcount', -⟩ := herrs.succeeded errSink closeErr rfl
      refine ⟨out ++ err, List.append_assoc _ _ _, fun errs herr => (by cases herr), fun a hok => ?_⟩
      simp [hnone, hnone', hclosed, hclosed', hout.tried, herrs.tried, hcount, hcount']

section

variable {E F V : Type} [Setup E F V] [Encoder E F] [Process E F]

theorem build_spec (cfg : Config V) (opts : List (LoggerOption E F)) (w : World E F)
    (tr : List DeviceEvent) :
    ∃ evs, (cfg.build opts w tr).2 = tr ++ evs ∧ BuildsAll cfg evs (cfg.build opts w tr).1 := by
  -- before the outputs are opened, nothing can be left open
  have early : ∀ err : Bytes, BuildsAll cfg [] (.error [err] : Except _ (Logger E F × World E F)) :=
    fun err => ⟨fun _ _ => ⟨.refl [], fun f hf => absurd hf List.not_mem_nil⟩,
      fun a hok => by cases hok⟩
  unfold Config.build
  cases newEncoder (E := E) (F := F) cfg.encoding cfg.encoderConfig with
  | error err => exact ⟨[], (List.append_nil tr).symm, early err⟩
  | ok enc =>
    cases cfg.level with
    | none => exact ⟨[], (List.append_nil tr).symm, early _⟩
    | some level =>
      obtain ⟨evs, htr, hsinks⟩ := openSinks_spec cfg tr
      simp only
      generalize cfg.openSinks tr = r at htr hsinks
      obtain ⟨r, tr₁⟩ := r
      obtain rfl : tr₁ = tr ++ evs := htr
      cases r with
      | error errs =>
        exact ⟨evs, rfl, fun errs' herr => hsinks.failed errs' (by cases herr; rfl),
          fun a hok => by cases hok⟩
      | ok sinks =>
        exact ⟨evs, rfl, fun errs herr => (by cases herr), fun a _ => hsinks.succeeded sinks rfl⟩

/-- Opening outputs is all or nothing, for `Open` and for `Build`. -/
theorem outputs_all_or_nothing :
    (∀ (paths : List Bytes) (tr : List DeviceEvent),
      ∃ evs, (openWriters paths tr).2 = tr ++ evs ∧
        OpensAll paths evs (openWriters paths tr).1) ∧
    ∀ (cfg : Config V) (opts : List (LoggerOption E F)) (w : World E F) (tr : List DeviceEvent),
      ∃ evs, (cfg.build opts w tr).2 = tr ++ evs ∧ BuildsAll cfg evs (cfg.build opts w tr).1 :=
  ⟨openWriters_spec, build_spec⟩

end

end Zap
