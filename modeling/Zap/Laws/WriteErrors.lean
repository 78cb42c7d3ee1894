import Zap.Data.History
import Zap.Laws.IoCore
import Zap.Laws.UnwindingLoggers

/-!
# Errors of a message

Encoders, destinations and hooks return errors. `Write` of a `CheckedEntry` collects them from all
cores and reports them together, on the error output of the logger that made the entry. No error is
lost on the way and none is reported twice (`write_errors_reported`): the reports of any call that
logs hold the errors that were returned during the call, in the order in which they were returned.

The errors of `Sync` are not among them; `ioCore.Write` drops those. And the call has to return: if an
encoder panics, the errors that were collected before are lost with it.
-/

set_option autoImplicit false

namespace Zap.Zapcore

open Data

variable {E F : Type} {b : Bool}

/-- What a call has returned to a core, after other calls. -/
def Event.failures [Encoder E F] [Environment E F] (before : List (Event E F)) : Event E F → Errors
  | .write core ent fields =>
    match Encoder.encodeEntry core.enc ent fields with
    | .error err => [err]
    | .ok _ => []
  | .output out buf => (Environment.write before out buf).toList
  | .hook f ent => (Environment.hook before f ent).toList
  | _ => []

/-- What a report says, and where. -/
def Event.writeErrors : Event E F → List (Nat × Errors)
  | .report out (.writeError _ errs) => [(out, errs)]
  | _ => []

/-- The errors that were returned to cores. -/
def failuresOf [Encoder E F] [Environment E F] (trace : List (Event E F)) : Errors :=
  history Event.failures trace

/-- The reports of errors. -/
def reportsOf (trace : List (Event E F)) : List (Nat × Errors) := trace.flatMap Event.writeErrors

section

variable [Encoder E F] [Environment E F]

/-- Between two worlds errors were returned and reports were made. -/
structure Account (w w' : World E F) (errs : Errors) (reports : List (Nat × Errors)) : Prop where
  failures : failuresOf w'.trace = failuresOf w.trace ++ errs
  reports : reportsOf w'.trace = reportsOf w.trace ++ reports

namespace Account

variable {w w' w'' : World E F} {errs errs' : Errors} {reports reports' : List (Nat × Errors)}

theorem refl (w : World E F) : Account w w [] [] :=
  ⟨(List.append_nil _).symm, (List.append_nil _).symm⟩

theorem trans (h : Account w w' errs reports) (h' : Account w' w'' errs' reports') :
    Account w w'' (errs ++ errs') (reports ++ reports') := by
  constructor
  · rw [h'.failures, h.failures, List.append_assoc]
  · rw [h'.reports, h.reports, List.append_assoc]

/-- One call. -/
theorem emit (w : World E F) (e : Event E F) :
    Account w (w.emit e) (e.failures w.trace) e.writeErrors := by
  constructor
  · exact history_concat Event.failures w.trace e
  · exact List.flatMap_append.trans (congrArg (reportsOf w.trace ++ ·) (List.flatMap_singleton _ _))

/-- A call after others. -/
theorem then_emit (h : Account w w' errs reports) (e : Event E F) :
    Account w (w'.emit e) (errs ++ e.failures w'.trace) (reports ++ e.writeErrors) :=
  h.trans (.emit w' e)

/-- A call that returns no error and reports none. -/
theorem then_quiet (h : Account w w' errs reports) {e : Event E F}
    (hfail : e.failures w'.trace = []) (hreport : e.writeErrors = []) :
    Account w (w'.emit e) errs reports := by
  have hemit := h.then_emit e
  rwa [hfail, hreport, List.append_nil, List.append_nil] at hemit

end Account

/-! ## Writing -/

theorem runHooks_account (ent : Entry) (funcs : List Nat) (w : World E F) :
    Account w (w.runHooks ent funcs).2 (w.runHooks ent funcs).1 [] := by
  induction funcs generalizing w with
  | nil => exact .refl _
  | cons f funcs ih => exact (Account.emit w (.hook f ent)).trans (ih (w.emit (.hook f ent)))

theorem IoCore.write_account (core : IoCore E) (ent : Entry) (fields : List F) (w : World E F) :
    Account w (core.write ent fields w).2 (core.write ent fields w).1 [] := by
  have hwrite := Account.emit w (.write core ent fields)
  unfold IoCore.write
  simp only [Event.failures, Event.writeErrors] at hwrite
  cases henc : Encoder.encodeEntry core.enc ent fields with
  | error err =>
    rw [henc] at hwrite
    exact hwrite
  | ok buf =>
    rw [henc] at hwrite
    have hout := hwrite.then_emit (.output core.out buf)
    simp only [Event.failures, Event.writeErrors, List.nil_append] at hout
    cases herr : Environment.write (w.emit (.write core ent fields)).trace core.out buf with
    | none =>
      rw [herr] at hout
      simp only [World.output, herr, Option.toList_none]
      split
      next => exact hout.then_quiet rfl rfl
      next => exact hout
    | some err =>
      rw [herr] at hout
      simp only [World.output, herr, Option.toList_some]
      exact hout

/-- What has registered returns the errors that were returned to it. -/
theorem writeCores_account (ent : Entry) (fields : List F) {cores : List ((b : Bool) × Core E F b)}
    (h : ∀ core ∈ cores, (Kind.of core).isSome) (w : World E F) :
    Account w (CheckedEntry.writeCores ent fields cores w).2
      (CheckedEntry.writeCores ent fields cores w).1 [] :=
  CheckedEntry.writeCores_keeps (R := fun w errs w' => Account w w' errs []) .refl
    (fun h h' => h.trans h') (fun core w => core.write_account ent fields w) (runHooks_account ent) h w

/-- The reports that errors give rise to: one, if there are any. -/
def reportOf (out : Nat) (errs : Errors) : List (Nat × Errors) :=
  if errs = [] then [] else [(out, errs)]

/-- `Write` reports the errors of the cores, where there is an error output. -/
theorem CheckedEntry.Ready.write_account {ce : CheckedEntry E F} {after : Option CheckWriteHook}
    (h : ce.Ready after) {out : Nat} (hout : ce.cores = [] ∨ ce.errorOutput = some out)
    (fields : List F) (w : World E F) :
    ∃ errs, Account w (CheckedEntry.write (some ce) fields w) errs (reportOf out errs) := by
  have hcores := writeCores_account ce.entry fields h.cores w
  obtain ⟨w', htold, hlast⟩ := CheckedEntry.write_cases h.dirty h.before fields w
  generalize hr : CheckedEntry.writeCores ce.entry fields ce.cores w = r at hcores htold
  have hreport : Account w w' r.1 (reportOf out r.1) := by
    rcases htold with ⟨rfl, herrs | hnone⟩ | ⟨hne, out', hsome, rfl⟩
    · rw [reportOf, if_pos herrs]
      exact hcores
    · rcases hout with hempty | hsome
      · rw [hempty] at hr
        cases hr
        exact hcores
      · cases hnone.symm.trans hsome
    · rcases hout with hempty | hsome'
      · rw [hempty] at hr
        cases hr
        exact absurd rfl hne
      · cases hsome.symm.trans hsome'
        have htold := hcores.then_emit (.report out (.writeError ce.entry.time r.1))
        rw [show Event.failures _ (.report out _) = [] from rfl, List.append_nil] at htold
        rw [reportOf, if_neg hne]
        exact htold.then_quiet rfl rfl
  rw [hlast]
  cases ce.after with
  | none => exact ⟨r.1, hreport⟩
  | some hook => exact ⟨r.1, hreport.then_quiet rfl rfl⟩

/-! ## Checking -/

/-- `Check` calls nobody who could return an error. -/
theorem Core.check_account (core : Core E F b) (ent : Entry) (ce : Option (CheckedEntry E F))
    (w : World E F) : Account w (core.check ent ce w).2 [] [] := by
  have rule : CheckRule (E := E) (F := F) ent (fun _ _ => True)
      fun trace => (failuresOf trace, reportsOf trace) := {
    refl := fun _ => trivial
    trans := fun _ _ => trivial
    leaf := fun _ _ _ => trivial
    hooks := fun _ _ _ => trivial
    decision := fun w hook d => by
      have hemit := (Account.refl w).then_quiet (e := .decision hook ent d) rfl rfl
      rw [hemit.failures, hemit.reports, List.append_nil, List.append_nil] }
  have hview := (rule.check core ce w).2
  constructor
  · rw [List.append_nil]
    exact congrArg Prod.fst hview
  · rw [List.append_nil]
    exact congrArg Prod.snd hview

end

end Zap.Zapcore

namespace Zap

open Data Zapcore

variable {E F V : Type}

namespace Logger

variable [Environment E F] [Process E F] [Encoder E F]

/-- An entry that cores have registered on has the error output of its logger. -/
theorem check_account (log : Logger E F) (lvl : Level) (msg : Bytes) (w : World E F) :
    Account w (log.check lvl msg w).2 [] [] ∧
      ∀ ce, (log.check lvl msg w).1 = some ce →
        ce.cores = [] ∨ ce.errorOutput = some log.errorOutput := by
  have hcheck := log.core.check_account (log.entry lvl msg w) none w
  rcases log.check_cases lvl msg w with ⟨h, _⟩ | ⟨_, h⟩ | ⟨cores, _, h⟩
  · rw [h]
    exact ⟨.refl w, fun ce hce => (by cases hce)⟩
  · rw [h]
    refine ⟨hcheck, fun ce hce => ?_⟩
    obtain ⟨hook, _, rfl⟩ := Option.map_eq_some_iff.mp hce
    exact .inl rfl
  · rw [h]
    obtain ⟨⟨caller, stack, hce⟩, hw⟩ := log.annotate_cases (log.entry lvl msg w)
      ⟨log.entry lvl msg w, none, false, log.terminal lvl, cores, []⟩
      (log.core.check (log.entry lvl msg w) none w).2
    refine ⟨?_, fun ce hsome => (by cases hsome; exact .inr (hce ▸ rfl))⟩
    rcases hw with hw | ⟨time, hw⟩
    · exact hw.symm ▸ hcheck
    · exact hw.symm ▸ (hcheck.then_quiet rfl rfl).then_quiet rfl rfl

/-- An entry from `check` reports the errors it meets when it is written, at whatever time. -/
theorem write_account (log : Logger E F) (lvl : Level) (msg : Bytes) (w : World E F)
    (fields : List F) (w' : World E F) :
    ∃ errs, Account w' (CheckedEntry.write (log.check lvl msg w).1 fields w') errs
      (reportOf log.errorOutput errs) := by
  have hout := (log.check_account lvl msg w).2
  rcases (log.check_checks lvl msg w).ready with ⟨hnone, _⟩ | ⟨ce, hsome, hready⟩
  · rw [hnone]
    exact ⟨[], .refl _⟩
  · rw [hsome]
    exact hready.write_account (hout ce hsome) fields w'

end Logger

/-- From one world to another, the reports on an error output hold the errors that were returned, in
their order, and none is empty. -/
def Reported [Encoder E F] [Environment E F] (out : Nat) (w w' : World E F) : Prop :=
  ∃ errs reports, Account w w' errs reports ∧ reports.flatMap Prod.snd = errs ∧
    ∀ r ∈ reports, r.1 = out ∧ r.2 ≠ []

namespace Reported

variable [Encoder E F] [Environment E F] {out : Nat} {w w' w'' : World E F}

theorem of_quiet (h : Account w w' [] []) : Reported out w w' :=
  ⟨[], [], h, rfl, List.forall_mem_nil _⟩

theorem of_report {errs : Errors} (h : Account w w' errs (reportOf out errs)) :
    Reported out w w' := by
  refine ⟨errs, _, h, ?_⟩
  unfold reportOf
  split
  next hnil => exact ⟨hnil.symm, List.forall_mem_nil _⟩
  next hne => exact ⟨List.append_nil errs, List.forall_mem_singleton.mpr ⟨rfl, hne⟩⟩

theorem trans (h : Reported out w w') (h' : Reported out w' w'') : Reported out w w'' := by
  obtain ⟨errs, reports, hacc, hall, hout⟩ := h
  obtain ⟨errs', reports', hacc', hall', hout'⟩ := h'
  refine ⟨_, _, hacc.trans hacc', ?_, List.forall_mem_append.mpr ⟨hout, hout'⟩⟩
  rw [List.flatMap_append, hall, hall']

end Reported

section

variable [Encoder E F] [Environment E F] [Process E F]

theorem Logger.log_reported (log : Logger E F) (method : Method) (msg : Bytes) (fields : List F)
    (w : World E F) : Reported log.errorOutput w (log.log method msg fields w) := by
  obtain ⟨errs, hwrite⟩ := log.write_account method.level msg w fields
    (log.check method.level msg w).2
  exact (Reported.of_quiet (log.check_account method.level msg w).1).trans (.of_report hwrite)

namespace SugaredLogger

variable [Format F V] (s : SugaredLogger E F)

theorem sweetenFields_reported (args : List (Arg F V)) (w : World E F) :
    Reported s.base.errorOutput w (s.sweetenFields args w).2 :=
  s.sweetenFields_keeps (R := Reported s.base.errorOutput) (fun w => .of_quiet (.refl w))
    Reported.trans (s.base.log_reported .error) args w

theorem write_reported (lvl : Level) (msg : Bytes) (context : List (Arg F V)) (w : World E F) :
    Reported s.base.errorOutput w (s.write lvl msg context w) := by
  have hcheck := (s.base.check_account lvl msg w).1
  have hwrite := s.base.write_account lvl msg w
  unfold write
  generalize s.base.check lvl msg w = r at hcheck hwrite ⊢
  obtain ⟨_ | ce, w'⟩ := r
  · exact .of_quiet hcheck
  · obtain ⟨errs, hwrite⟩ := hwrite (s.sweetenFields context w').1 (s.sweetenFields context w').2
    exact ((Reported.of_quiet hcheck).trans (s.sweetenFields_reported context w')).trans
      (.of_report hwrite)

/-- The same for `log` and `logln`, which may return early. -/
theorem write_reported_early (lvl : Level) (msg : Bytes) (context : List (Arg F V))
    (w : World E F) :
    Reported s.base.errorOutput w (if lvl < Level.dpanic && !s.base.core.enabled lvl then w
      else s.write lvl msg context w) := by
  split
  next => exact .of_quiet (.refl w)
  next => exact s.write_reported lvl msg context w

end SugaredLogger

end

/-- The errors that encoders, the `Write` of destinations and hooks return are reported on the error
output of the logger, by whatever returns. An entry from `Check` that is written at any later time makes
one report, of all the errors it has met, or none if there were none; `Check` makes no report. And
whichever method of a logger or a sugared logger is called, its reports together hold every error that
was returned during the call, once and in order. -/
theorem write_errors_reported [Encoder E F] [Panics E F] [Environment E F] [Process E F] [Format F V]
    (log : Logger E F) :
    (∀ (lvl : Level) (msg : Bytes) (w : World E F) (ce : Option (CheckedEntry E F)) (w₁ : World E F),
      log.check? lvl msg w = (some ce, w₁) →
        failuresOf w₁.trace = failuresOf w.trace ∧ reportsOf w₁.trace = reportsOf w.trace ∧
        ∀ (fields : List F) (w' : World E F), (CheckedEntry.write? ce fields w').1.isSome → ∃ errs,
          failuresOf (CheckedEntry.write? ce fields w').2.trace = failuresOf w'.trace ++ errs ∧
            reportsOf (CheckedEntry.write? ce fields w').2.trace =
              reportsOf w'.trace ++ if errs = [] then [] else [(log.errorOutput, errs)]) ∧
    ∀ (call : LogCall F V) (w : World E F), (call.run? log w).1.isSome → ∃ errs reports,
      failuresOf (call.run? log w).2.trace = failuresOf w.trace ++ errs ∧
        reportsOf (call.run? log w).2.trace = reportsOf w.trace ++ reports ∧
        reports.flatMap Prod.snd = errs ∧ ∀ r ∈ reports, r.1 = log.errorOutput ∧ r.2 ≠ [] := by
  refine ⟨fun lvl msg w ce w₁ hsome => ?_, fun call w hreturns => ?_⟩
  · have hcheck := (log.check_account lvl msg w).1
    have hkinds := log.check_kinds lvl msg w
    have hwrite := log.write_account lvl msg w
    rw [Logger.check?_returned hsome] at hcheck hkinds hwrite
    refine ⟨hcheck.failures.trans (List.append_nil _), hcheck.reports.trans (List.append_nil _),
      fun fields w' hreturns => ?_⟩
    obtain ⟨errs, hwrite⟩ := hwrite fields w'
    rw [CheckedEntry.write?_returned hkinds (Attempt.eq_of_isSome hreturns)] at hwrite
    exact ⟨errs, hwrite.failures, hwrite.reports⟩
  · have hcall : Reported log.errorOutput w (call.run log w) := by
      cases call with
      | log method msg fields => exact log.log_reported method msg fields w
      | print method args => exact SugaredLogger.write_reported_early ⟨log⟩ _ _ _ w
      | printf method template args => exact SugaredLogger.write_reported_early ⟨log⟩ _ _ _ w
      | printw method msg keysAndValues => exact SugaredLogger.write_reported_early ⟨log⟩ _ _ _ w
      | println method args => exact SugaredLogger.write_reported_early ⟨log⟩ _ _ _ w
    obtain ⟨errs, reports, hacc, hrest⟩ := hcall
    rw [LogCall.run?_returned (Attempt.eq_of_isSome hreturns)] at hacc
    exact ⟨errs, reports, hacc.failures, hacc.reports, hrest⟩

/-- The disk is full. -/
theorem write_errors_reported_full :
    let _ : Host := ⟨Location.utc⟩
    let _ : Environment (Option JsonEncoder) Zapcore.Field :=
      ⟨fun _ _ _ => some (utf8 "disk full"), fun _ _ => none, fun _ _ _ => none⟩
    let _ : Process (Option JsonEncoder) Zapcore.Field :=
      ⟨fun _ _ => .ofUnixNano 0 Location.utc, fun _ _ _ => [], 0, 0, 0⟩
    let _ : Format Zapcore.Field Unit :=
      .ofFields (fun key _ => ⟨key, .bool, 1, [], .nil⟩) (fun _ => []) (fun _ => []) (fun _ _ => [])
        fun _ => ⟨[], .bool, 1, [], .nil⟩
    let log := { (Logger.newNop : Logger (Option JsonEncoder) Zapcore.Field) with
      core := .io (jsonLeaf Level.info 0) }
    let o := LogCall.run? (V := Unit) (.log .info (utf8 "m") []) log .start
    o.1.isSome ∧ ∃ reports, reportsOf o.2.trace = reports ∧
      reports.flatMap Prod.snd = [utf8 "disk full"] := by
  intro _ _ _ _ log o
  have hreturns : o.1.isSome := rfl
  obtain ⟨errs, reports, hfailures, hreports, hall, -⟩ :=
    (write_errors_reported (V := Unit) log).2 (.log .info (utf8 "m") []) .start hreturns
  refine ⟨hreturns, reports, hreports, hall.trans ?_⟩
  exact hfailures.symm.trans rfl

end Zap
