import Zap.Laws.Programs
import Zap.Laws.Terminal
import Zap.Laws.ZapioWriter
import Zap.Zapgrpc.Logger

/-!
# A logger for gRPC, and how it ends

A fatal message ends with the terminal hook, also if no core takes the message. The sugared logger
sees to that: at the panic levels and above it does not ask whether the level is enabled. `Fatalln`
does ask, so it returns without a call of the hook where `Fatal` and `Fatalf` make one.

A message is written just if some leaf of the core passes (`Logger.passes`), which the survey of the core
before the call says: its own level, every level around it and every sampler around it, with the
counters as they are, let the entry through. Only a sampler drops a message at a level that is enabled
(`Core.survey_unsampled`).
-/

set_option autoImplicit false

namespace Zap.Zapcore

open Data

variable {E F : Type} {b : Bool}

/-! ## What a core takes -/

namespace Core

mutual
/-- No sampler, and no filter that lets a level pass which the filtered core does not have. -/
def Unsampled (lvl : Level) : Core E F b → Prop
  | .nop => True
  | .io _ => True
  | .multi cores => UnsampledAll lvl cores
  | .hooked core _ => core.Unsampled lvl
  | .levelFilter core level => core.Unsampled lvl ∧ (level.enabled lvl = true → core.enabled lvl = true)
  | .sampler _ _ => False
  | .lazyWith _ _ original _ => original.Unsampled lvl
def UnsampledAll (lvl : Level) : List (Core E F b) → Prop
  | [] => True
  | core :: cores => core.Unsampled lvl ∧ UnsampledAll lvl cores
end

/-- Without samplers a leaf passes if the level is enabled. -/
theorem survey_unsampled {ent : Entry} {core : Core E F b} (h : core.Unsampled ent.level)
    {way : Way F} (hway : way.passes = true) (started : Bool) (counters : Nat → Counters) :
    (core.survey ent way started counters).passing = core.enabled ent.level := by
  induction core generalizing way started counters with
  | nop => rfl
  | io core =>
    simp only [survey, Survey.passing, hway, Bool.true_and, List.any_cons, List.any_nil,
      Bool.or_false, enabled]
  | nil => rfl
  | cons core cores ih ihs =>
    rw [survey_cons, Survey.passing_append, ih h.1 hway, ihs h.2 hway, enabled_cons]
  | hooked core funcs ih => exact ih h hway _ _
  | levelFilter core level ih =>
    cases hlevel : level.enabled ent.level with
    | false =>
      have hoff : (levelFilter core level).enabled ent.level = false := hlevel
      rw [hoff]
      exact survey_disabled hoff
    | true =>
      have hon : (levelFilter core level).enabled ent.level = core.enabled ent.level :=
        hlevel.trans (h.2 hlevel).symm
      rw [hon]
      exact ih h.1 (by rw [hway, hlevel, Bool.true_and]) _ _
  | sampler core s _ => exact h.elim
  | lazyWith _ ref original own ih => exact ih h (by exact hway) _ _

/-- In every state of a program, a core takes an entry if one of its leaves passes. -/
theorem check_isSome [Encoder E F] [Environment E F] {w : World E F} {cores : List (Core E F true)}
    (hreach : Reachable w cores) {core : Core E F true} (hcore : core ∈ cores) (ent : Entry) :
    (core.check ent none w).1.isSome = (core.survey ent .start false w.counters).passing := by
  obtain ⟨content, hvalid⟩ := hreach.valid
  have hcheck := surveyed ent (hvalid.coherent core hcore) (hvalid.below core hcore) none w
    hvalid.agrees
  rw [hcheck.isSome, Option.isSome_none, Bool.false_or]

end Core

/-! ## What is written -/

/-- A message is written to some leaf, and nothing else is written. -/
def Wrote (lvl : Level) (msg : Bytes) (w w' : World E F) : Prop :=
  ∃ news, news ≠ [] ∧ writesOf w'.trace = writesOf w.trace ++ news ∧
    ∀ e ∈ news, e.2.1.level = lvl ∧ e.2.1.message = msg ∧ e.2.2 = []

theorem wrote_iff {lvl : Level} {msg : Bytes} {w w' : World E F}
    {news : List (IoCore E × Entry × List F)} (hnews : writesOf w'.trace = writesOf w.trace ++ news)
    (hall : ∀ e ∈ news, e.2.1.level = lvl ∧ e.2.1.message = msg ∧ e.2.2 = []) :
    Wrote lvl msg w w' ↔ news ≠ [] := by
  constructor
  · rintro ⟨news', hne, hwrites, _⟩
    rw [hnews, List.append_cancel_left_eq] at hwrites
    rwa [hwrites]
  · exact fun hne => ⟨news, hne, hnews, hall⟩

theorem not_wrote_self (lvl : Level) (msg : Bytes) (w : World E F) : ¬ Wrote lvl msg w w := by
  have hnews : writesOf w.trace = writesOf w.trace ++ [] := (List.append_nil _).symm
  rw [wrote_iff hnews (fun e he => by cases he)]
  exact fun hne => hne rfl

/-- A checked entry with a message, and what has registered for it. -/
structure CheckedEntry.Offered (ce : CheckedEntry E F) (lvl : Level) (msg : Bytes)
    (regs : List (Kind E)) : Prop where
  dirty : ce.dirty = false
  before : ce.before = []
  level : ce.entry.level = lvl
  message : ce.entry.message = msg
  cores : ce.cores.map Kind.of = regs.map some

section

variable [Encoder E F] [Environment E F]

/-- `Write` writes to the leaves that have registered. What comes after, a report and the terminal
hook, is no write. -/
theorem CheckedEntry.Offered.wrote_iff {ce : CheckedEntry E F} {lvl : Level} {msg : Bytes}
    {regs : List (Kind E)} (h : ce.Offered lvl msg regs) (w : World E F) :
    Wrote lvl msg w (CheckedEntry.write (some ce) [] w) ↔ HasLeaf ce.cores := by
  have hcalls := (writeCores_calls ce.entry [] h.cores w).writes
  have hwrite := CheckedEntry.writesOf_write h.dirty h.before [] w
  rw [Zapcore.wrote_iff (hwrite.trans hcalls), hasLeaf_iff h.cores, ne_eq, ne_eq, List.map_eq_nil_iff]
  intro e he
  obtain ⟨leaf, _, rfl⟩ := List.mem_map.mp he
  exact ⟨h.level, h.message, rfl⟩

end

end Zap.Zapcore

namespace Zap

open Data Zapcore

variable {E F V : Type}

namespace Logger

section

variable [Encoder E F] [Process E F]

/-- Does the core take a message? -/
def takes (log : Logger E F) (lvl : Level) (msg : Bytes) (w : World E F) : Bool :=
  (log.core.check (log.entry lvl msg w) none w).1.isSome

/-- A core takes nothing at a level that is not enabled. -/
theorem takes_disabled (log : Logger E F) {lvl : Level} (h : log.core.enabled lvl = false)
    (msg : Bytes) (w : World E F) : log.takes lvl msg w = false := by
  have hent : log.core.enabled (log.entry lvl msg w).level = false := h
  obtain ⟨checks, hcheck⟩ := Core.check_disabled_none hent w
  rw [takes, hcheck]
  rfl

/-- Is a message for some leaf of the core? -/
def passes (log : Logger E F) (lvl : Level) (msg : Bytes) (w : World E F) : Bool :=
  (log.core.survey (log.entry lvl msg w) .start false w.counters).passing

theorem takes_eq_passes [Environment E F] (log : Logger E F) {w : World E F}
    {cores : List (Core E F true)} (hreach : Reachable w cores) (hcore : log.core ∈ cores)
    (lvl : Level) (msg : Bytes) : log.takes lvl msg w = log.passes lvl msg w :=
  Core.check_isSome hreach hcore _

/-- What `check` returns: nothing, or an entry on which a leaf has registered if the core takes the
message. -/
structure Offers (log : Logger E F) (lvl : Level) (msg : Bytes) (w : World E F)
    (r : Option (CheckedEntry E F) × World E F) : Prop where
  writes : writesOf r.2.trace = writesOf w.trace
  result : (r.1 = none ∧ log.takes lvl msg w = false) ∨
    ∃ ce regs, r.1 = some ce ∧ ce.Offered lvl msg regs ∧
      (HasLeaf ce.cores ↔ log.takes lvl msg w = true)

end

variable [Environment E F] [Process E F] [Encoder E F]

theorem check_offers (log : Logger E F) (lvl : Level) (msg : Bytes) (w : World E F) :
    log.Offers lvl msg w (log.check lvl msg w) := by
  obtain ⟨⟨regs, hregs⟩, _⟩ := log.core.check_quietly (log.entry lvl msg w) none w
  obtain ⟨hleafy, htrace⟩ := log.core.check_leafy (log.entry lvl msg w) none w leafy_none
  have htakes : log.takes lvl msg w = (log.core.check (log.entry lvl msg w) none w).1.isSome := rfl
  rcases log.check_cases lvl msg w with ⟨h, hoff, _⟩ | ⟨hnone, h⟩ | ⟨cores, hsome, h⟩
  · rw [h]
    exact ⟨rfl, .inl ⟨rfl, log.takes_disabled hoff msg w⟩⟩
  · -- Nothing has registered. If there is an entry, it is there for its hook.
    have hleaf : ¬ HasLeaf ([] : List ((b : Bool) × Core E F b)) := by
      rintro ⟨core, hcore, _⟩
      cases hcore
    rw [hnone] at htakes
    rw [h]
    cases log.terminal lvl with
    | none => exact ⟨htrace, .inl ⟨rfl, htakes⟩⟩
    | some hook =>
      refine ⟨htrace, .inr ⟨_, [], rfl, ⟨rfl, rfl, rfl, rfl, rfl⟩, ?_⟩⟩
      exact iff_of_false hleaf (by rw [htakes]; exact Bool.false_ne_true)
  · rw [hsome] at hregs hleafy htakes
    have hleaf : HasLeaf cores := hleafy _ rfl
    obtain ⟨⟨caller, stack, hce⟩, hw⟩ := log.annotate_cases (log.entry lvl msg w)
      ⟨log.entry lvl msg w, none, false, log.terminal lvl, cores, []⟩
      (log.core.check (log.entry lvl msg w) none w).2
    rcases hregs.of_none with ⟨hnone, _⟩ | ⟨_, hcores, hregs⟩
    · cases hnone
    · cases hcores
      rw [h, hce]
      refine ⟨?_, .inr ⟨_, regs, rfl, ⟨rfl, rfl, rfl, rfl, hregs⟩, iff_of_true hleaf htakes⟩⟩
      rcases hw with hw | ⟨time, hw⟩
      · rw [hw]
        exact htrace
      · rw [hw]
        exact (writesOf_emit _ rfl).trans ((writesOf_emit _ rfl).trans htrace)

end Logger

namespace SugaredLogger

variable [Encoder E F] [Environment E F] [Process E F] [Format F V]

theorem wrote_write_iff (s : SugaredLogger E F) (lvl : Level) (msg : Bytes) (w : World E F) :
    Wrote lvl msg w (s.write lvl msg ([] : List (Arg F V)) w) ↔
      s.base.takes lvl msg w = true := by
  obtain ⟨hwrites, hresult⟩ := s.base.check_offers lvl msg w
  unfold write
  generalize s.base.check lvl msg w = r at hwrites hresult
  obtain ⟨ce, w'⟩ := r
  have hfrom : ∀ w'', Wrote lvl msg w' w'' ↔ Wrote lvl msg w w'' := by
    intro w''
    simp only at hwrites
    simp only [Wrote, hwrites]
  rcases hresult with ⟨rfl, htakes⟩ | ⟨ce, regs, rfl, hoffered, hleaf⟩
  · rw [htakes, ← hfrom]
    exact iff_of_false (not_wrote_self lvl msg w') Bool.false_ne_true
  · rw [← hfrom, ← hleaf, ← hoffered.wrote_iff w']
    rfl

/-- A message without context is written just if the core takes it. -/
theorem wrote_log_iff (s : SugaredLogger E F) (lvl : Level) (template : Bytes)
    (args : List (Arg F V)) (w : World E F) :
    Wrote lvl (getMessage template args) w (s.log lvl template args [] w) ↔
      s.base.takes lvl (getMessage template args) w = true := by
  unfold log
  split
  next h =>
    obtain ⟨_, hoff⟩ : lvl < Level.dpanic ∧ s.base.core.enabled lvl = false := by simpa using h
    rw [s.base.takes_disabled hoff]
    exact iff_of_false (not_wrote_self _ _ w) Bool.false_ne_true
  next => exact s.wrote_write_iff lvl _ w

/-- A hook is called once, and no other. -/
def RunsHook (hook : CheckWriteHook) (w w' : World E F) : Prop :=
  ∃ ent fields, onWritesOf w'.trace = onWritesOf w.trace ++ [(hook, ent, fields)]

/-- A fatal message runs the fatal hook, whatever the core takes. -/
theorem log_fatal_runsHook (s : SugaredLogger E F) (template : Bytes) (args : List (Arg F V))
    (w : World E F) :
    RunsHook (terminalHookOverride .fatal s.base.onFatal) w
      (s.log Level.fatal template args [] w) := by
  obtain ⟨fields, w', hquiet, ent, _, _, hends⟩ :=
    s.write_ends_early Level.fatal (getMessage template args) [] w
  refine ⟨ent, fields, ?_⟩
  rw [hquiet] at hends
  exact hends

end SugaredLogger

/-! ## The methods -/

namespace Zapgrpc

variable [Encoder E F] [Environment E F] [Process E F] [Format F V]

/-- What `NewLogger` makes if it is not told to redirect fatal messages. -/
structure Built (l : Zap.Logger E F) (g : Logger E F V) : Prop where
  delegate : g.delegate = l.sugar
  levelEnabler : g.levelEnabler = l.core.enabled
  printer : ∃ method : Method, (method = .info ∨ method = .debug) ∧
    g.printer = .ofMethod l.sugar l.core.enabled method
  fatalPrinter : g.fatalPrinter = .ofMethod l.sugar l.core.enabled .fatal

theorem newLogger_built (l : Zap.Logger E F) {options : List LoggerOption}
    (h : .withWarn ∉ options) : Built l (newLogger l options : Logger E F V) := by
  have hfold : ∀ g : Logger E F V, Built l g →
      Built l (options.foldl (fun g opt => opt.apply g) g) := by
    induction options with
    | nil => exact fun g hg => hg
    | cons opt options ih =>
      obtain ⟨hopt, hopts⟩ := not_or.mp (mt List.mem_cons.mpr h)
      intro g hg
      refine ih hopts (opt.apply g) ?_
      cases opt with
      | withWarn => exact absurd rfl hopt
      | withDebug =>
        refine ⟨hg.delegate, hg.levelEnabler, ⟨.debug, .inr rfl, ?_⟩, hg.fatalPrinter⟩
        rw [← hg.delegate, ← hg.levelEnabler]
        rfl
  exact hfold _ ⟨rfl, rfl, ⟨.info, .inl rfl, rfl⟩, rfl⟩

omit [Encoder E F] [Environment E F] [Process E F] in
/-- A single string is a message as it is. -/
theorem getMessage_string (msg : Bytes) : getMessage [] [(.string msg : Arg F V)] = msg := by
  simp only [getMessage, List.cons_ne_nil, ↓reduceIte, ne_eq, not_true_eq_false]

/-- Asking whether the level is enabled before a message is formatted makes no difference to what is
written. -/
theorem wrote_println_iff (l : Zap.Logger E F) (method : Method) (msg : Bytes) (w : World E F) :
    Wrote method.level msg w (if l.core.enabled method.level then
        l.sugar.print method [(.string msg : Arg F V)] w else w) ↔
      l.takes method.level msg w = true := by
  split
  next =>
    have hwrote := l.sugar.wrote_log_iff method.level [] [(.string msg : Arg F V)] w
    rwa [getMessage_string] at hwrote
  next h =>
    rw [l.takes_disabled (Bool.eq_false_iff.mpr h)]
    exact iff_of_false (not_wrote_self _ _ w) Bool.false_ne_true

/-- A fatal message ends as it should: with the hook, and written if the level is enabled. -/
structure Terminates (l : Zap.Logger E F) (msg : Bytes) (w w' : World E F) : Prop where
  hook : SugaredLogger.RunsHook (terminalHookOverride .fatal l.onFatal) w w'
  wrote : Wrote Level.fatal msg w w' ↔ l.core.enabled Level.fatal = true

/-- Fatal messages end alike, and a method that ends in `ln` logs just if the one without does. -/
structure Alike (l : Zap.Logger E F) (g : Logger E F V) (format : Bytes) (args : List (Arg F V))
    (w : World E F) : Prop where
  fatal : Terminates l (getMessage [] args) w (g.fatal args w)
  fatalf : Terminates l (getMessage format args) w (g.fatalf format args w)
  fatalln : Terminates l (sprintln args) w (g.fatalln args w)
  print : Wrote g.printer.level (sprintln args) w (g.println args w) ↔
    Wrote g.printer.level (getMessage [] args) w (g.print args w)
  info : Wrote Level.info (sprintln args) w (g.infoln args w) ↔
    Wrote Level.info (getMessage [] args) w (g.info args w)
  warning : Wrote Level.warn (sprintln args) w (g.warningln args w) ↔
    Wrote Level.warn (getMessage [] args) w (g.warning args w)
  error : Wrote Level.error (sprintln args) w (g.errorln args w) ↔
    Wrote Level.error (getMessage [] args) w (g.error args w)

/-- `Fatal` and `Fatalf` call the hook. -/
theorem terminates_log_iff (l : Zap.Logger E F) (template : Bytes) (args : List (Arg F V))
    (w : World E F) :
    Terminates l (getMessage template args) w (l.sugar.log Level.fatal template args [] w) ↔
      (l.takes Level.fatal (getMessage template args) w = true ↔
        l.core.enabled Level.fatal = true) := by
  have hwrote := l.sugar.wrote_log_iff Level.fatal template args w
  constructor
  · exact fun h => hwrote.symm.trans h.wrote
  · exact fun h => ⟨l.sugar.log_fatal_runsHook template args w, hwrote.trans h⟩

/-- `Fatalln` calls the hook only if the level is enabled. -/
theorem terminates_println_iff (l : Zap.Logger E F) (msg : Bytes) (w : World E F) :
    Terminates l msg w (if l.core.enabled Level.fatal then
        l.sugar.print .fatal [(.string msg : Arg F V)] w else w) ↔
      l.core.enabled Level.fatal = true ∧ l.takes Level.fatal msg w = true := by
  split
  next h =>
    have hlog := terminates_log_iff l [] [(.string msg : Arg F V)] w
    rw [getMessage_string, h, iff_true_right rfl] at hlog
    rw [h, and_iff_right rfl]
    exact hlog
  next h =>
    refine iff_of_false (fun hterm => ?_) (fun hand => h hand.1)
    obtain ⟨ent, fields, hhook⟩ := hterm.hook
    exact List.cons_ne_nil _ _ (List.append_right_eq_self.mp hhook.symm)

/-- A logger whose methods behave alike, by what its core takes. -/
theorem Built.alike_takes_iff {l : Zap.Logger E F} {g : Logger E F V} (h : Built l g) (format : Bytes)
    (args : List (Arg F V)) (w : World E F) :
    Alike l g format args w ↔
      l.core.enabled Level.fatal = true ∧
      (∀ msg ∈ [getMessage [] args, getMessage format args, sprintln args],
        l.takes Level.fatal msg w = true) ∧
      ∀ lvl ∈ [g.printer.level, Level.info, Level.warn, Level.error],
        l.takes lvl (sprintln args) w = l.takes lvl (getMessage [] args) w := by
  obtain ⟨hdelegate, henabler, ⟨method, _, hprinter⟩, hfatal⟩ := h
  obtain ⟨delegate, levelEnabler, printer, fatalPrinter⟩ := g
  obtain rfl : delegate = l.sugar := hdelegate
  obtain rfl : levelEnabler = l.core.enabled := henabler
  obtain rfl : printer = .ofMethod l.sugar l.core.enabled method := hprinter
  obtain rfl : fatalPrinter = .ofMethod l.sugar l.core.enabled .fatal := hfatal
  -- Each method that ends in `ln` against the one without.
  have hsteady : ∀ method : Method,
      (Wrote method.level (sprintln args) w (if l.core.enabled method.level then
          l.sugar.print method [(.string (sprintln args) : Arg F V)] w else w) ↔
        Wrote method.level (getMessage [] args) w (l.sugar.print method args w)) ↔
      l.takes method.level (sprintln args) w = l.takes method.level (getMessage [] args) w := by
    intro method
    have hplain := l.sugar.wrote_log_iff method.level [] args w
    exact (iff_congr (wrote_println_iff l method (sprintln args) w) hplain).trans Bool.eq_iff_iff.symm
  simp only [List.forall_mem_cons, List.not_mem_nil, false_imp_iff, implies_true, and_true]
  constructor
  · intro halike
    obtain ⟨hon, hln⟩ := (terminates_println_iff l (sprintln args) w).mp halike.fatalln
    have hplain := (terminates_log_iff l [] args w).mp halike.fatal
    have hformat := (terminates_log_iff l format args w).mp halike.fatalf
    exact ⟨hon, ⟨hplain.mpr hon, hformat.mpr hon, hln⟩, (hsteady method).mp halike.print,
      (hsteady .info).mp halike.info, (hsteady .warn).mp halike.warning,
      (hsteady .error).mp halike.error⟩
  · rintro ⟨hon, ⟨hplain, hformat, hln⟩, hprint, hinfo, hwarn, herror⟩
    exact {
      fatal := (terminates_log_iff l [] args w).mpr (iff_of_true hplain hon)
      fatalf := (terminates_log_iff l format args w).mpr (iff_of_true hformat hon)
      fatalln := (terminates_println_iff l (sprintln args) w).mpr ⟨hon, hln⟩
      print := (hsteady method).mpr hprint
      info := (hsteady .info).mpr hinfo
      warning := (hsteady .warn).mpr hwarn
      error := (hsteady .error).mpr herror }

section

variable {w : World E F} {cores : List (Core E F true)}

/-- In every state of a program, by what the survey of the core says before the call. -/
theorem Built.alike_iff {l : Zap.Logger E F} {g : Logger E F V} (h : Built l g)
    (hreach : Reachable w cores) (hcore : l.core ∈ cores) (format : Bytes) (args : List (Arg F V)) :
    Alike l g format args w ↔
      l.core.enabled Level.fatal = true ∧
      (∀ msg ∈ [getMessage [] args, getMessage format args, sprintln args],
        l.passes Level.fatal msg w = true) ∧
      ∀ lvl ∈ [g.printer.level, Level.info, Level.warn, Level.error],
        l.passes lvl (sprintln args) w = l.passes lvl (getMessage [] args) w := by
  simp only [h.alike_takes_iff, l.takes_eq_passes hreach hcore]

/-- Where no sampler decides, that is just if the fatal level is enabled. -/
theorem newLogger_alike_unsampled (l : Zap.Logger E F) {options : List LoggerOption}
    (h : .withWarn ∉ options) (hreach : Reachable w cores) (hcore : l.core ∈ cores)
    (hun : ∀ lvl ∈ [Level.debug, Level.info, Level.warn, Level.error, Level.fatal],
      l.core.Unsampled lvl) (format : Bytes) (args : List (Arg F V)) :
    Alike l (newLogger l options) format args w ↔ l.core.enabled Level.fatal = true := by
  have hbuilt : Built l (newLogger l options : Logger E F V) := newLogger_built l h
  have hpasses : ∀ lvl ∈ [Level.debug, Level.info, Level.warn, Level.error, Level.fatal],
      ∀ msg, l.passes lvl msg w = l.core.enabled lvl := by
    intro lvl hlvl msg
    have hent : l.core.Unsampled (l.entry lvl msg w).level := hun lvl hlvl
    exact Core.survey_unsampled hent rfl _ _
  rw [hbuilt.alike_iff hreach hcore format args]
  constructor
  · exact fun hand => hand.1
  · refine fun hon => ⟨hon, fun msg _ => ?_, fun lvl hlvl => ?_⟩
    · rw [hpasses _ (by decide), hon]
    · have hmem : lvl ∈ [Level.debug, Level.info, Level.warn, Level.error, Level.fatal] := by
        obtain ⟨method, hmethod, hprinter⟩ := hbuilt.printer
        have hfirst : (newLogger l options : Logger E F V).printer.level ∈ [Level.debug, Level.info] := by
          rw [hprinter]
          rcases hmethod with rfl | rfl
          · exact List.mem_cons_of_mem _ List.mem_cons_self
          · exact List.mem_cons_self
        rcases List.mem_cons.mp hlvl with rfl | hrest
        · exact List.mem_append_left [Level.warn, Level.error, Level.fatal] hfirst
        · exact List.mem_cons_of_mem _ (List.mem_append_left [Level.fatal] hrest)
      rw [hpasses lvl hmem, hpasses lvl hmem]

end

end Zapgrpc

end Zap
