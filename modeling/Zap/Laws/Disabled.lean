import Zap.Laws.IoCore
import Zap.Sugar

/-!
# Levels that are not enabled

A core whose `Enabled` says no is not interested: `Check` from nothing registers nothing, and it
touches no counter and no lazy core (`Core.check_disabled_none`). `Enabled` and `Check` are written
apart from each other for each kind of core, so this is an induction over the core.

Loggers ask `Enabled` first and return early. By the above that changes nothing. The histories of
hook checks do differ, and nobody reads them, so the worlds are compared without.
-/

set_option autoImplicit false

namespace Zap.Zapcore

variable {E F : Type} {b : Bool}

/-- What a world is, without the history of hook checks. -/
def World.visible (w : World E F) : World E F := { w with hookChecks := [] }

/-- At a level that is not enabled, `Check` from nothing does nothing. -/
theorem Core.check_disabled_none [Encoder E F] {core : Core E F b} {ent : Entry}
    (hoff : core.enabled ent.level = false) (w : World E F) :
    ∃ hookChecks, core.check ent none w = (none, { w with hookChecks }) := by
  induction core generalizing w with
  | nop => exact ⟨w.hookChecks, check_nop ent none w⟩
  | io core =>
    have hlevel : core.level.enabled ent.level = false := hoff
    exact ⟨w.hookChecks, by simp only [check_io, hlevel, Bool.false_eq_true, ↓reduceIte]⟩
  | nil => exact ⟨w.hookChecks, check_nil ent none w⟩
  | cons core cores ih ihs =>
    obtain ⟨hoff, hoffs⟩ := Bool.or_eq_false_iff.mp ((enabled_cons core cores _).symm.trans hoff)
    obtain ⟨checks, hcheck⟩ := ih hoff w
    obtain ⟨checks', hchecks⟩ := ihs hoffs { w with hookChecks := checks }
    exact ⟨checks', by rw [check_cons, hcheck, hchecks]⟩
  | hooked core funcs ih =>
    obtain ⟨checks, hcheck⟩ := ih hoff w
    exact ⟨_, by rw [check_hooked, hcheck]; rfl⟩
  | levelFilter core level _ =>
    have hlevel : level.enabled ent.level = false := hoff
    exact ⟨w.hookChecks, by simp only [check_levelFilter, hlevel, Bool.not_false, ↓reduceIte]⟩
  | sampler core s _ =>
    have hcore : core.enabled ent.level = false := hoff
    exact ⟨w.hookChecks, by
      simp only [check_sampler, checkSampled, hcore, Bool.not_false, ↓reduceIte]⟩
  | lazyWith h ref original own _ =>
    have horiginal : original.enabled ent.level = false := hoff
    exact ⟨w.hookChecks, by simp only [check_lazyWith, horiginal, Bool.not_false, ↓reduceIte]⟩

end Zap.Zapcore

namespace Zap

open Data Zapcore

variable {E F V : Type} [Encoder E F] [Environment E F] [Process E F]

namespace Logger

omit [Encoder E F] [Environment E F] [Process E F] in
/-- Below `DPanicLevel` nothing is set up for the end. -/
theorem terminate_of_lt (log : Logger E F) (ent : Entry) (h : ent.level < Level.dpanic)
    (ce : Option (CheckedEntry E F)) : log.terminate ent ce = ce := by
  have hne : ∀ l : Level, Level.dpanic ≤ l → ent.level ≠ l := by
    rintro l hl rfl
    exact Int8.not_lt.mpr hl h
  simp only [terminate, hne Level.panic (by decide), hne Level.fatal (by decide),
    hne Level.dpanic (by decide), ↓reduceIte]

/-- `check` without its early return, where that would be taken. -/
theorem checkCore_disabled (log : Logger E F) {lvl : Level} (hlt : lvl < Level.dpanic)
    (hoff : log.core.enabled lvl = false) (msg : Bytes) (w : World E F) :
    ∃ hookChecks, log.checkCore lvl msg w = (none, { w with hookChecks }) := by
  have hent : log.core.enabled (log.entry lvl msg w).level = false := hoff
  obtain ⟨checks, hcheck⟩ := Core.check_disabled_none hent w
  have hend := log.terminate_of_lt (log.entry lvl msg w) hlt none
  refine ⟨checks, ?_⟩
  simp only [checkCore, hcheck, hend]

/-- `check` with and without its early return. -/
theorem check_eq_checkCore (log : Logger E F) (lvl : Level) (msg : Bytes) (w : World E F) :
    (log.check lvl msg w).1 = (log.checkCore lvl msg w).1 ∧
      (log.check lvl msg w).2.visible = (log.checkCore lvl msg w).2.visible := by
  unfold check
  split
  next h =>
    obtain ⟨hlt, hoff⟩ : lvl < Level.dpanic ∧ log.core.enabled lvl = false := by simpa using h
    obtain ⟨checks, hcheck⟩ := log.checkCore_disabled hlt hoff msg w
    rw [hcheck]
    exact ⟨rfl, rfl⟩
  next => exact ⟨rfl, rfl⟩

end Logger

namespace SugaredLogger

variable [Format F V]

/-- `log` and `logln` with no early return, neither their own nor that of `check`. -/
def writeCore (s : SugaredLogger E F) (lvl : Level) (msg : Bytes) (context : List (Arg F V))
    (w : World E F) : World E F :=
  match s.base.checkCore lvl msg w with
  | (none, w) => w
  | (some ce, w) =>
    let (fields, w) := s.sweetenFields context w
    CheckedEntry.write (some ce) fields w

/-- Asking `Enabled` first changes nothing. -/
theorem write_eq_writeCore (s : SugaredLogger E F) (lvl : Level) (msg : Bytes)
    (context : List (Arg F V)) (w : World E F) :
    (if lvl < Level.dpanic && !s.base.core.enabled lvl then w
      else s.write lvl msg context w).visible = (s.writeCore lvl msg context w).visible := by
  unfold write writeCore Logger.check
  split
  next h =>
    obtain ⟨hlt, hoff⟩ : lvl < Level.dpanic ∧ s.base.core.enabled lvl = false := by simpa using h
    obtain ⟨checks, hcheck⟩ := s.base.checkCore_disabled hlt hoff msg w
    rw [hcheck]
    rfl
  next => rfl

end SugaredLogger

/-- At a level that is not enabled, `Check` from nothing returns nothing and leaves counters and
lazy cores as they are. So `check`, `log` and `logln` return and do the same with their early
return and without it. -/
theorem disabled_fast_path [Format F V] :
    (∀ {b : Bool} (core : Core E F b) (ent : Entry) (w : World E F),
      core.enabled ent.level = false →
        (core.check ent none w).1 = none ∧
          (core.check ent none w).2.counters = w.counters ∧
          (core.check ent none w).2.cells = w.cells ∧
          (core.check ent none w).2.visible = w.visible) ∧
    (∀ (log : Logger E F) (lvl : Level) (msg : Bytes) (w : World E F),
      (log.check lvl msg w).1 = (log.checkCore lvl msg w).1 ∧
        (log.check lvl msg w).2.visible = (log.checkCore lvl msg w).2.visible) ∧
    (∀ (s : SugaredLogger E F) (lvl : Level) (template : Bytes) (fmtArgs context : List (Arg F V))
        (w : World E F),
      (s.log lvl template fmtArgs context w).visible =
          (s.writeCore lvl (getMessage template fmtArgs) context w).visible ∧
        (s.logln lvl fmtArgs context w).visible =
          (s.writeCore lvl (getMessageln fmtArgs) context w).visible) := by
  refine ⟨fun core ent w hoff => ?_, Logger.check_eq_checkCore, fun s lvl template fmtArgs context w =>
    ⟨s.write_eq_writeCore lvl _ context w, s.write_eq_writeCore lvl _ context w⟩⟩
  obtain ⟨checks, hcheck⟩ := Core.check_disabled_none hoff w
  rw [hcheck]
  exact ⟨rfl, rfl, rfl, rfl⟩

end Zap
