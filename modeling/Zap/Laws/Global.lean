import Zap.Global
import Zap.Laws.LevelOf
import Zap.Laws.ZapioWriter

/-!
# Redirecting the standard library's logger

A redirect that succeeds sends what the standard logger prints to the zap logger, and calling the
functions that redirects return, the last one first, undoes all of them (`Redirected.run_nested`). A
redirect that fails has changed the flags and the prefix, and returns no function that would restore
them. That goes unnoticed inside of a redirect that succeeded, where both are empty already.
`redirects_iff` says when it is noticed.
-/

set_option autoImplicit false

namespace Zap

open Data Zapcore

variable {E F : Type}

/-! ## One redirect -/

/-- The levels that have a name have a method, which logs at that level. -/
theorem levelToFunc_cases (lvl : Level) :
    (∃ logFunc, levelToFunc lvl = .ok logFunc ∧ logFunc.level = lvl ∧ lvl.inRange = true) ∨
      levelToFunc lvl = .error (unrecognizedLevel lvl) ∧ lvl.inRange = false := by
  by_cases h : lvl ∈ Level.supported
  · left
    simp only [Level.supported, List.mem_cons, List.not_mem_nil, or_false] at h
    rcases h with rfl | rfl | rfl | rfl | rfl | rfl | rfl
    all_goals exact ⟨_, rfl, rfl, rfl⟩
  · right
    have hrange : lvl.inRange = false := by
      rw [← Bool.not_eq_true, Level.inRange, Bool.and_eq_true, decide_eq_true_eq, decide_eq_true_eq]
      exact fun hsup => h (Level.mem_supported.mpr hsup)
    simp only [Level.supported, List.mem_cons, List.not_mem_nil, or_false, not_or] at h
    refine ⟨?_, hrange⟩
    simp only [levelToFunc, h, ↓reduceIte]

theorem redirectStdLogAt_ok {lvl : Level} {logFunc : Method} (h : levelToFunc lvl = .ok logFunc)
    (l : Logger E F) (std : StdLog E F) :
    redirectStdLogAt l lvl std =
      (.ok ⟨std.header⟩, ⟨.blank, .loggerWriter l.skipStdLog logFunc⟩) := by
  simp only [redirectStdLogAt, h]

theorem redirectStdLogAt_error {lvl : Level} {err : Bytes} (h : levelToFunc lvl = .error err)
    (l : Logger E F) (std : StdLog E F) :
    redirectStdLogAt l lvl std = (.error err, ⟨.blank, std.output⟩) := by
  simp only [redirectStdLogAt, h]

section Printing

variable [Encoder E F] [Environment E F] [Process E F]

/-- Without a header only the message is written, and the newline after it is trimmed again. -/
theorem StdLog.print_loggerWriter (annotations : Int64 → Bytes) (l : Logger E F) (logFunc : Method)
    (msg : Bytes) (w : World E F) :
    StdLog.print annotations ⟨.blank, .loggerWriter l logFunc⟩ msg w =
      l.log logFunc (trimSpace msg) [] w := by
  have hformat : StdHeader.blank.format annotations = [] := rfl
  simp only [StdLog.print, hformat, List.nil_append]
  split
  · rfl
  · simp only [StdOutput.write, loggerWriterWrite, trimSpace_newline]

/-- The standard logger prints to a zap logger at a level, and only what it is told to print. -/
structure StdLog.SendsTo (std : StdLog E F) (l : Logger E F) (lvl : Level) : Prop where
  flags : std.header.flags = 0
  text : std.header.text = []
  prints : ∃ logFunc : Method, logFunc.level = lvl ∧ std.output = .loggerWriter l.skipStdLog logFunc ∧
    ∀ annotations msg w,
      std.print annotations msg w = l.skipStdLog.log logFunc (trimSpace msg) [] w

/-- A redirect happens, or nothing does. -/
structure Atomic (l : Logger E F) (lvl : Level) (std : StdLog E F) : Prop where
  failed {err : Bytes} (h : (redirectStdLogAt l lvl std).1 = .error err) :
    (redirectStdLogAt l lvl std).2 = std
  redirected {f : Restore} (h : (redirectStdLogAt l lvl std).1 = .ok f) :
    (redirectStdLogAt l lvl std).2.SendsTo l lvl

theorem atomic_iff (l : Logger E F) (lvl : Level) (std : StdLog E F) :
    Atomic l lvl std ↔ lvl.inRange = true ∨ std.header = .blank := by
  obtain ⟨logFunc, hfunc, hlevel, hrange⟩ | ⟨hfunc, hrange⟩ := levelToFunc_cases lvl
  · refine iff_of_true ?_ (.inl hrange)
    constructor
    · intro err h
      rw [redirectStdLogAt_ok hfunc] at h
      cases h
    · intro f _
      rw [redirectStdLogAt_ok hfunc]
      exact ⟨rfl, rfl, logFunc, hlevel, rfl, fun annotations msg w =>
        StdLog.print_loggerWriter annotations _ logFunc msg w⟩
  · rw [hrange, or_iff_right Bool.false_ne_true]
    constructor
    · intro h
      have hstd := h.failed (congrArg Prod.fst (redirectStdLogAt_error hfunc l std))
      rw [redirectStdLogAt_error hfunc] at hstd
      exact (congrArg StdLog.header hstd).symm
    · intro hblank
      constructor
      · intro err' _
        rw [redirectStdLogAt_error hfunc, ← hblank]
      · intro f h
        rw [redirectStdLogAt_error hfunc] at h
        cases h

end Printing

/-! ## Sequences of redirects -/

namespace RedirectCall

/-- A redirect that succeeds. -/
def redirected : RedirectCall E F → Bool
  | .redirect _ lvl => lvl.inRange
  | .restore => false

/-- Calls that leave no function uncalled, of those that are there to be called (`depth`) and those
that redirects return. -/
def Nested : Nat → List (RedirectCall E F) → Prop
  | depth, [] => depth = 0
  | depth, .redirect _ lvl :: calls => Nested (if lvl.inRange then depth + 1 else depth) calls
  | 0, .restore :: _ => False
  | depth + 1, .restore :: calls => Nested depth calls

/-- Some redirect fails while no function is there to be called. -/
def exposed : Nat → List (RedirectCall E F) → Bool
  | _, [] => false
  | depth, .redirect _ lvl :: calls =>
    if lvl.inRange then exposed (depth + 1) calls else depth == 0 || exposed depth calls
  | depth, .restore :: calls => exposed (depth - 1) calls

end RedirectCall

open RedirectCall

/-- A sequence of redirects that is properly nested. -/
structure RedirectSession (E F : Type) where
  calls : List (RedirectCall E F)
  nested : Nested 0 calls

/-- Of the current header and those that were captured, the last one is `base` and was there before
the first redirect. The others are empty. -/
def Redirected.Over (base : StdHeader) (s : Redirected E F) : Prop :=
  s.std.header :: s.restores.map Restore.header =
    List.replicate s.restores.length StdHeader.blank ++ [base]

namespace Redirected

variable [Process E F]

/-- A redirect that succeeds captures the current header. -/
theorem run_redirect_ok {l : Logger E F} {lvl : Level} {logFunc : Method}
    (h : levelToFunc lvl = .ok logFunc) (s : Redirected E F) :
    (RedirectCall.redirect l lvl).run s =
      some ⟨⟨.blank, .loggerWriter l.skipStdLog logFunc⟩, ⟨s.std.header⟩ :: s.restores⟩ := by
  simp only [RedirectCall.run, redirectStdLogAt_ok h]

theorem run_redirect_error {l : Logger E F} {lvl : Level} {err : Bytes}
    (h : levelToFunc lvl = .error err) (s : Redirected E F) :
    (RedirectCall.redirect l lvl).run s = some ⟨⟨.blank, s.std.output⟩, s.restores⟩ := by
  simp only [RedirectCall.run, redirectStdLogAt_error h]

/-- Where nested calls end: at the header from before the first redirect, unless a redirect has failed
outside of all others. -/
theorem run_nested (calls : List (RedirectCall E F)) {base : StdHeader} {s : Redirected E F}
    (hnested : Nested s.restores.length calls) (hover : s.Over base) :
    ∃ std, s.run calls = some ⟨std, []⟩ ∧
      std.header = (if exposed s.restores.length calls then .blank else base) ∧
      std.output = if s.restores.isEmpty && !calls.any redirected then s.std.output else .stderr := by
  induction calls generalizing base s with
  | nil =>
    obtain ⟨std, restores⟩ := s
    obtain rfl : restores = [] := List.eq_nil_of_length_eq_zero hnested
    exact ⟨std, rfl, (List.cons.inj hover).1, rfl⟩
  | cons call calls ih =>
    cases call with
    | redirect l lvl =>
      obtain ⟨logFunc, hfunc, _, hrange⟩ | ⟨hfunc, hrange⟩ := levelToFunc_cases lvl
      · rw [Nested, hrange] at hnested
        let next : Redirected E F :=
          ⟨⟨.blank, .loggerWriter l.skipStdLog logFunc⟩, ⟨s.std.header⟩ :: s.restores⟩
        have hnext : next.Over base := congrArg (StdHeader.blank :: ·) hover
        obtain ⟨std, hrun, hheader, houtput⟩ := ih (s := next) hnested hnext
        refine ⟨std, ?_, ?_, ?_⟩
        · rw [run, run_redirect_ok hfunc]
          exact hrun
        · rw [exposed, hrange]
          exact hheader
        · rw [List.any_cons, RedirectCall.redirected, hrange, Bool.true_or, Bool.not_true, Bool.and_false]
          exact houtput
      · rw [Nested, hrange] at hnested
        obtain ⟨⟨header, output⟩, restores⟩ := s
        cases restores with
        | nil =>
          -- Nobody remembers the header.
          let next : Redirected E F := ⟨⟨.blank, output⟩, []⟩
          have hnext : next.Over .blank := rfl
          obtain ⟨std, hrun, hheader, houtput⟩ := ih (s := next) hnested hnext
          refine ⟨std, ?_, ?_, ?_⟩
          · rw [run, run_redirect_error hfunc]
            exact hrun
          · rw [hheader, exposed, hrange]
            exact ite_self _
          · rw [houtput, List.any_cons, RedirectCall.redirected, hrange, Bool.false_or]
        | cons f restores =>
          obtain rfl : header = .blank := (List.cons.inj hover).1
          obtain ⟨std, hrun, hheader, houtput⟩ := ih hnested hover
          refine ⟨std, ?_, ?_, ?_⟩
          · rw [run, run_redirect_error hfunc]
            exact hrun
          · rw [hheader, exposed, hrange]
            rfl
          · rw [houtput, List.any_cons, RedirectCall.redirected, hrange, Bool.false_or]
    | restore =>
      obtain ⟨std, restores⟩ := s
      cases restores with
      | nil => exact hnested.elim
      | cons f restores =>
        let next : Redirected E F := ⟨f.call std, restores⟩
        have hnext : next.Over base := (List.cons.inj hover).2
        obtain ⟨std', hrun, hheader, houtput⟩ := ih (s := next) hnested hnext
        refine ⟨std', hrun, hheader, ?_⟩
        rw [houtput]
        exact ite_self _

end Redirected

namespace RedirectSession

/-- After a session the flags and the prefix are as before, and the output is `os.Stderr` if there was
a redirect. -/
def Reverses [Process E F] (session : RedirectSession E F) (std : StdLog E F) : Prop :=
  ∃ std', Redirected.run ⟨std, []⟩ session.calls = some ⟨std', []⟩ ∧
    std'.header.flags = std.header.flags ∧ std'.header.text = std.header.text ∧
    std'.output = if session.calls.any redirected then .stderr else std.output

theorem reverses_iff [Process E F] (session : RedirectSession E F) (std : StdLog E F) :
    session.Reverses std ↔ exposed 0 session.calls = false ∨ std.header = .blank := by
  have hover : Redirected.Over std.header (⟨std, []⟩ : Redirected E F) := rfl
  obtain ⟨std', hrun, hheader, houtput⟩ := Redirected.run_nested session.calls
    (s := ⟨std, []⟩) session.nested hover
  have houtput' : std'.output = if session.calls.any redirected then .stderr else std.output := by
    rw [houtput]
    cases session.calls.any redirected <;> rfl
  constructor
  · rintro ⟨std'', hrun', hflags, htext, _⟩
    rw [hrun] at hrun'
    cases hrun'
    cases hexposed : exposed 0 session.calls with
    | false => exact .inl rfl
    | true =>
      rw [List.length_nil, hexposed] at hheader
      rw [hheader] at hflags htext
      exact .inr (congrArg₂ StdHeader.mk hflags.symm htext.symm)
  · intro h
    have hsame : std'.header = std.header := by
      rw [hheader]
      cases h with
      | inl hexposed => rw [List.length_nil, hexposed]; rfl
      | inr hblank => rw [hblank]; exact ite_self _
    exact ⟨std', hrun, congrArg StdHeader.flags hsame, congrArg StdHeader.text hsame, houtput'⟩

end RedirectSession

/-- A redirect is atomic if its level is one that has a name, or there is no header to lose. Redirects
are undone if each one that fails has one around it that succeeds, or there is no header to lose. -/
theorem redirects_iff [Encoder E F] [Environment E F] [Process E F] (std : StdLog E F) :
    (∀ (l : Logger E F) (lvl : Level),
      Atomic l lvl std ↔ lvl.inRange = true ∨ std.header = .blank) ∧
    ∀ session : RedirectSession E F,
      session.Reverses std ↔ exposed 0 session.calls = false ∨ std.header = .blank :=
  ⟨fun l lvl => atomic_iff l lvl std, fun session => session.reverses_iff std⟩

/-- The standard logger as a program may have set it up, with `log.LstdFlags`. -/
def stdLogWithPrefix : StdLog Unit Unit := ⟨⟨3, utf8 "app: "⟩, .destination 2⟩

/-- A redirect to a level that does not exist, and no other call. -/
def failedRedirect : RedirectSession Unit Unit where
  calls := [.redirect (Zapio.sampleWriter Level.info).logger 99]
  nested := rfl

/-- The flags and the prefix are lost, though there was an error. -/
theorem failedRedirect_loses_header :
    let _ := Zapio.frozenProcess
    redirectStdLogAt (Zapio.sampleWriter Level.info).logger 99 stdLogWithPrefix =
        (.error (utf8 "unrecognized level: \"Level(99)\""), ⟨.blank, .destination 2⟩) ∧
      stdLogWithPrefix.header ≠ .blank ∧ ¬ failedRedirect.Reverses stdLogWithPrefix := by
  intro _
  refine ⟨?_, by decide, ?_⟩
  · rfl
  · rw [RedirectSession.reverses_iff]
    decide

end Zap
