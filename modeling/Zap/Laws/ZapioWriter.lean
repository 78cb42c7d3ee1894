import Zap.Laws.Terminal
import Zap.Zapio.Writer

/-!
# Lines and chunks

What a `Writer` logs does not depend on how its input is cut into calls of `Write`. A `Splitter` is
the machine that reads one byte after the other, keeps the current line and lists the lines that
have ended. The writer follows it: its buffer is the current line, and what it has logged are the
lines (`writeLines_spec` for the loop of `Write`, `calls_spec` for a sequence of calls). Chunks play
no part in what the machine does.

All this is so where a message that is logged comes back (`Logger.Returns`).
-/

set_option autoImplicit false

namespace Zap

open Data Zapcore

variable {E F : Type}

/-! ## The machine -/

namespace Zapio

/-- The current line, and the lines before it. -/
structure Splitter where
  current : Bytes
  lines : List Bytes

namespace Splitter

/-- Read a byte. -/
def byte (s : Splitter) (b : UInt8) : Splitter :=
  if b = 0x0A then ⟨[], s.lines ++ [s.current]⟩ else ⟨s.current ++ [b], s.lines⟩

/-- Read bytes. -/
def feed (s : Splitter) (bs : Bytes) : Splitter := bs.foldl byte s

/-- End the current line, unless it is empty. -/
def finish (s : Splitter) : Splitter :=
  ⟨[], if s.current = [] then s.lines else s.lines ++ [s.current]⟩

/-- What the machine does for a call. -/
def call (s : Splitter) : Call → Splitter
  | .write bs => s.feed bs
  | .sync => s.finish
  | .close => s.finish

theorem feed_append (s : Splitter) (bs bs' : Bytes) : s.feed (bs ++ bs') = (s.feed bs).feed bs' :=
  List.foldl_append

/-- Bytes without a newline among them. -/
theorem feed_open {bs : Bytes} (h : 0x0A ∉ bs) (s : Splitter) :
    s.feed bs = ⟨s.current ++ bs, s.lines⟩ := by
  induction bs generalizing s with
  | nil => rw [List.append_nil]; rfl
  | cons b bs ih =>
    rw [List.mem_cons, not_or] at h
    show (s.byte b).feed bs = _
    rw [ih h.2, byte, if_neg (Ne.symm h.1), List.append_assoc, List.singleton_append]

/-- The rest of a line, a newline, and more. -/
theorem feed_line {line : Bytes} (h : 0x0A ∉ line) (s : Splitter) (rest : Bytes) :
    s.feed (line ++ 0x0A :: rest) = feed ⟨[], s.lines ++ [s.current ++ line]⟩ rest := by
  rw [feed_append, feed_open h]
  rfl

/-- The lines that are there already stay in front. -/
theorem feed_lines (s : Splitter) (before : List Bytes) (bs : Bytes) :
    feed ⟨s.current, before ++ s.lines⟩ bs = ⟨(s.feed bs).current, before ++ (s.feed bs).lines⟩ := by
  induction bs generalizing s with
  | nil => rfl
  | cons b bs ih =>
    show feed (byte _ b) bs = ⟨((s.byte b).feed bs).current, before ++ ((s.byte b).feed bs).lines⟩
    rw [← ih (s.byte b)]
    unfold byte
    split
    · rw [List.append_assoc]
    · rfl

/-- However bytes are cut into calls of `Write`, the machine reads the same. -/
theorem foldl_write (s : Splitter) (chunks : List Bytes) :
    (chunks.map Call.write).foldl call s = s.feed chunks.flatten := by
  induction chunks generalizing s with
  | nil => rfl
  | cons c cs ih =>
    rw [List.map_cons, List.foldl_cons, ih, List.flatten_cons, feed_append]
    rfl

/-- All that the machine has read, but for newlines, is in the lines. -/
theorem feed_flatten (s : Splitter) (bs : Bytes) :
    (s.feed bs).lines.flatten ++ (s.feed bs).current =
      s.lines.flatten ++ s.current ++ bs.filter (· ≠ 0x0A) := by
  induction bs generalizing s with
  | nil => simp [feed]
  | cons b bs ih =>
    show ((s.byte b).feed bs).lines.flatten ++ ((s.byte b).feed bs).current = _
    rw [ih (s.byte b)]
    unfold byte
    split
    · next hb => simp [hb]
    · next hb => simp [hb]

theorem finish_flatten (s : Splitter) :
    s.finish.lines.flatten = s.lines.flatten ++ s.current := by
  unfold finish
  split
  · next h => rw [h, List.append_nil]
  · next h => simp

end Splitter

end Zapio

/-! ## The writer -/

/-- Where the first newline is. -/
theorem idxOf_newline {line : Bytes} (hline : 0x0A ∉ line) (rest : Bytes) :
    (line ++ 0x0A :: rest).idxOf? 0x0A = some line.length := by
  refine List.idxOf?_eq_some_iff.mpr ⟨by simp, by simp, fun j hj heq => hline ?_⟩
  rw [List.getElem_append_left hj] at heq
  exact heq ▸ List.getElem_mem hj

/-- A message at the level comes back: no hook ends it, or one that returns. -/
def Logger.Returns [UserHooks] (log : Logger E F) (lvl : Level) : Prop :=
  ∀ hook, log.terminal lvl = some hook → hook.returns = true

namespace Zapio.Writer

variable [Encoder E F] [Environment E F] [Process E F]

/-- Log messages, one after the other. -/
def logAll (w : Writer E F) (messages : List Bytes) (world : World E F) : World E F :=
  messages.foldl (fun world msg => w.logger.log (.log w.level) msg [] world) world

theorem logAll_cons (w : Writer E F) (msg : Bytes) (messages : List Bytes) (world : World E F) :
    w.logAll (msg :: messages) world =
      w.logAll messages (w.logger.log (.log w.level) msg [] world) := rfl

theorem logAll_append (w : Writer E F) (messages messages' : List Bytes) (world : World E F) :
    w.logAll (messages ++ messages') world = w.logAll messages' (w.logAll messages world) :=
  List.foldl_append

variable [UserHooks] {w : Writer E F}

theorem log_eq (hret : w.logger.Returns w.level) (b : Bytes) (world : World E F) :
    w.log b world = .ok (w.logAll [b] world) := by
  have hready := (w.logger.check_checks w.level b world).ready
  show w.log b world = .ok (CheckedEntry.write (w.logger.check w.level b world).1 []
    (w.logger.check w.level b world).2)
  unfold log
  generalize w.logger.check w.level b world = r at hready
  obtain ⟨ce, world'⟩ := r
  rcases hready with ⟨rfl, -⟩ | ⟨ce, rfl, hce⟩
  · rfl
  · have hback : (ce.after.map CheckWriteHook.returns).getD true = true := by
      rw [hce.after]
      cases hhook : w.logger.terminal w.level with
      | none => rfl
      | some hook => exact hret hook hhook
    simp only [hback, ↓reduceIte]

theorem flush_eq (hret : w.logger.Returns w.level) (allowEmpty : Bool) (world : World E F) :
    w.flush allowEmpty world = .ok ({ w with buff := [] },
      w.logAll (if allowEmpty ∨ 0 < w.buff.length then [w.buff] else []) world) := by
  unfold flush
  split
  · rw [log_eq hret]
    rfl
  · rfl

/-- A line that ends goes out with what is buffered, on the fast path too. -/
theorem writeLine_line (hret : w.logger.Returns w.level) {line : Bytes} (hline : 0x0A ∉ line)
    (rest : Bytes) (world : World E F) :
    w.writeLine (line ++ 0x0A :: rest) world =
      .ok (rest, { w with buff := [] }, w.logAll [w.buff ++ line] world) := by
  have hdrop : (line ++ 0x0A :: rest).drop (line.length + 1) = rest := by simp
  unfold writeLine
  rw [idxOf_newline hline]
  simp only [List.take_left, hdrop]
  split
  · next hempty =>
    obtain ⟨logger, level, buff⟩ := w
    cases List.length_eq_zero_iff.mp hempty
    rw [log_eq hret]
    rfl
  · rw [flush_eq (w := { w with buff := w.buff ++ line }) hret]
    rfl

/-- The loop of `Write` follows the machine, if it is allowed a turn for each byte. -/
theorem writeLines_spec (hret : w.logger.Returns w.level) {fuel : Nat} {bs : Bytes}
    (hfuel : bs.length ≤ fuel) (world : World E F) :
    writeLines fuel w bs world =
      .ok ({ w with buff := (Splitter.feed ⟨w.buff, []⟩ bs).current },
        w.logAll (Splitter.feed ⟨w.buff, []⟩ bs).lines world) := by
  induction fuel generalizing w bs world with
  | zero =>
    cases List.length_eq_zero_iff.mp (Nat.le_zero.mp hfuel)
    rfl
  | succ fuel ih =>
    rw [writeLines]
    split
    · next hnil =>
      subst hnil
      rfl
    · next hne =>
      by_cases hmem : 0x0A ∈ bs
      · obtain ⟨line, rest, rfl, hline⟩ := List.eq_append_cons_of_mem hmem
        have hrest : rest.length ≤ fuel := by
          rw [List.length_append, List.length_cons] at hfuel
          omega
        have hlines := Splitter.feed_lines ⟨[], []⟩ [w.buff ++ line] rest
        rw [List.append_nil] at hlines
        rw [writeLine_line hret hline, Splitter.feed_line hline, List.nil_append, hlines,
          List.singleton_append, logAll_cons]
        exact ih (w := { w with buff := [] }) hret hrest _
      · have hopen : w.writeLine bs world = .ok ([], { w with buff := w.buff ++ bs }, world) := by
          rw [writeLine, List.idxOf?_eq_none_iff.mpr hmem]
        rw [hopen, Splitter.feed_open hmem]
        exact ih (w := { w with buff := w.buff ++ bs }) hret (Nat.zero_le _) world

theorem write_spec (henabled : w.logger.core.enabled w.level = true)
    (hret : w.logger.Returns w.level) (bs : Bytes) (world : World E F) :
    w.write bs world = .ok ((bs.length, none),
      { w with buff := (Splitter.feed ⟨w.buff, []⟩ bs).current },
      w.logAll (Splitter.feed ⟨w.buff, []⟩ bs).lines world) := by
  rw [write, henabled, writeLines_spec hret (Nat.le_refl _)]
  rfl

theorem sync_spec (hret : w.logger.Returns w.level) (world : World E F) :
    w.sync world = .ok (none, { w with buff := [] },
      w.logAll (Splitter.finish ⟨w.buff, []⟩).lines world) := by
  rw [sync, flush_eq hret]
  unfold Splitter.finish
  cases hbuff : w.buff with
  | nil => rfl
  | cons b bs => rfl

end Zapio.Writer

/-! ## Calls -/

namespace Zapio

/-- What a call returns if the writer is in order: the length of what is written, and no error. -/
def Call.answer : Call → Answer
  | .write bs => (some bs.length, none)
  | .sync => (none, none)
  | .close => (none, none)

/-- The lines that are there already stay in front. -/
theorem Splitter.call_lines (s : Splitter) (before : List Bytes) (c : Call) :
    call ⟨s.current, before ++ s.lines⟩ c = ⟨(s.call c).current, before ++ (s.call c).lines⟩ := by
  have hfinish : finish ⟨s.current, before ++ s.lines⟩ = ⟨s.finish.current, before ++ s.finish.lines⟩ := by
    unfold finish
    split
    · rfl
    · rw [List.append_assoc]
  cases c with
  | write bs => exact s.feed_lines before bs
  | sync => exact hfinish
  | close => exact hfinish

theorem Splitter.calls_lines (cs : List Call) (s : Splitter) (before : List Bytes) :
    cs.foldl call ⟨s.current, before ++ s.lines⟩ =
      ⟨(cs.foldl call s).current, before ++ (cs.foldl call s).lines⟩ := by
  induction cs generalizing s with
  | nil => rfl
  | cons c cs ih => rw [List.foldl_cons, List.foldl_cons, call_lines, ih]

namespace Writer

variable [Encoder E F] [Environment E F] [Process E F] [UserHooks] {w : Writer E F}

theorem call_spec (henabled : w.logger.core.enabled w.level = true)
    (hret : w.logger.Returns w.level) (c : Call) (world : World E F) :
    w.call world c = .ok (c.answer, { w with buff := (Splitter.call ⟨w.buff, []⟩ c).current },
      w.logAll (Splitter.call ⟨w.buff, []⟩ c).lines world) := by
  cases c with
  | write bs =>
    rw [call, write_spec henabled hret]
    rfl
  | sync =>
    rw [call, sync_spec hret]
    rfl
  | close =>
    rw [call, close, sync_spec hret]
    rfl

/-- A sequence of calls follows the machine. -/
theorem calls_spec (cs : List Call) (henabled : w.logger.core.enabled w.level = true)
    (hret : w.logger.Returns w.level) (world : World E F) :
    w.calls world cs = .ok (cs.map Call.answer,
      { w with buff := (cs.foldl Splitter.call ⟨w.buff, []⟩).current },
      w.logAll (cs.foldl Splitter.call ⟨w.buff, []⟩).lines world) := by
  induction cs generalizing w world with
  | nil => rfl
  | cons c cs ih =>
    have hlines := Splitter.calls_lines cs ⟨(Splitter.call ⟨w.buff, []⟩ c).current, []⟩
      (Splitter.call ⟨w.buff, []⟩ c).lines
    rw [List.append_nil] at hlines
    have hrest := ih (w := { w with buff := (Splitter.call ⟨w.buff, []⟩ c).current }) henabled hret
      (w.logAll (Splitter.call ⟨w.buff, []⟩ c).lines world)
    rw [calls, call_spec henabled hret, List.foldl_cons, hlines, logAll_append]
    show (calls _ _ cs).bind _ = _
    rw [hrest]
    rfl

/-- What a writer logs, at a level that is enabled and at which messages come back, are the lines
of the machine that reads byte by byte. Every call returns what it should. However bytes are cut
into calls of `Write` before `Close`, the lines are the same, and all bytes but newlines are in
them. -/
theorem logs_lines (w : Writer E F) (henabled : w.logger.core.enabled w.level = true)
    (hret : w.logger.Returns w.level) (world : World E F) :
    (∀ cs : List Call, w.calls world cs = .ok (cs.map Call.answer,
      { w with buff := (cs.foldl Splitter.call ⟨w.buff, []⟩).current },
      w.logAll (cs.foldl Splitter.call ⟨w.buff, []⟩).lines world)) ∧
    (∀ chunks chunks' : List Bytes, chunks.flatten = chunks'.flatten →
      ((chunks.map Call.write ++ [Call.close]).foldl Splitter.call ⟨w.buff, []⟩).lines =
        ((chunks'.map Call.write ++ [Call.close]).foldl Splitter.call ⟨w.buff, []⟩).lines) ∧
    ∀ chunks : List Bytes,
      ((chunks.map Call.write ++ [Call.close]).foldl Splitter.call ⟨w.buff, []⟩).lines.flatten =
        w.buff ++ chunks.flatten.filter (· ≠ 0x0A) := by
  refine ⟨fun cs => calls_spec cs henabled hret world, fun chunks chunks' hsame => ?_,
    fun chunks => ?_⟩
  · rw [List.foldl_append, List.foldl_append, Splitter.foldl_write, Splitter.foldl_write, hsame]
  · rw [List.foldl_append, Splitter.foldl_write]
    show (Splitter.feed ⟨w.buff, []⟩ chunks.flatten).finish.lines.flatten = _
    rw [Splitter.finish_flatten, Splitter.feed_flatten]
    rfl

end Writer

/-- A writer to a logger that takes every level. -/
def sampleWriter (level : Level) : Writer Unit Unit where
  logger :=
    { core := newCore () 0 (.level Level.debug), development := false, addCaller := false,
      onPanic := none, onFatal := none, name := [], errorOutput := 0,
      addStack := .level (Level.fatal + 1), callerSkip := 0, clock := 0 }
  level := level
  buff := []

/-- An encoder that writes nothing. -/
abbrev silentEncoder : Encoder Unit Unit := ⟨fun enc _ => enc, fun _ _ _ => .ok []⟩

/-- Destinations and hooks that never fail. -/
abbrev calmEnvironment : Environment Unit Unit :=
  ⟨fun _ _ _ => none, fun _ _ => none, fun _ _ _ => none⟩

/-- A process in which it is always 1970. -/
abbrev frozenProcess : Process Unit Unit :=
  ⟨fun _ _ => .ofUnixNano 0 Location.utc, fun _ _ _ => [], 0, 0, 0⟩

/-- Before anything has been logged. -/
def emptyWorld : World Unit Unit := ⟨0, fun _ => newCounters, ⟨fun _ => none, []⟩, [], []⟩

theorem logs_lines_info :
    let _ := silentEncoder
    let _ := calmEnvironment
    let _ := frozenProcess
    let _ : UserHooks := ⟨fun _ => true⟩
    let w := sampleWriter Level.info
    w.logger.core.enabled w.level = true ∧ w.logger.Returns w.level ∧
      w.calls emptyWorld [.write (utf8 "a\n\nb"), .write (utf8 "c"), .close] =
        .ok ([(some 4, none), (some 1, none), (none, none)], w,
          w.logAll [utf8 "a", [], utf8 "bc"] emptyWorld) := by
  intro _ _ _ _ w
  have hreturns : w.logger.Returns w.level := fun hook hhook => by cases hhook
  exact ⟨rfl, hreturns, (w.logs_lines rfl hreturns emptyWorld).1 _⟩

/-- At the panic level the first line ends the call. -/
theorem panic_ends_write :
    let _ := silentEncoder
    let _ := calmEnvironment
    let _ := frozenProcess
    let _ : UserHooks := ⟨fun _ => true⟩
    let w := sampleWriter Level.panic
    w.logger.core.enabled w.level = true ∧
      w.calls emptyWorld [.write (utf8 "a\nb\n")] =
        .error (w, w.logAll [utf8 "a"] emptyWorld) := by
  intro _ _ _ _ w
  exact ⟨rfl, rfl⟩

end Zapio

end Zap
