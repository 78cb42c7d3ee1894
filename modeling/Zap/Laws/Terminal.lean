import Zap.Laws.Disabled
import Zap.Zapcore.CheckedEntry

/-!
# Terminal hooks

A message at `PanicLevel` or `FatalLevel`, or at `DPanicLevel` in development, ends with a call of
the logger's hook, whether or not any core takes the message. `Logger.terminal` is that hook.

Nothing else calls `OnWrite`. `Check` and `Write` of cores do not (`Core.check_registers`,
`writeCores_onWrites`), and so neither do the errors that `sweetenFields` logs while a sugared
message waits to be written.

Encoders return here. What becomes of the hook where one panics, and the law with both cases, is in
`Zap.Laws.UnwindingLoggers`.
-/

set_option autoImplicit false

namespace Zap.Zapcore

open Data

variable {E F : Type} {b : Bool}

/-- The calls of `OnWrite`. -/
def onWritesOf (trace : List (Event E F)) : List (CheckWriteHook × Entry × List F) :=
  trace.filterMap fun
    | .onWrite hook ent fields => some (hook, ent, fields)
    | _ => none

theorem onWritesOf_append (trace trace' : List (Event E F)) :
    onWritesOf (trace ++ trace') = onWritesOf trace ++ onWritesOf trace' :=
  List.filterMap_append

/-- A call of something else. -/
theorem onWritesOf_emit (w : World E F) {e : Event E F} (h : onWritesOf [e] = []) :
    onWritesOf (w.emit e).trace = onWritesOf w.trace := by
  rw [World.emit, onWritesOf_append, h, List.append_nil]

/-! ## Cores -/

namespace Core

variable [Encoder E F]

/-- `With` makes no call. -/
theorem withFields_trace (core : Core E F b) (fields : List F) (w : World E F) :
    (core.withFields fields w).2.trace = w.trace := by
  induction core generalizing fields w with
  | nop => rw [withFields_nop]
  | io core => rw [withFields_io]
  | nil => rw [withFields_nil]
  | cons core cores ih ihs =>
    have hsnd : ((multi (core :: cores)).withFields fields w).2 =
        ((multi cores).withFields fields (core.withFields fields w).2).2 := by
      cases b <;> rfl
    rw [hsnd, ihs, ih]
  | hooked core funcs ih => rw [withFields_hooked]; exact ih fields w
  | levelFilter core level ih => rw [withFields_levelFilter]; exact ih fields w
  | sampler core s ih => rw [withFields_sampler]; exact ih fields w
  | lazyWith h ref original own ih =>
    rw [withFields_lazyWith, withFields_eager]
    unfold initOnce
    cases w.cells.made ref with
    | some core => rfl
    | none => exact ih own w

theorem initOnce_trace (ref : Nat) (original : Core E F b) (own : List F) (w : World E F) :
    (initOnce ref original own w).2.trace = w.trace := by
  unfold initOnce
  cases w.cells.made ref with
  | some core => rfl
  | none => exact withFields_trace original own w

/-- What can be said of `Check` for any core: a relation `Q` between what has registered before and
after, and a part of the trace, `view`, that sampling decisions are not in. -/
structure CheckRule {α : Type} (ent : Entry)
    (Q : Option (CheckedEntry E F) → Option (CheckedEntry E F) → Prop)
    (view : List (Event E F) → α) : Prop where
  refl (ce : Option (CheckedEntry E F)) : Q ce ce
  trans {ce ce' ce'' : Option (CheckedEntry E F)} (h : Q ce ce') (h' : Q ce' ce'') : Q ce ce''
  leaf (b : Bool) (ce : Option (CheckedEntry E F)) (core : IoCore E) :
    Q ce (some (CheckedEntry.addCore ce ent (.io core : Core E F b)))
  hooks {b : Bool} {ce : Option (CheckedEntry E F)} {downstream : CheckedEntry E F}
    (h : Q ce (some downstream)) (core : Core E F b) (funcs : List Nat) :
    Q ce (some (CheckedEntry.addCore (some downstream) ent (.hooked core funcs)))
  decision (w : World E F) (hook : Nat) (d : SamplingDecision) :
    view (w.emit (.decision hook ent d)).trace = view w.trace

namespace CheckRule

variable {α : Type} {ent : Entry} {Q : Option (CheckedEntry E F) → Option (CheckedEntry E F) → Prop}
  {view : List (Event E F) → α}

omit [Encoder E F] in
theorem decided (rule : CheckRule ent Q view) (w : World E F) (s : Sampler) (d : SamplingDecision) :
    view (w.decided s ent d).trace = view w.trace := by
  unfold World.decided
  cases s.hook with
  | none => rfl
  | some hook => exact rule.decision w hook d

omit [Encoder E F] in
/-- A sampler's decision, around a `Check` that keeps to the rule. -/
theorem checkSampled (rule : CheckRule ent Q view) {s : Sampler} {enabled : Bool}
    {inner : World E F → Option (CheckedEntry E F) × World E F} {ce : Option (CheckedEntry E F)}
    (h : ∀ w, Q ce (inner w).1 ∧ view (inner w).2.trace = view w.trace) (w : World E F) :
    Q ce (Core.checkSampled s enabled ent inner ce w).1 ∧
      view (Core.checkSampled s enabled ent inner ce w).2.trace = view w.trace := by
  unfold Core.checkSampled
  split
  next => exact ⟨rule.refl ce, rfl⟩
  next =>
    split
    next =>
      simp only
      split
      next => exact ⟨rule.refl ce, rule.decided _ _ _⟩
      next => exact ⟨(h _).1, (h _).2.trans (rule.decided _ _ _)⟩
    next => exact h w

theorem check_of (rule : CheckRule ent Q view)
    (down : b = true → ∀ (core : Core E F false) ce w,
      Q ce (core.check ent ce w).1 ∧ view (core.check ent ce w).2.trace = view w.trace)
    (core : Core E F b) (ce : Option (CheckedEntry E F)) (w : World E F) :
    Q ce (core.check ent ce w).1 ∧ view (core.check ent ce w).2.trace = view w.trace := by
  induction core generalizing ce w with
  | nop => rw [check_nop]; exact ⟨rule.refl ce, rfl⟩
  | io core =>
    rw [check_io]
    split
    next => exact ⟨rule.leaf b ce core, rfl⟩
    next => exact ⟨rule.refl ce, rfl⟩
  | nil => rw [check_nil]; exact ⟨rule.refl ce, rfl⟩
  | cons core cores ih ihs =>
    rw [check_cons]
    obtain ⟨hfirst, htrace⟩ := ih ce w
    obtain ⟨hrest, htrace'⟩ := ihs (core.check ent ce w).1 (core.check ent ce w).2
    exact ⟨rule.trans hfirst hrest, htrace'.trans htrace⟩
  | hooked core funcs ih =>
    rw [check_hooked]
    obtain ⟨hinner, htrace⟩ := ih ce w
    refine ⟨?_, htrace⟩
    cases hdown : (core.check ent ce w).1 with
    | none => exact rule.refl ce
    | some downstream =>
      rw [hdown] at hinner
      exact rule.hooks hinner core funcs
  | levelFilter core level ih =>
    rw [check_levelFilter]
    split
    next => exact ⟨rule.refl ce, rfl⟩
    next => exact ih ce w
  | sampler core s ih =>
    rw [check_sampler]
    exact rule.checkSampled (ih ce) w
  | lazyWith h ref original own _ =>
    rw [check_lazyWith]
    split
    next => exact ⟨rule.refl ce, rfl⟩
    next =>
      obtain ⟨hinner, htrace⟩ := down h (initOnce ref original own w).1 ce
        (initOnce ref original own w).2
      exact ⟨hinner, by rw [htrace, initOnce_trace]⟩

theorem check (rule : CheckRule ent Q view) (core : Core E F b) (ce : Option (CheckedEntry E F))
    (w : World E F) :
    Q ce (core.check ent ce w).1 ∧ view (core.check ent ce w).2.trace = view w.trace :=
  rule.check_of (fun _ => rule.check_of fun h => by cases h) core ce w

end CheckRule

/-- `Check` registers what can be registered, and calls no `OnWrite`. -/
def ChecksQuietly (core : Core E F b) : Prop :=
  ∀ ent ce w, (∃ regs, Registers ent ce regs (core.check ent ce w).1) ∧
    onWritesOf (core.check ent ce w).2.trace = onWritesOf w.trace

theorem check_quietly (core : Core E F b) : core.ChecksQuietly := by
  intro ent ce w
  have rule : CheckRule (E := E) (F := F) ent (fun ce ce' => ∃ regs, Registers ent ce regs ce')
      onWritesOf := {
    refl := fun ce => ⟨[], .refl⟩
    trans := by
      rintro ce ce' ce'' ⟨regs, h⟩ ⟨regs', h'⟩
      exact ⟨regs ++ regs', h.trans h'⟩
    leaf := fun b ce core => ⟨_, .add .refl rfl⟩
    hooks := by
      rintro b ce downstream ⟨regs, h⟩ core funcs
      exact ⟨_, .add h rfl⟩
    decision := fun w hook d => onWritesOf_emit w rfl }
  exact rule.check core ce w

end Core

/-! ## Leaves -/

/-- There is a leaf among those that have registered. -/
def HasLeaf (cores : List ((b : Bool) × Core E F b)) : Prop :=
  ∃ core ∈ cores, ∃ leaf, Kind.of core = some (.leaf leaf)

/-- If there is an entry, a leaf has registered. -/
def Leafy (ce : Option (CheckedEntry E F)) : Prop := ∀ ce', ce = some ce' → HasLeaf ce'.cores

theorem leafy_none : Leafy (none : Option (CheckedEntry E F)) := by
  intro ce h
  cases h

theorem writesOf_emit (w : World E F) {e : Event E F} (h : writesOf [e] = []) :
    writesOf (w.emit e).trace = writesOf w.trace := by
  rw [World.emit, writesOf, List.filterMap_append]
  exact (congrArg (writesOf w.trace ++ ·) h).trans (List.append_nil _)

/-- A core registers after others. -/
theorem HasLeaf.addCore {ce : CheckedEntry E F} (h : HasLeaf ce.cores) (ent : Entry)
    (core : Core E F b) : HasLeaf (CheckedEntry.addCore (some ce) ent core).cores := by
  obtain ⟨core', hmem, hleaf⟩ := h
  exact ⟨core', List.mem_append_left _ hmem, hleaf⟩

/-- A leaf registers. -/
theorem leafy_addLeaf (ce : Option (CheckedEntry E F)) (ent : Entry) (leaf : IoCore E) :
    Leafy (some (CheckedEntry.addCore (b := b) ce ent (.io leaf))) := by
  intro ce' h
  cases h
  exact ⟨⟨b, .io leaf⟩, List.mem_append_right _ List.mem_cons_self, leaf, rfl⟩

/-- There is a leaf among what has registered. -/
theorem hasLeaf_iff {cores : List ((b : Bool) × Core E F b)} {regs : List (Kind E)}
    (h : cores.map Kind.of = regs.map some) :
    HasLeaf cores ↔ regs.filterMap Kind.toLeaf ≠ [] := by
  have hmem : ∀ k, (∃ core ∈ cores, Kind.of core = some k) ↔ k ∈ regs := by
    intro k
    rw [← List.mem_map, h, List.mem_map_of_injective (Option.some_injective _)]
  constructor
  · rintro ⟨core, hcore, leaf, hleaf⟩
    have hreg : Kind.leaf leaf ∈ regs := (hmem _).mp ⟨core, hcore, hleaf⟩
    exact List.ne_nil_of_mem (List.mem_filterMap.mpr ⟨_, hreg, rfl⟩)
  · intro hne
    obtain ⟨leaf, hleaf⟩ := List.exists_mem_of_ne_nil _ hne
    obtain ⟨k, hk, hto⟩ := List.mem_filterMap.mp hleaf
    obtain ⟨core, hcore, hof⟩ := (hmem k).mpr hk
    cases k with
    | leaf leaf' => exact ⟨core, hcore, leaf', hof⟩
    | hooks funcs => cases hto

namespace Core

variable [Encoder E F]

/-- `Check` writes nothing, and hooks register only behind a leaf. -/
def ChecksLeafy (core : Core E F b) : Prop :=
  ∀ ent ce w, Leafy ce → Leafy (core.check ent ce w).1 ∧
    writesOf (core.check ent ce w).2.trace = writesOf w.trace

theorem check_leafy (core : Core E F b) : core.ChecksLeafy := by
  intro ent ce w hce
  have rule : CheckRule (E := E) (F := F) ent (fun ce ce' => Leafy ce → Leafy ce') writesOf := {
    refl := fun ce h => h
    trans := fun h h' hce => h' (h hce)
    leaf := fun b ce core _ => leafy_addLeaf ce ent core
    hooks := by
      intro b ce downstream h core funcs hce ce' heq
      cases heq
      exact (h hce downstream rfl).addCore ent _
    decision := fun w hook d => writesOf_emit w rfl }
  obtain ⟨hleafy, htrace⟩ := rule.check core ce w
  exact ⟨hleafy hce, htrace⟩

end Core

/-! ## Writing -/

section

variable [Environment E F]

theorem runHooks_onWrites (ent : Entry) (funcs : List Nat) (w : World E F) :
    onWritesOf (w.runHooks ent funcs).2.trace = onWritesOf w.trace := by
  induction funcs generalizing w with
  | nil => rfl
  | cons f funcs ih => exact (ih (w.emit (.hook f ent))).trans (onWritesOf_emit w rfl)

variable [Encoder E F]

theorem IoCore.write_onWrites (core : IoCore E) (ent : Entry) (fields : List F) (w : World E F) :
    onWritesOf (core.write ent fields w).2.trace = onWritesOf w.trace := by
  have hwrite : onWritesOf (w.emit (.write core ent fields)).trace = onWritesOf w.trace :=
    onWritesOf_emit w rfl
  unfold write
  cases Encoder.encodeEntry core.enc ent fields with
  | error err => exact hwrite
  | ok buf =>
    have hout : onWritesOf ((w.emit (.write core ent fields)).output core.out buf).2.trace =
        onWritesOf w.trace := (onWritesOf_emit _ rfl).trans hwrite
    rcases hres : (w.emit (.write core ent fields)).output core.out buf with ⟨errs, w'⟩
    rw [hres] at hout
    cases errs with
    | nil =>
      simp only [hres]
      split
      next => exact (onWritesOf_emit w' rfl).trans hout
      next => exact hout
    | cons err errs =>
      simp only [hres]
      exact hout

/-- `Write` of what has registered calls no `OnWrite`. -/
theorem writeCores_onWrites (ent : Entry) (fields : List F)
    {cores : List ((b : Bool) × Core E F b)} (h : ∀ core ∈ cores, (Kind.of core).isSome)
    (w : World E F) :
    onWritesOf (CheckedEntry.writeCores ent fields cores w).2.trace = onWritesOf w.trace :=
  CheckedEntry.writeCores_keeps (R := fun w _ w' => onWritesOf w'.trace = onWritesOf w.trace)
    (fun _ => rfl) (fun h h' => h'.trans h) (fun core w => core.write_onWrites ent fields w)
    (runHooks_onWrites ent) h w

/-- A checked entry that can be written: only leaves and hooks have registered, and no hook
changes the entry. -/
structure CheckedEntry.Ready (ce : CheckedEntry E F) (after : Option CheckWriteHook) : Prop where
  dirty : ce.dirty = false
  before : ce.before = []
  after : ce.after = after
  cores : ∀ core ∈ ce.cores, (Kind.of core).isSome

/-- How `Write` goes: first the cores, whatever they return; then, if they have returned errors and there
is an error output, a report; and last the hook of `After`, if there is one. -/
theorem CheckedEntry.write_cases {ce : CheckedEntry E F} (hdirty : ce.dirty = false)
    (hbefore : ce.before = []) (fields : List F) (w : World E F) :
    let r := CheckedEntry.writeCores ce.entry fields ce.cores w
    ∃ w', (w' = r.2 ∧ (r.1 = [] ∨ ce.errorOutput = none) ∨
        r.1 ≠ [] ∧ ∃ out, ce.errorOutput = some out ∧
          w' = (r.2.emit (.report out (.writeError ce.entry.time r.1))).emit (.sync out)) ∧
      CheckedEntry.write (some ce) fields w =
        ce.after.elim w' fun hook => w'.emit (.onWrite hook ce.entry fields) := by
  intro r
  refine ⟨if r.1 = [] then r.2 else ce.tell (.writeError ce.entry.time r.1) r.2, ?_, ?_⟩
  · by_cases herrs : r.1 = []
    · exact .inl ⟨if_pos herrs, .inl herrs⟩
    · rw [if_neg herrs, CheckedEntry.tell]
      cases ce.errorOutput with
      | none => exact .inl ⟨rfl, .inr rfl⟩
      | some out => exact .inr ⟨herrs, out, rfl, rfl⟩
  · simp only [CheckedEntry.write, hdirty, hbefore, Bool.false_eq_true, ↓reduceIte, List.foldl_nil]
    cases ce.after <;> rfl

theorem CheckedEntry.Ready.write {ce : CheckedEntry E F} {after : Option CheckWriteHook}
    (h : ce.Ready after) (fields : List F) (w : World E F) :
    ∃ reports, onWritesOf reports = [] ∧
      (CheckedEntry.write (some ce) fields w).trace =
        (CheckedEntry.writeCores ce.entry fields ce.cores w).2.trace ++ reports ++
          after.toList.map fun hook => .onWrite hook ce.entry fields := by
  obtain ⟨w', htold, hlast⟩ := CheckedEntry.write_cases h.dirty h.before fields w
  have hreports : ∃ reports, onWritesOf reports = [] ∧ w'.trace =
      (CheckedEntry.writeCores ce.entry fields ce.cores w).2.trace ++ reports := by
    rcases htold with ⟨rfl, _⟩ | ⟨_, out, _, rfl⟩
    · exact ⟨[], rfl, (List.append_nil _).symm⟩
    · exact ⟨[.report out _, .sync out], rfl, List.append_assoc _ _ _⟩
  obtain ⟨reports, hreports, htrace⟩ := hreports
  refine ⟨reports, hreports, ?_⟩
  rw [hlast, ← htrace, h.after]
  cases after with
  | none => exact (List.append_nil _).symm
  | some hook => rfl

/-- `Write` writes to what has registered. What comes after, a report and the hook of `After`, is no
write. -/
theorem CheckedEntry.writesOf_write {ce : CheckedEntry E F} (hdirty : ce.dirty = false)
    (hbefore : ce.before = []) (fields : List F) (w : World E F) :
    writesOf (CheckedEntry.write (some ce) fields w).trace =
      writesOf (CheckedEntry.writeCores ce.entry fields ce.cores w).2.trace := by
  obtain ⟨w', htold, hlast⟩ := CheckedEntry.write_cases hdirty hbefore fields w
  have hw' : writesOf w'.trace =
      writesOf (CheckedEntry.writeCores ce.entry fields ce.cores w).2.trace := by
    rcases htold with ⟨rfl, _⟩ | ⟨_, out, _, rfl⟩
    · rfl
    · exact (writesOf_emit _ rfl).trans (writesOf_emit _ rfl)
  rw [hlast]
  cases ce.after with
  | none => exact hw'
  | some hook => exact (writesOf_emit w' rfl).trans hw'

end

end Zap.Zapcore

namespace Zap

open Data Zapcore

variable {E F V : Type}

namespace Logger

/-- The hook that a message at a level ends with. -/
def terminal (log : Logger E F) (lvl : Level) : Option CheckWriteHook :=
  if lvl = Level.fatal then some (terminalHookOverride .fatal log.onFatal)
  else if lvl = Level.panic ∨ (lvl = Level.dpanic ∧ log.development = true) then
    some (terminalHookOverride .panic log.onPanic)
  else none

/-- What `terminate` sets up. -/
theorem terminate_eq (log : Logger E F) (ent : Entry) (ce : Option (CheckedEntry E F)) :
    log.terminate ent ce = (log.terminal ent.level).elim ce fun hook =>
      some (CheckedEntry.setAfter ce ent hook) := by
  have hpf : Level.panic ≠ Level.fatal := by decide
  have hdf : Level.dpanic ≠ Level.fatal := by decide
  have hdp : Level.dpanic ≠ Level.panic := by decide
  unfold terminate terminal
  by_cases hpanic : ent.level = Level.panic
  · simp [hpanic, hpf]
  · by_cases hfatal : ent.level = Level.fatal
    · simp [hfatal, hpf.symm]
    · by_cases hdpanic : ent.level = Level.dpanic
      · cases hdev : log.development <;> simp [hdpanic, hdf, hdp]
      · simp [hpanic, hfatal, hdpanic]

/-- A level below `DPanicLevel` has no hook. -/
theorem terminal_of_lt (log : Logger E F) {lvl : Level} (h : lvl < Level.dpanic) :
    log.terminal lvl = none := by
  have hne : ∀ l : Level, Level.dpanic ≤ l → lvl ≠ l := by
    rintro l hl rfl
    exact Int8.not_lt.mpr hl h
  simp only [terminal, hne Level.panic (by decide), hne Level.fatal (by decide),
    hne Level.dpanic (by decide), false_and, or_self, ↓reduceIte]

section

variable [Environment E F] [Process E F]

/-- What the end of `check` does: it sets the error output, and of the entry the caller and the stack;
and it may tell the error output that there is no caller. -/
theorem annotate_cases (log : Logger E F) (ent : Entry) (ce : CheckedEntry E F) (w : World E F) :
    (∃ caller stack, (log.annotate ent ce w).1 =
        { ce with errorOutput := some log.errorOutput, entry := { ce.entry with caller, stack } }) ∧
      ((log.annotate ent ce w).2 = w ∨ ∃ time, (log.annotate ent ce w).2 =
        (w.emit (.report log.errorOutput (.noCaller time))).emit (.sync log.errorOutput)) := by
  unfold annotate
  simp only
  split
  next => exact ⟨⟨_, _, rfl⟩, .inl rfl⟩
  next =>
    split
    next =>
      split
      next => exact ⟨⟨_, _, rfl⟩, .inr ⟨_, rfl⟩⟩
      next => exact ⟨⟨_, _, rfl⟩, .inl rfl⟩
    next => exact ⟨⟨_, _, rfl⟩, .inl rfl⟩

variable [Encoder E F]

/-- What `check` makes: nothing; an entry without cores, for its hook; or an entry on which cores have
registered, with the hook if there is one, to which the end of `check` adds the rest. -/
theorem check_cases (log : Logger E F) (lvl : Level) (msg : Bytes) (w : World E F) :
    let ent := log.entry lvl msg w
    let r := log.core.check ent none w
    (log.check lvl msg w = (none, w) ∧ log.core.enabled lvl = false ∧ log.terminal lvl = none) ∨
      (r.1 = none ∧ log.check lvl msg w =
        ((log.terminal lvl).map fun hook => ⟨ent, none, false, some hook, [], []⟩, r.2)) ∨
      ∃ cores, r.1 = some ⟨ent, none, false, none, cores, []⟩ ∧ log.check lvl msg w =
        (some (log.annotate ent ⟨ent, none, false, log.terminal lvl, cores, []⟩ r.2).1,
          (log.annotate ent ⟨ent, none, false, log.terminal lvl, cores, []⟩ r.2).2) := by
  intro ent r
  obtain ⟨⟨regs, hregs⟩, _⟩ := log.core.check_quietly ent none w
  have hcheck : log.core.check ent none w = (r.1, r.2) := rfl
  have hlevel : (log.entry lvl msg w).level = lvl := rfl
  unfold check
  split
  next hoff =>
    obtain ⟨hlt, hoff⟩ : lvl < Level.dpanic ∧ log.core.enabled lvl = false := by simpa using hoff
    exact .inl ⟨rfl, hoff, log.terminal_of_lt hlt⟩
  next =>
    right
    rw [checkCore, hcheck]
    simp only [terminate_eq, hlevel]
    rcases hregs.of_none with ⟨hnone, _⟩ | ⟨cores, hsome, _⟩
    · rw [show r.1 = none from hnone]
      cases log.terminal lvl <;> exact .inl ⟨rfl, rfl⟩
    · rw [show r.1 = some _ from hsome]
      cases log.terminal lvl <;> exact .inr ⟨cores, rfl, rfl⟩

/-- What `check` returns: nothing, or an entry with the hook that the level asks for. -/
structure Checks (log : Logger E F) (lvl : Level) (w : World E F)
    (r : Option (CheckedEntry E F) × World E F) : Prop where
  onWrites : onWritesOf r.2.trace = onWritesOf w.trace
  ready : (r.1 = none ∧ log.terminal lvl = none) ∨
    ∃ ce, r.1 = some ce ∧ ce.Ready (log.terminal lvl)

theorem check_checks (log : Logger E F) (lvl : Level) (msg : Bytes) (w : World E F) :
    log.Checks lvl w (log.check lvl msg w) := by
  obtain ⟨⟨regs, hregs⟩, htrace⟩ := log.core.check_quietly (log.entry lvl msg w) none w
  have hkinds := hregs.kinds fun core hcore => by cases hcore
  rcases log.check_cases lvl msg w with ⟨h, _, hterminal⟩ | ⟨_, h⟩ | ⟨cores, hsome, h⟩
  · rw [h]
    exact ⟨rfl, .inl ⟨rfl, hterminal⟩⟩
  · -- No core takes the message. If there is an entry, it is there for its hook.
    rw [h]
    cases hterminal : log.terminal lvl with
    | none => exact ⟨htrace, .inl ⟨rfl, hterminal⟩⟩
    | some hook =>
      exact ⟨htrace, .inr ⟨_, rfl, rfl, rfl, hterminal.symm, List.forall_mem_nil _⟩⟩
  · rw [hsome] at hkinds
    obtain ⟨⟨caller, stack, hce⟩, hw⟩ := log.annotate_cases (log.entry lvl msg w)
      ⟨log.entry lvl msg w, none, false, log.terminal lvl, cores, []⟩
      (log.core.check (log.entry lvl msg w) none w).2
    rw [h, hce]
    refine ⟨?_, .inr ⟨_, rfl, rfl, rfl, rfl, hkinds⟩⟩
    rcases hw with hw | ⟨time, hw⟩
    · rw [hw]
      exact htrace
    · rw [hw]
      exact (onWritesOf_emit _ rfl).trans ((onWritesOf_emit _ rfl).trans htrace)

/-! ## A message to its end -/

/-- From one world to the other, the cores that have registered are written to, their errors are
reported, and last of all the terminal hook of the level is called, if there is one. No hook but
that is called. -/
def Ends (log : Logger E F) (lvl : Level) (ce : Option (CheckedEntry E F)) (fields : List F)
    (w w' : World E F) : Prop :=
  ∃ ent reports,
    w'.trace =
        (CheckedEntry.writeCores ent fields (CheckedEntry.registered ce) w).2.trace ++ reports ++
          (log.terminal lvl).toList.map (fun hook => .onWrite hook ent fields) ∧
      onWritesOf w'.trace =
        onWritesOf w.trace ++ (log.terminal lvl).toList.map fun hook => (hook, ent, fields)

omit [Process E F] in
/-- An entry from `check` may be written at any time. -/
theorem Checks.write_ends {log : Logger E F} {lvl : Level} {w : World E F}
    {r : Option (CheckedEntry E F) × World E F} (h : log.Checks lvl w r) (fields : List F)
    (w' : World E F) : log.Ends lvl r.1 fields w' (CheckedEntry.write r.1 fields w') := by
  rcases h.ready with ⟨hnone, hterminal⟩ | ⟨ce, hsome, hready⟩
  · rw [hnone]
    refine ⟨Entry.zero, [], ?_, ?_⟩
    · simp [CheckedEntry.write, CheckedEntry.registered, CheckedEntry.writeCores, hterminal]
    · simp [CheckedEntry.write, hterminal]
  · rw [hsome]
    obtain ⟨reports, hreports, htrace⟩ := hready.write fields w'
    refine ⟨ce.entry, reports, htrace, ?_⟩
    rw [htrace, onWritesOf_append, onWritesOf_append, hreports, List.append_nil,
      writeCores_onWrites ce.entry fields hready.cores]
    cases log.terminal lvl <;> rfl

/-- Below `DPanicLevel`, logging calls no hook. -/
theorem log_onWrites (log : Logger E F) {method : Method} (h : method.level < Level.dpanic)
    (msg : Bytes) (fields : List F) (w : World E F) :
    onWritesOf (log.log method msg fields w).trace = onWritesOf w.trace := by
  have hchecks := log.check_checks method.level msg w
  obtain ⟨ent, _, _, honWrites⟩ := hchecks.write_ends fields (log.check method.level msg w).2
  rw [log.terminal_of_lt h, Option.toList_none, List.map_nil, List.append_nil] at honWrites
  exact honWrites.trans hchecks.onWrites

end

end Logger

namespace SugaredLogger

variable [Encoder E F] [Environment E F] [Process E F] [Format F V]

/-- What is wrong with arguments is logged as an error. Nothing else is done while fields are made. -/
theorem sweeten_keeps (s : SugaredLogger E F) {R : World E F → World E F → Prop}
    (hrefl : ∀ w, R w w) (htrans : ∀ {w w' w''}, R w w' → R w' w'' → R w w'')
    (herror : ∀ msg fields w, R w (s.base.log .error msg fields w)) (args : List (Arg F V)) (i : Nat)
    (seenError : Bool) (fields : List F) (invalid : List (Nat × Arg F V × Arg F V))
    (w : World E F) : R w (s.sweeten args i seenError fields invalid w).2.2 := by
  fun_induction s.sweeten args i seenError fields invalid w with
  | case1 => exact hrefl _
  | case2 _ _ _ _ _ _ _ ih => exact ih
  | case3 _ _ _ _ _ _ _ _ ih => exact ih
  | case4 _ _ _ _ _ _ _ _ ih => exact htrans (herror _ _ _) ih
  | case5 => exact herror _ _ _
  | case6 _ _ _ _ _ _ _ _ ih => exact ih
  | case7 => assumption

theorem sweetenFields_keeps (s : SugaredLogger E F) {R : World E F → World E F → Prop}
    (hrefl : ∀ w, R w w) (htrans : ∀ {w w' w''}, R w w' → R w' w'' → R w w'')
    (herror : ∀ msg fields w, R w (s.base.log .error msg fields w)) (args : List (Arg F V))
    (w : World E F) : R w (s.sweetenFields args w).2 := by
  have hloop := s.sweeten_keeps hrefl htrans herror args 0 false [] [] w
  unfold sweetenFields
  generalize s.sweeten args 0 false [] [] w = r at hloop ⊢
  obtain ⟨fields, invalid, w'⟩ := r
  simp only
  split
  next => exact hloop
  next => exact htrans hloop (herror _ _ w')

theorem sweetenFields_onWrites (s : SugaredLogger E F) (args : List (Arg F V)) (w : World E F) :
    onWritesOf (s.sweetenFields args w).2.trace = onWritesOf w.trace :=
  s.sweetenFields_keeps (R := fun w w' => onWritesOf w'.trace = onWritesOf w.trace) (fun _ => rfl)
    (fun h h' => h'.trans h) (fun msg fields w => s.base.log_onWrites (by decide) msg fields w) args w

/-- A sugared message to its end. Fields are made after the check, and only if there is an entry. -/
theorem write_ends (s : SugaredLogger E F) (lvl : Level) (msg : Bytes) (context : List (Arg F V))
    (w : World E F) :
    ∃ fields w', onWritesOf w'.trace = onWritesOf w.trace ∧
      s.base.Ends lvl (s.base.check lvl msg w).1 fields w' (s.write lvl msg context w) := by
  have hchecks := s.base.check_checks lvl msg w
  unfold write
  generalize s.base.check lvl msg w = r at hchecks ⊢
  obtain ⟨_ | ce, w'⟩ := r
  · exact ⟨[], w', hchecks.onWrites, hchecks.write_ends [] w'⟩
  · exact ⟨_, _, (s.sweetenFields_onWrites context w').trans hchecks.onWrites,
      hchecks.write_ends _ _⟩

/-- The same for `log` and `logln`, which may return early. -/
theorem write_ends_early (s : SugaredLogger E F) (lvl : Level) (msg : Bytes)
    (context : List (Arg F V)) (w : World E F) :
    ∃ fields w', onWritesOf w'.trace = onWritesOf w.trace ∧
      s.base.Ends lvl (s.base.check lvl msg w).1 fields w'
        (if lvl < Level.dpanic && !s.base.core.enabled lvl then w
          else s.write lvl msg context w) := by
  split
  next h =>
    have hcheck : s.base.check lvl msg w = (none, w) := by rw [Logger.check, if_pos h]
    have hchecks := s.base.check_checks lvl msg w
    rw [hcheck] at hchecks ⊢
    exact ⟨[], w, rfl, hchecks.write_ends [] w⟩
  next => exact s.write_ends lvl msg context w

end SugaredLogger

/-! ## All ways to log -/

/-- A call that logs a message: a method of a `Logger`, or one of the four kinds of methods of a
`SugaredLogger`. -/
inductive LogCall (F V : Type) where
  | log (method : Method) (msg : Bytes) (fields : List F)
  | print (method : Method) (args : List (Arg F V))
  | printf (method : Method) (template : Bytes) (args : List (Arg F V))
  | printw (method : Method) (msg : Bytes) (keysAndValues : List (Arg F V))
  | println (method : Method) (args : List (Arg F V))

namespace LogCall

def method : LogCall F V → Method
  | .log method _ _ => method
  | .print method _ => method
  | .printf method _ _ => method
  | .printw method _ _ => method
  | .println method _ => method

/-- The message that is logged. -/
def message [Format F V] : LogCall F V → Bytes
  | .log _ msg _ => msg
  | .print _ args => getMessage [] args
  | .printf _ template args => getMessage template args
  | .printw _ msg _ => getMessage msg ([] : List (Arg F V))
  | .println _ args => getMessageln args

/-- Make the call, on a logger or on a sugared logger with that base. -/
def run [Encoder E F] [Environment E F] [Process E F] [Format F V] (call : LogCall F V)
    (log : Logger E F) (w : World E F) : World E F :=
  match call with
  | .log method msg fields => log.log method msg fields w
  | .print method args => SugaredLogger.print ⟨log⟩ method args w
  | .printf method template args => SugaredLogger.printf ⟨log⟩ method template args w
  | .printw method msg keysAndValues => SugaredLogger.printw ⟨log⟩ method msg keysAndValues w
  | .println method args => SugaredLogger.println ⟨log⟩ method args w

end LogCall

end Zap
