import Zap.Laws.Survey

/-!
# What `Check` does

`Checked` says what one `Check` does, in terms of the survey of the core: which leaves and hooks
it registers, and what it leaves in the world. `surveyed` proves it for every core, by induction
over the core; a lazy core comes down to the core it made, which has no lazy core in it.
-/

set_option autoImplicit false

namespace Zap.Zapcore

open Data

variable {E F : Type} {b : Bool}

/-! ## Registering -/

/-- What registers on a `CheckedEntry`. -/
inductive Kind (E : Type) where
  | leaf (core : IoCore E)
  | hooks (funcs : List Nat)

namespace Kind

def toLeaf : Kind E → Option (IoCore E)
  | .leaf core => some core
  | .hooks _ => none

def toHooks : Kind E → Option (List Nat)
  | .leaf _ => none
  | .hooks funcs => some funcs

/-- The kind of a core, if it is one that registers. -/
def of : (b : Bool) × Core E F b → Option (Kind E)
  | ⟨_, .io core⟩ => some (.leaf core)
  | ⟨_, .hooked _ funcs⟩ => some (.hooks funcs)
  | _ => none

theorem length_eq (regs : List (Kind E)) :
    regs.length = (regs.filterMap toLeaf).length + (regs.filterMap toHooks).length := by
  induction regs with
  | nil => rfl
  | cons k regs ih =>
    cases k with
    | leaf core =>
      simp only [List.filterMap_cons, toLeaf, toHooks, List.length_cons, ih]
      omega
    | hooks funcs =>
      simp only [List.filterMap_cons, toLeaf, toHooks, List.length_cons, ih]
      omega

end Kind

/-- `ce'` is `ce` with registrations added. -/
inductive Registers (ent : Entry) (ce : Option (CheckedEntry E F)) :
    List (Kind E) → Option (CheckedEntry E F) → Prop
  | refl : Registers ent ce [] ce
  | add {regs : List (Kind E)} {ce' : Option (CheckedEntry E F)} {b : Bool} {core : Core E F b}
      {k : Kind E} (h : Registers ent ce regs ce') (hk : Kind.of ⟨b, core⟩ = some k) :
      Registers ent ce (regs ++ [k]) (some (CheckedEntry.addCore ce' ent core))

namespace Registers

variable {ent : Entry} {ce ce' ce'' : Option (CheckedEntry E F)} {regs regs' : List (Kind E)}

theorem trans (h : Registers ent ce regs ce') (h' : Registers ent ce' regs' ce'') :
    Registers ent ce (regs ++ regs') ce'' := by
  induction h' with
  | refl => rw [List.append_nil]; exact h
  | add _ hk ih => rw [← List.append_assoc]; exact .add ih hk

theorem length (h : Registers ent ce regs ce') :
    (CheckedEntry.registered ce').length = (CheckedEntry.registered ce).length + regs.length := by
  induction h with
  | refl => rfl
  | @add regs ce' b core k _ _ ih =>
    cases ce' with
    | none =>
      simp only [CheckedEntry.registered, CheckedEntry.addCore, Option.getD_none, List.nil_append,
        List.length_append, List.length_singleton, List.length_nil] at ih ⊢
      omega
    | some ce' =>
      simp only [CheckedEntry.registered, CheckedEntry.addCore, Option.getD_some,
        List.length_append, List.length_singleton] at ih ⊢
      omega

theorem kinds (h : Registers ent ce regs ce')
    (hce : ∀ core ∈ CheckedEntry.registered ce, (Kind.of core).isSome) :
    ∀ core ∈ CheckedEntry.registered ce', (Kind.of core).isSome := by
  induction h with
  | refl => exact hce
  | @add regs ce' b core k _ hk ih =>
    have hcore : (Kind.of ⟨b, core⟩).isSome := by rw [hk]; rfl
    cases ce' with
    | none => exact List.forall_mem_singleton.mpr hcore
    | some ce' => exact List.forall_mem_append.mpr ⟨ih, List.forall_mem_singleton.mpr hcore⟩

end Registers

/-! ## What a `Check` does -/

/-- Events that are decisions of samplers. -/
def Event.isDecision : Event E F → Bool
  | .decision _ _ _ => true
  | _ => false

/-- From one world to another without calling anything but the hooks of samplers. -/
structure Quiet (content : Nat → Core E F false) (n : Nat) (w w' : World E F) : Prop where
  cells : Fills content n w.cells w'.cells
  next : w'.next = w.next
  hookChecks : w'.hookChecks = w.hookChecks
  trace : ∃ ds, w'.trace = w.trace ++ ds ∧ ∀ e ∈ ds, e.isDecision = true

/-- What `Check` does, given the survey of the core. -/
structure Checked [Encoder E F] (content : Nat → Core E F false) (n : Nat) (ent : Entry)
    (ce : Option (CheckedEntry E F)) (w : World E F) (s : Survey E F)
    (r : Option (CheckedEntry E F) × World E F) : Prop where
  registers : ∃ regs, Registers ent ce regs r.1 ∧ regs.filterMap Kind.toLeaf = s.delivered ∧
    regs.filterMap Kind.toHooks = s.registering
  isSome : r.1.isSome = (ce.isSome || s.passing)
  counters : r.2.counters = s.counters
  hookChecks : r.2.hookChecks = w.hookChecks ++ s.checks
  trace : ∃ ds, r.2.trace = w.trace ++ ds ∧ ∀ e ∈ ds, e.isDecision = true
  cells : Fills content n w.cells r.2.cells
  next : r.2.next = w.next

namespace Checked

variable [Encoder E F] {content : Nat → Core E F false} {n : Nat} {ent : Entry}
  {ce : Option (CheckedEntry E F)} {w : World E F} {s : Survey E F}

/-- Nothing happens where no leaf passes and no hook is called. -/
theorem skip (hpass : s.passing = false) (hhook : s.hooking = false)
    (hcounters : s.counters = w.counters) : Checked content n ent ce w s (ce, w) where
  registers := ⟨[], .refl, (Survey.delivered_nil hpass).symm, (Survey.registering_nil hhook).symm⟩
  isSome := by rw [hpass, Bool.or_false]
  counters := hcounters.symm
  hookChecks := by rw [Survey.checks_nil hhook, List.append_nil]
  trace := ⟨[], (List.append_nil _).symm, List.forall_mem_nil _⟩
  cells := .refl _
  next := rfl

/-- One `Check` after another. -/
theorem append {t : Survey E F} {r r' : Option (CheckedEntry E F) × World E F}
    (h : Checked content n ent ce w s r) (h' : Checked content n ent r.1 r.2 t r') :
    Checked content n ent ce w (s.append t) r' := by
  obtain ⟨regs, hregs, hleaf, hhooks⟩ := h.registers
  obtain ⟨regs', hregs', hleaf', hhooks'⟩ := h'.registers
  obtain ⟨ds, htrace, hds⟩ := h.trace
  obtain ⟨ds', htrace', hds'⟩ := h'.trace
  refine ⟨⟨regs ++ regs', hregs.trans hregs', ?_, ?_⟩, ?_, h'.counters, ?_, ⟨ds ++ ds', ?_, ?_⟩,
    h.cells.trans h'.cells, h'.next.trans h.next⟩
  · rw [List.filterMap_append, hleaf, hleaf', Survey.delivered_append]
  · rw [List.filterMap_append, hhooks, hhooks', Survey.registering_append]
  · rw [h'.isSome, h.isSome, Survey.passing_append, Bool.or_assoc]
  · rw [h'.hookChecks, h.hookChecks, Survey.checks_append, List.append_assoc]
  · rw [htrace', htrace, List.append_assoc]
  · exact List.forall_mem_append.mpr ⟨hds, hds'⟩

/-- A `Check` after something quiet. -/
theorem after {w₁ : World E F} {r : Option (CheckedEntry E F) × World E F} 
    (hquiet : Quiet content n w w₁)
    (h : Checked content n ent ce w₁ s r) : Checked content n ent ce w s r := by
  obtain ⟨ds, htrace, hds⟩ := hquiet.trace
  obtain ⟨ds', htrace', hds'⟩ := h.trace
  refine ⟨h.registers, h.isSome, h.counters, ?_, ⟨ds ++ ds', ?_, ?_⟩,
    hquiet.cells.trans h.cells, h.next.trans hquiet.next⟩
  · rw [h.hookChecks, hquiet.hookChecks]
  · rw [htrace', htrace, List.append_assoc]
  · exact List.forall_mem_append.mpr ⟨hds, hds'⟩

/-- The fields of a leaf may be added before. -/
theorem of_made {r : Option (CheckedEntry E F) × World E F}
    (h : Checked content n ent ce w s.made r) : Checked content n ent ce w s r where
  registers := by
    obtain ⟨regs, hregs, hleaf, hhooks⟩ := h.registers
    exact ⟨regs, hregs, hleaf.trans Survey.made_delivered, hhooks⟩
  isSome := h.isSome.trans (congrArg _ Survey.made_passing)
  counters := h.counters
  hookChecks := h.hookChecks
  trace := h.trace
  cells := h.cells
  next := h.next

theorem mono {m : Nat} (hnm : n ≤ m) {r : Option (CheckedEntry E F) × World E F}
    (h : Checked content n ent ce w s r) : Checked content m ent ce w s r :=
  ⟨h.registers, h.isSome, h.counters, h.hookChecks, h.trace, h.cells.mono hnm, h.next⟩

end Checked

section

variable {content : Nat → Core E F false} {n : Nat}

theorem Fills.quiet {w : World E F} {cells : Cells E F} (h : Fills content n w.cells cells) :
    Quiet content n w { w with cells } :=
  ⟨h, rfl, rfl, [], (List.append_nil _).symm, List.forall_mem_nil _⟩

theorem quiet_decided (w : World E F) (counters : Nat → Counters) (s : Sampler) (ent : Entry)
    (d : SamplingDecision) : Quiet content n w (World.decided { w with counters } s ent d) := by
  unfold World.decided
  cases s.hook with
  | none => exact ⟨.refl _, rfl, rfl, [], (List.append_nil _).symm, List.forall_mem_nil _⟩
  | some hook => exact ⟨.refl _, rfl, rfl, [_], rfl, fun e he => by rw [List.mem_singleton.mp he]; rfl⟩

end

/-! ## `Check` does what the survey says -/

namespace Core

variable [Encoder E F] {content : Nat → Core E F false} {n : Nat} {ent : Entry}

/-- `Check` on a core does what the survey says. -/
def Surveyed (content : Nat → Core E F false) (n : Nat) (ent : Entry) (core : Core E F b) : Prop :=
  ∀ ce w, w.cells.Agrees content →
    Checked content n ent ce w (core.survey ent .start ce.isSome w.counters) (core.check ent ce w)

variable {core : Core E F b}

/-- Nothing happens where `Check` does not get to and no leaf passes. -/
theorem skip_unreached {ce : Option (CheckedEntry E F)} {w : World E F} {way : Way F}
    (hway : way.reached = false) {started : Bool}
    (hpass : (core.survey ent way started w.counters).passing = false) :
    Checked content n ent ce w (core.survey ent way started w.counters) (ce, w) := by
  obtain ⟨hcounters, hhook⟩ := @survey_unreached E F b ent core way started w.counters hway
  exact Checked.skip hpass hhook hcounters

theorem surveyed_io (core : IoCore E) : Surveyed content n ent (.io core : Core E F b) := by
  intro ce w hagree
  rw [check_io]
  split
  · next hon =>
    have hadd : Registers ent ce ([] ++ [.leaf core])
        (some (CheckedEntry.addCore (b := b) ce ent (.io core))) := .add .refl rfl
    refine ⟨⟨[.leaf core], hadd, ?_, rfl⟩, ?_, rfl, ?_, ⟨[], ?_, List.forall_mem_nil _⟩, .refl _, rfl⟩
    · simp only [survey, Survey.delivered, Way.start, hon, Bool.and_self, List.filter_cons,
        ↓reduceIte, List.filter_nil, List.map_cons, List.map_nil, List.foldl_nil]
      rfl
    · simp only [survey, Survey.passing, Way.start, hon, Bool.and_self, List.any_cons,
        Bool.true_or, Bool.or_true, Option.isSome_some]
    · exact (List.append_nil _).symm
    · exact (List.append_nil _).symm
  · next hoff =>
    have hlevel : core.level.enabled ent.level = false := Bool.eq_false_iff.mpr hoff
    exact Checked.skip (survey_disabled hlevel) rfl rfl

theorem Surveyed.hooked (h : Surveyed content n ent core) (funcs : List Nat) :
    Surveyed content n ent (.hooked core funcs) := by
  intro ce w hagree
  have hcore := h ce w hagree
  have hagreed := @survey_registers E F b ent core .start ce.isSome w.counters _
  rw [check_hooked]
  simp only [survey]
  generalize core.survey ent .start ce.isSome w.counters = s at hcore hagreed
  generalize core.check ent ce w = r at hcore
  obtain ⟨regs, hregs, hleaf, hhooks⟩ := hcore.registers
  -- the wrapped core has registered if there are more registrations than before
  have hgrew : decide ((CheckedEntry.registered ce).length < (CheckedEntry.registered r.1).length) =
      (s.passing || (ce.isSome && s.hooking)) := by
    rw [Bool.eq_iff_iff, decide_eq_true_iff, ← hagreed, hregs.length, Kind.length_eq regs, hleaf,
      hhooks]
    simp only [ne_eq, ← List.length_eq_zero_iff]
    omega
  have hchecks : (r.2.hookChecked funcs ce r.1).hookChecks =
      w.hookChecks ++ (s.checks ++ [(funcs, s.passing || (ce.isSome && s.hooking))]) := by
    rw [World.hookChecked, hgrew, hcore.hookChecks, List.append_assoc]
  refine ⟨?_, ?_, hcore.counters, hchecks.trans ?_, hcore.trace, hcore.cells,
    hcore.next⟩
  · cases hr : r.1 with
    | none =>
      -- then there was no entry before either, and the hooks do not register
      have hnone := hcore.isSome
      rw [hr, Option.isSome_none, eq_comm] at hnone
      have hce : ce = none := by
        rw [← Option.isNone_iff_eq_none, ← Option.isSome_eq_false_iff]
        exact (Bool.or_eq_false_iff.mp hnone).1
      rw [hr, ← hce] at hregs
      refine ⟨regs, hregs, hleaf, hhooks.trans ?_⟩
      simp only [Survey.registering, List.filter_append, hnone, Bool.and_false, List.filter_cons,
        Bool.false_eq_true, ↓reduceIte, List.filter_nil, List.append_nil]
    | some downstream =>
      have hsome := hcore.isSome
      rw [hr, Option.isSome_some, eq_comm] at hsome
      rw [hr] at hregs
      refine ⟨regs ++ [.hooks funcs], .add hregs rfl, ?_, ?_⟩
      · rw [List.filterMap_append, hleaf]
        exact List.append_nil _
      · rw [List.filterMap_append, hhooks]
        simp only [Survey.registering, List.filter_append, hsome, Way.start, Bool.and_self,
          List.filter_cons, ↓reduceIte, List.filter_nil, List.map_append, List.map_cons,
          List.map_nil]
        rfl
  · cases hr : r.1 with
    | none =>
      have hnone := hcore.isSome
      rw [hr, Option.isSome_none] at hnone
      rw [Option.elim_none]
      exact (Bool.or_eq_false_iff.mp hnone.symm).1.trans hnone
    | some downstream =>
      have hsome := hcore.isSome
      rw [hr] at hsome
      exact hsome
  · simp only [Survey.checks, List.filter_append, Way.start, List.filter_cons, ↓reduceIte,
      List.filter_nil, List.map_append, List.map_cons, List.map_nil]

theorem Surveyed.levelFilter (h : Surveyed content n ent core) (level : LevelEnabler) :
    Surveyed content n ent (.levelFilter core level) := by
  intro ce w hagree
  rw [check_levelFilter]
  cases hon : level.enabled ent.level with
  | true =>
    simp only [survey, hon, Bool.and_true]
    exact h ce w hagree
  | false =>
    simp only [survey, hon, Bool.and_false, Bool.not_false, ↓reduceIte]
    exact skip_unreached rfl (survey_closed rfl)

omit [Encoder E F] in
/-- Asking a sampler is counting the entry. -/
theorem ask_eq (w : World E F) (s : Sampler) (ent : Entry) :
    s.ask ent w.counters = (!s.drops (w.incCheckReset s ent).1, (w.incCheckReset s ent).2.counters) :=
  rfl

theorem Surveyed.sampler (h : Surveyed content n ent core) (s : Sampler) :
    Surveyed content n ent (.sampler core s) := by
  intro ce w hagree
  rw [check_sampler, checkSampled]
  cases hon : core.enabled ent.level with
  | false =>
    simp only [survey, hon, Bool.and_false, Bool.false_and, Sampler.askIf, Bool.false_eq_true,
      ↓reduceIte, Bool.not_false]
    exact skip_unreached rfl (survey_disabled hon)
  | true =>
    cases hrange : ent.level.inRange with
    | false =>
      simp only [survey, hon, hrange, Bool.and_false, Bool.and_true, Sampler.askIf,
        Bool.false_eq_true, ↓reduceIte, Bool.not_true]
      exact h ce w hagree
    | true =>
      have hquiet : ∀ d, Quiet content n w ((w.incCheckReset s ent).2.decided s ent d) :=
        quiet_decided w _ s ent
      have hcounters : ∀ d, ((w.incCheckReset s ent).2.decided s ent d).counters =
          (w.incCheckReset s ent).2.counters := by
        intro d
        unfold World.decided
        cases s.hook <;> rfl
      simp only [survey, hon, hrange, Way.start, Bool.and_true, Sampler.askIf, ask_eq,
        ↓reduceIte, Bool.not_true, Bool.false_eq_true, Bool.true_and]
      cases hdrops : s.drops (w.incCheckReset s ent).1 with
      | true =>
        simp only [↓reduceIte, Bool.not_true]
        refine .after (hquiet .logDropped) ?_
        rw [← hcounters .logDropped]
        exact skip_unreached rfl (survey_closed rfl)
      | false =>
        simp only [Bool.false_eq_true, ↓reduceIte, Bool.not_false]
        refine .after (hquiet .logSampled) ?_
        rw [← hcounters .logSampled]
        exact h ce _ ((hquiet .logSampled).cells.agrees hagree)

/-- A lazy core lets the core that it made do the checking. -/
theorem surveyed_lazyWith (down : ∀ core : Core E F false, Surveyed content 0 ent core)
    {h : b = true} {ref : Nat} {original : Core E F b} {own : List F}
    (hcoh : (lazyWith h ref original own).Coherent content)
    (hbelow : (lazyWith h ref original own).Below n) :
    Surveyed content n ent (.lazyWith h ref original own) := by
  intro ce w hagree
  rw [check_lazyWith]
  cases hon : original.enabled ent.level with
  | false =>
    simp only [survey, hon, Way.start, Bool.or_false, Bool.and_false, Bool.not_false, ↓reduceIte]
    exact skip_unreached rfl (survey_disabled hon)
  | true =>
    obtain ⟨cells, hinit, hfills⟩ := initOnce_eq hcoh hagree
    have hmade := down (original.made [own]) ce { w with cells } (hfills.agrees hagree)
    rw [survey_made original [own] .start rfl] at hmade
    simp only [survey, hon, hinit, Way.start, Bool.or_true, Bool.and_true, Bool.not_true,
      Bool.false_eq_true, ↓reduceIte]
    exact .after (hfills.mono hbelow.1).quiet (.mono (Nat.zero_le n) (.of_made hmade))

theorem surveyed_of (down : b = true → ∀ core : Core E F false, Surveyed content 0 ent core)
    (hcoh : core.Coherent content) (hbelow : b = true → core.Below n) :
    Surveyed content n ent core := by
  induction core with
  | nop =>
    intro ce w _
    rw [check_nop]
    exact .skip rfl rfl rfl
  | io core => exact surveyed_io core
  | nil =>
    intro ce w _
    rw [check_nil]
    exact .skip rfl rfl rfl
  | cons core cores ih ihs =>
    intro ce w hagree
    obtain ⟨hcore, hcores⟩ := coherent_cons.mp hcoh
    have hfirst := ih hcore (fun h => (below_cons.mp (hbelow h)).1) ce w hagree
    have hrest := ihs hcores (fun h => (below_cons.mp (hbelow h)).2) (core.check ent ce w).1
      (core.check ent ce w).2 (hfirst.cells.agrees hagree)
    rw [hfirst.isSome, hfirst.counters] at hrest
    rw [check_cons, survey_cons]
    exact hfirst.append hrest
  | hooked core funcs ih => exact (ih hcoh hbelow).hooked funcs
  | levelFilter core level ih => exact (ih hcoh hbelow).levelFilter level
  | sampler core s ih => exact (ih hcoh fun h => (hbelow h).2).sampler s
  | lazyWith h ref original own _ => exact surveyed_lazyWith (down h) hcoh (hbelow h)

/-- `Check` does what the survey says, on a core without lazy cores. -/
theorem surveyed_eager (ent : Entry) (core : Core E F false) : Surveyed content n ent core :=
  surveyed_of nofun (coherent_eager content core) nofun

/-- `Check` does what the survey says. -/
theorem surveyed (ent : Entry) (hcoh : core.Coherent content) (hbelow : core.Below n) :
    Surveyed content n ent core :=
  surveyed_of (fun _ core => surveyed_eager ent core) hcoh fun _ => hbelow

end Core

end Zap.Zapcore
