import Zap.Laws.Cores

/-!
# Which leaves of a core an entry is for

A survey of a core for an entry, with no registering and no pre-filtering in it. It lists every
leaf from left to right, with the fields it has to add and whether the entry passes: whether the
leaf's own level, every level around it and every sampler around it let the entry through. And it
lists every set of hooks, with what an observer can say about its place.

A sampler's answer depends on how often it was asked, so the counters are carried along. It is
asked if `Check` gets to it, which is what `reached` says, and if its core is enabled.
-/

set_option autoImplicit false

namespace Zap.Zapcore

open Data

variable {E F : Type} {b : Bool}

/-- A leaf of a core: the fields that lazy cores around it add, and whether an entry passes. -/
structure Leaf (E F : Type) where
  core : IoCore E
  contexts : List (List F)
  passes : Bool

/-- Hooks in a core: whether `hooked.Check` is called, whether a leaf in front of them passes,
whether one inside does, and whether there are other hooks inside that are called. -/
structure HookVisit where
  funcs : List Nat
  reached : Bool
  before : Bool
  leafInside : Bool
  hookInside : Bool

structure Survey (E F : Type) where
  leaves : List (Leaf E F)
  hooks : List HookVisit
  counters : Nat → Counters

/-- How a survey got to a core: the fields on the way, whether everything on the way lets the
entry pass, whether `Check` gets there, and whether it is inside a core that a lazy core made. -/
structure Way (F : Type) where
  contexts : List (List F)
  passes : Bool
  reached : Bool
  lazily : Bool

/-- The way to a whole core. -/
def Way.start : Way F := ⟨[], true, true, false⟩

namespace Survey

/-- A leaf passes. -/
def passing (s : Survey E F) : Bool := s.leaves.any Leaf.passes

/-- Hooks are called. -/
def hooking (s : Survey E F) : Bool := s.hooks.any HookVisit.reached

/-- One survey after another. -/
def append (s t : Survey E F) : Survey E F := ⟨s.leaves ++ t.leaves, s.hooks ++ t.hooks, t.counters⟩

end Survey

/-- A sampler is asked about an entry. -/
def Sampler.ask (s : Sampler) (ent : Entry) (counters : Nat → Counters) :
    Bool × (Nat → Counters) :=
  let slot := slotOf ent.level ent.message
  let (n, c) := (counters s.counts slot).incCheckReset ent.time s.tick
  (!s.drops n, Function.update counters s.counts (Function.update (counters s.counts) slot c))

/-- A sampler that is not asked keeps nobody from passing. -/
def Sampler.askIf (s : Sampler) (asked : Bool) (ent : Entry) (counters : Nat → Counters) :
    Bool × (Nat → Counters) :=
  if asked then s.ask ent counters else (true, counters)

namespace Core

mutual
/-- The survey of a core. `started` says whether a leaf in front of it passes. -/
def survey (ent : Entry) : Core E F b → Way F → Bool → (Nat → Counters) → Survey E F
  | .nop, _, _, counters => ⟨[], [], counters⟩
  | .io core, way, _, counters =>
    ⟨[⟨core, way.contexts, way.passes && core.level.enabled ent.level⟩], [], counters⟩
  | .multi cores, way, started, counters => surveyAll ent cores way started counters
  | .hooked core funcs, way, started, counters =>
    let s := core.survey ent way started counters
    { s with hooks := s.hooks ++ [⟨funcs, way.reached, started, s.passing, s.hooking⟩] }
  | .levelFilter core level, way, started, counters =>
    let on := level.enabled ent.level
    core.survey ent { way with passes := way.passes && on, reached := way.reached && on } started
      counters
  | .sampler core s, way, started, counters =>
    let enters := way.reached && core.enabled ent.level
    let (accepts, counters) := s.askIf (enters && ent.level.inRange) ent counters
    core.survey ent { way with passes := way.passes && accepts, reached := enters && accepts }
      started counters
  | .lazyWith _ _ original own, way, started, counters =>
    original.survey ent
      { way with
        contexts := own :: way.contexts
        reached := way.reached && (way.lazily || original.enabled ent.level)
        lazily := true } started counters
def surveyAll (ent : Entry) : List (Core E F b) → Way F → Bool → (Nat → Counters) → Survey E F
  | [], _, _, counters => ⟨[], [], counters⟩
  | core :: cores, way, started, counters =>
    let s := core.survey ent way started counters
    s.append (surveyAll ent cores way (started || s.passing) s.counters)
end

variable (ent : Entry)

theorem survey_cons (core : Core E F b) (cores : List (Core E F b)) (way : Way F) (started : Bool)
    (counters : Nat → Counters) :
    (multi (core :: cores)).survey ent way started counters =
      (core.survey ent way started counters).append ((multi cores).survey ent way
        (started || (core.survey ent way started counters).passing)
        (core.survey ent way started counters).counters) := rfl

end Core

namespace Survey

/-- The leaves that pass, each with its fields. -/
def delivered [Encoder E F] (s : Survey E F) : List (IoCore E) :=
  (s.leaves.filter Leaf.passes).map fun l => l.contexts.foldl IoCore.withFields l.core

/-- The hooks that register: `Check` gets to them, and there is a `CheckedEntry` by then. -/
def registering (s : Survey E F) : List (List Nat) :=
  (s.hooks.filter fun h => h.reached && (h.before || h.leafInside)).map HookVisit.funcs

/-- The calls of `hooked.Check`, and whether the wrapped core has registered. -/
def checks (s : Survey E F) : List (List Nat × Bool) :=
  (s.hooks.filter HookVisit.reached).map fun h =>
    (h.funcs, h.leafInside || (h.before && h.hookInside))

variable (s t : Survey E F)

theorem passing_append : (s.append t).passing = (s.passing || t.passing) := List.any_append

theorem hooking_append : (s.append t).hooking = (s.hooking || t.hooking) := List.any_append

theorem delivered_append [Encoder E F] :
    (s.append t).delivered = s.delivered ++ t.delivered := by
  simp only [delivered, append, List.filter_append, List.map_append]

theorem registering_append : (s.append t).registering = s.registering ++ t.registering := by
  simp only [registering, append, List.filter_append, List.map_append]

theorem checks_append : (s.append t).checks = s.checks ++ t.checks := by
  simp only [checks, append, List.filter_append, List.map_append]

variable {s}

theorem delivered_nil [Encoder E F] (h : s.passing = false) : s.delivered = [] := by
  rw [delivered, List.filter_eq_nil_iff.mpr (List.any_eq_false.mp h), List.map_nil]

theorem delivered_ne_nil [Encoder E F] (h : s.passing = true) : s.delivered ≠ [] := by
  obtain ⟨l, hl, hpass⟩ := List.any_eq_true.mp h
  exact List.ne_nil_of_mem (List.mem_map_of_mem (List.mem_filter.mpr ⟨hl, hpass⟩))

theorem registering_nil (h : s.hooking = false) : s.registering = [] := by
  have hnone := List.any_eq_false.mp h
  rw [registering, List.filter_eq_nil_iff.mpr fun v hv => ?_, List.map_nil]
  rw [Bool.eq_false_iff.mpr (hnone v hv), Bool.false_and]
  exact Bool.false_ne_true

theorem checks_nil (h : s.hooking = false) : s.checks = [] := by
  rw [checks, List.filter_eq_nil_iff.mpr (List.any_eq_false.mp h), List.map_nil]

variable (s) in
/-- The survey with the fields of each leaf added to it. -/
def made [Encoder E F] : Survey E F :=
  { s with leaves := s.leaves.map fun l => ⟨l.contexts.foldl IoCore.withFields l.core, [], l.passes⟩ }

theorem made_passing [Encoder E F] : s.made.passing = s.passing := by
  simp only [passing, made, List.any_map]
  rfl

theorem made_append [Encoder E F] (t : Survey E F) : (s.append t).made = s.made.append t.made := by
  simp only [append, made, List.map_append]

theorem made_delivered [Encoder E F] : s.made.delivered = s.delivered := by
  simp only [delivered, made, List.filter_map, List.map_map]
  rfl

end Survey

/-- What the flags of hooks say about the survey they are in. -/
structure HookVisit.Sits (h : HookVisit) (started passing : Bool) : Prop where
  before : started = true → h.before = true
  started : h.before = true → started = true ∨ passing = true
  inside : h.leafInside = true → passing = true

theorem HookVisit.Sits.mono {h : HookVisit} {started passing started' passing' : Bool}
    (hs : h.Sits started passing) (h₁ : started' = true → started = true)
    (h₂ : started = true ∨ passing = true → started' = true ∨ passing' = true)
    (h₃ : passing = true → passing' = true) : h.Sits started' passing' :=
  ⟨fun hst => hs.before (h₁ hst), fun hb => h₂ (hs.started hb), fun hi => h₃ (hs.inside hi)⟩

namespace Core

variable {ent : Entry} {core : Core E F b} {way : Way F} {started : Bool}
  {counters : Nat → Counters}

/-- Where `Check` does not get to, samplers are not asked and hooks not called. -/
theorem survey_unreached (h : way.reached = false) :
    (core.survey ent way started counters).counters = counters ∧
      (core.survey ent way started counters).hooking = false := by
  induction core generalizing way started counters with
  | nop => exact ⟨rfl, rfl⟩
  | io core => exact ⟨rfl, rfl⟩
  | nil => exact ⟨rfl, rfl⟩
  | cons core cores ih ihs =>
    obtain ⟨hcounters, hhooking⟩ := @ih way started counters h
    rw [survey_cons, Survey.hooking_append, hhooking, hcounters]
    exact ihs h
  | hooked core funcs ih =>
    obtain ⟨hcounters, hhooking⟩ := @ih way started counters h
    refine ⟨hcounters, ?_⟩
    simp only [Survey.hooking] at hhooking
    simp only [survey, Survey.hooking, List.any_append, hhooking, h, List.any_cons, List.any_nil,
      Bool.or_false]
  | levelFilter core level ih => exact ih (by simp only [h, Bool.false_and])
  | sampler core s ih =>
    simp only [survey, h, Bool.false_and, Sampler.askIf, Bool.false_eq_true, ↓reduceIte]
    exact ih rfl
  | lazyWith _ ref original own ih => exact ih (by simp only [h, Bool.false_and])

/-- Behind something that does not let the entry pass, no leaf passes. -/
theorem survey_closed (h : way.passes = false) :
    (core.survey ent way started counters).passing = false := by
  induction core generalizing way started counters with
  | nop => rfl
  | io core => simp only [survey, Survey.passing, h, Bool.false_and, List.any_cons, List.any_nil,
      Bool.or_false]
  | nil => rfl
  | cons core cores ih ihs => rw [survey_cons, Survey.passing_append, ih h, ihs h, Bool.or_false]
  | hooked core funcs ih => exact ih h
  | levelFilter core level ih => exact ih (by simp only [h, Bool.false_and])
  | sampler core s ih =>
    refine ih ?_
    rw [h, Bool.false_and]
  | lazyWith _ ref original own ih => exact ih h

/-- A core that is not enabled has no leaf that passes. -/
theorem survey_disabled (h : core.enabled ent.level = false) :
    (core.survey ent way started counters).passing = false := by
  induction core generalizing way started counters with
  | nop => rfl
  | io core =>
    have hlevel : core.level.enabled ent.level = false := h
    simp only [survey, Survey.passing, hlevel, Bool.and_false, List.any_cons, List.any_nil,
      Bool.or_false]
  | nil => rfl
  | cons core cores ih ihs =>
    obtain ⟨hcore, hcores⟩ := Bool.or_eq_false_iff.mp ((enabled_cons core cores _).symm.trans h)
    rw [survey_cons, Survey.passing_append, ih hcore, ihs hcores, Bool.or_false]
  | hooked core funcs ih => exact ih h
  | levelFilter core level ih =>
    have hlevel : level.enabled ent.level = false := h
    simp only [survey]
    exact survey_closed (by simp only [hlevel, Bool.and_false])
  | sampler core s ih => exact ih h
  | lazyWith _ ref original own ih => exact ih h

theorem survey_sits : ∀ h ∈ (core.survey ent way started counters).hooks,
    h.Sits started (core.survey ent way started counters).passing := by
  induction core generalizing way started counters with
  | nop => nofun
  | io core => nofun
  | nil => nofun
  | cons core cores ih ihs =>
    rw [survey_cons, Survey.passing_append]
    intro h hh
    rcases List.mem_append.mp hh with hh | hh
    · refine (ih h hh).mono id (Or.imp_right fun hp => ?_) fun hp => ?_
      · rw [hp, Bool.true_or]
      · rw [hp, Bool.true_or]
    · refine (ihs h hh).mono (fun hst => ?_) (fun hor => ?_) fun hp => ?_
      · rw [hst, Bool.true_or]
      · rw [Bool.or_eq_true] at hor ⊢
        tauto
      · rw [hp, Bool.or_true]
  | hooked core funcs ih =>
    intro h hh
    rcases List.mem_append.mp hh with hh | hh
    · exact ih h hh
    · rw [List.mem_singleton.mp hh]
      exact ⟨id, .inl, id⟩
  | levelFilter core level ih => exact ih
  | sampler core s ih => exact ih
  | lazyWith _ ref original own ih => exact ih

/-- Something registers in a core if a leaf in it passes, or if hooks are called in it when there
is a `CheckedEntry` already. -/
theorem survey_registers [Encoder E F] :
    ((core.survey ent way started counters).delivered ≠ [] ∨
        (core.survey ent way started counters).registering ≠ []) ↔
      ((core.survey ent way started counters).passing ||
        (started && (core.survey ent way started counters).hooking)) = true := by
  have hsits := @survey_sits E F b ent core way started counters
  generalize core.survey ent way started counters = s at hsits
  rw [Bool.or_eq_true, Bool.and_eq_true]
  constructor
  · rintro (hdel | hreg)
    · by_contra hnot
      exact hdel (Survey.delivered_nil (Bool.eq_false_iff.mpr fun hp => hnot (.inl hp)))
    · obtain ⟨funcs, hmem⟩ := List.exists_mem_of_ne_nil _ hreg
      obtain ⟨h, hh, _⟩ := List.mem_map.mp hmem
      obtain ⟨hh, hflags⟩ := List.mem_filter.mp hh
      rw [Bool.and_eq_true, Bool.or_eq_true] at hflags
      have hhook : s.hooking = true := List.any_eq_true.mpr ⟨h, hh, hflags.1⟩
      rcases hflags.2 with hb | hi
      · rcases (hsits h hh).started hb with hst | hp
        · exact .inr ⟨hst, hhook⟩
        · exact .inl hp
      · exact .inl ((hsits h hh).inside hi)
  · rintro (hp | ⟨hst, hhook⟩)
    · exact .inl (Survey.delivered_ne_nil hp)
    · obtain ⟨h, hh, hreached⟩ := List.any_eq_true.mp hhook
      refine .inr (List.ne_nil_of_mem (List.mem_map_of_mem (List.mem_filter.mpr ⟨hh, ?_⟩)))
      rw [hreached, (hsits h hh).before hst, Bool.true_and, Bool.true_or]

/-- A core with the fields of `With` added is surveyed as the core with the fields on the way. -/
theorem survey_made [Encoder E F] (core : Core E F b) (fss : List (List F)) (way : Way F)
    (hway : way.contexts = []) (started : Bool) (counters : Nat → Counters) :
    (core.made fss).survey ent way started counters =
      (core.survey ent { way with contexts := fss, lazily := true } started counters).made := by
  induction core generalizing fss way started counters with
  | nop => rfl
  | io core =>
    have hlevel : (fss.foldl IoCore.withFields core).level = core.level := foldl_level core fss
    simp only [made, survey, Survey.made, hway, hlevel, List.map_cons, List.map_nil]
  | nil => rfl
  | cons core cores ih ihs =>
    rw [made_cons, survey_cons, survey_cons, Survey.made_append, ih fss way hway, Survey.made_passing]
    exact congrArg _ (ihs fss way hway _ _)
  | hooked core funcs ih =>
    simp only [made, survey, ih fss way hway, Survey.made_passing]
    rfl
  | levelFilter core level ih =>
    simp only [made, survey]
    refine ih fss _ ?_ started counters
    exact hway
  | sampler core s ih =>
    simp only [made, survey, enabled_made]
    refine ih fss _ ?_ started _
    exact hway
  | lazyWith _ ref original own ih =>
    simp only [made, survey, Bool.true_or, Bool.and_true]
    exact ih (own :: fss) way hway started counters

end Core

end Zap.Zapcore
