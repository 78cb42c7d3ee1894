import Zap.Laws.Sessions
import Zap.Laws.SteadyEncoders

/-!
# Lazy `With` is `With`

`NewLazyWith` puts off `With` until the core is used. A session with the lazy core and the same
session with the core that `With` returns cannot be told apart: they give the same answers, make
the same calls outside and leave the same counters. The cells are where they differ, and no call
on a core without lazy cores looks there. So the two worlds are related by `Shadows`, and it is
enough to see that each call keeps them related (`twins_lazy`).

Hooks are excluded: a lazy core passes no `Check` on when its level is disabled, but hooks would
register on an entry that has been checked before.

Up to `lazyWith_eager` this is about encoders that return. One that panics on the fields tells the two
apart: `With` panics at once, and the lazy core at its first use (`lazyWith_panics_later`). So the
result for encoders that may panic asks that they do not on the fields of the core, of `NewLazyWith`
and of the session (`lazyWith_steady`).
-/

set_option autoImplicit false

namespace Zap.Zapcore

open Data

variable {E F : Type} {b : Bool}

namespace Core

mutual
/-- There are no hooks in the core. -/
def Hookless : Core E F b → Prop
  | .nop => True
  | .io _ => True
  | .multi cores => HooklessAll cores
  | .hooked _ _ => False
  | .levelFilter core _ => core.Hookless
  | .sampler core _ => core.Hookless
  | .lazyWith _ _ original _ => original.Hookless
def HooklessAll : List (Core E F b) → Prop
  | [] => True
  | core :: cores => core.Hookless ∧ HooklessAll cores
end

theorem hookless_cons {core : Core E F b} {cores : List (Core E F b)} :
    (multi (core :: cores)).Hookless ↔ core.Hookless ∧ (multi cores).Hookless := Iff.rfl

variable [Encoder E F]

theorem Hookless.made {core : Core E F b} (h : core.Hookless) (fss : List (List F)) :
    (core.made fss).Hookless := by
  induction core generalizing fss with
  | nop => trivial
  | io core => trivial
  | nil => trivial
  | cons core cores ih ihs => exact ⟨ih (hookless_cons.mp h).1 fss, ihs (hookless_cons.mp h).2 fss⟩
  | hooked core funcs _ => cases h
  | levelFilter core level ih => exact ih h fss
  | sampler core s ih => exact ih h fss
  | lazyWith _ ref original own ih => exact ih h (own :: fss)

/-- Without hooks, `Check` does nothing at a level that is not enabled. -/
theorem check_disabled {core : Core E F false} (h : core.Hookless) {ent : Entry}
    (hoff : core.enabled ent.level = false) (ce : Option (CheckedEntry E F)) (w : World E F) :
    core.check ent ce w = (ce, w) := by
  induction core generalizing ce w with
  | nop => exact check_nop ent ce w
  | io core =>
    have hlevel : core.level.enabled ent.level = false := hoff
    simp only [check_io, hlevel, Bool.false_eq_true, ↓reduceIte]
  | nil => exact check_nil ent ce w
  | cons core cores ih ihs =>
    obtain ⟨hcore, hcores⟩ := hookless_cons.mp h
    obtain ⟨hoff, hoffs⟩ := Bool.or_eq_false_iff.mp ((enabled_cons core cores _).symm.trans hoff)
    rw [check_cons, ih hcore hoff]
    exact ihs hcores hoffs ce w
  | hooked core funcs _ => cases h
  | levelFilter core level _ =>
    have hlevel : level.enabled ent.level = false := hoff
    simp only [check_levelFilter, hlevel, Bool.not_false, ↓reduceIte]
  | sampler core s _ =>
    have hcore : core.enabled ent.level = false := hoff
    simp only [check_sampler, checkSampled, hcore, Bool.not_false, ↓reduceIte]
  | lazyWith hfalse _ _ _ _ => cases hfalse

end Core

/-! ## Worlds that differ in cells -/

/-- The worlds are the same but for cells, and those of the first are what they are for. -/
structure Shadows (content : Nat → Core E F false) (w w' : World E F) : Prop where
  rest : ∃ cells next, w = w'.rebase cells next
  agrees : w.cells.Agrees content
  once : w.cells.Once

theorem Shadows.fills {content : Nat → Core E F false} {w w' : World E F}
    (h : Shadows content w w') {n : Nat} {cells : Cells E F} (hfills : Fills content n w.cells cells) :
    Shadows content { w with cells } w' := by
  obtain ⟨_, next, hw⟩ := h.rest
  exact ⟨⟨cells, next, by rw [hw]; rfl⟩, hfills.agrees h.agrees, hfills.once h.once⟩

section

variable [Encoder E F] [Environment E F] {content : Nat → Core E F false}

/-- Calls on the two cores cannot be told apart. -/
def Twins (content : Nat → Core E F false) (x y : (b : Bool) × Core E F b) : Prop :=
  ∀ (call : CoreCall E F) (w w' : World E F), Shadows content w w' →
    (call.apply x.2 w).answer = (call.apply y.2 w').answer ∧
      (call.apply x.2 w).made = (call.apply y.2 w').made ∧
      Shadows content (call.apply x.2 w).world (call.apply y.2 w').world

theorem twins_eager (core : Core E F false) : Twins content ⟨false, core⟩ ⟨false, core⟩ := by
  intro call w w' hshadows
  obtain ⟨cells, next, rfl⟩ := hshadows.rest
  rw [CoreCall.apply_rebase]
  exact ⟨rfl, rfl, ⟨cells, next, rfl⟩, hshadows.agrees, hshadows.once⟩

/-- A call that a lazy core answers without calling `With`. -/
def CoreCall.idle (core : Core E F b) : CoreCall E F → Bool
  | .enabled _ => true
  | .check ent _ _ => !core.enabled ent.level
  | _ => false

/-- Any other call is a call on the core that `With` makes. -/
theorem CoreCall.apply_lazyWith {h : b = true} {ref : Nat} {core : Core E F b} {own : List F}
    {call : CoreCall E F} (hcall : call.idle core = false) (w : World E F) :
    call.apply (.lazyWith h ref core own) w =
      call.apply (Core.initOnce ref core own w).1 (Core.initOnce ref core own w).2 := by
  cases call with
  | enabled l => cases hcall
  | check ent ce fields =>
    have hon : (!core.enabled ent.level) = false := hcall
    simp only [apply, Core.check_lazyWith, hon, Bool.false_eq_true, ↓reduceIte]
  | write ent fields => simp only [apply, Core.write_lazyWith]
  | sync => simp only [apply, Core.sync_lazyWith]
  | withFields fields => simp only [apply, Core.withFields_lazyWith]

/-- A lazy core and the core that `With` makes. -/
theorem twins_lazy {h : true = true} {ref : Nat} {core : Core E F true} {own : List F}
    (hcoh : (Core.lazyWith h ref core own).Coherent content) (hhook : core.Hookless) :
    Twins content ⟨true, .lazyWith h ref core own⟩ ⟨false, core.made [own]⟩ := by
  intro call w w' hshadows
  cases hidle : call.idle core with
  | false =>
    obtain ⟨cells, hinit, hfills⟩ := Core.initOnce_eq hcoh hshadows.agrees
    rw [CoreCall.apply_lazyWith hidle, hinit]
    exact twins_eager (core.made [own]) call _ w' (hshadows.fills hfills)
  | true =>
    cases call with
    | enabled l =>
      exact ⟨congrArg CoreCall.Answer.enabled (core.enabled_made [own] l).symm, rfl, hshadows⟩
    | check ent ce fields =>
      have hlazy : core.enabled ent.level = false := Bool.not_eq_true' _ |>.mp hidle
      have hmade := (core.enabled_made [own] ent.level).trans hlazy
      obtain ⟨cells, next, rfl⟩ := hshadows.rest
      simp only [CoreCall.apply, Core.check_lazyWith, hlazy, Bool.not_false, ↓reduceIte,
        Core.check_disabled (hhook.made [own]) hmade, CheckedEntry.write_rebase cells next ce.2,
        true_and]
      exact ⟨⟨cells, next, rfl⟩, hshadows.agrees, hshadows.once⟩
    | write ent fields => cases hidle
    | sync => cases hidle
    | withFields fields => cases hidle

/-! ## Sessions -/

/-- The sessions are about twins, and have gone the same way. -/
structure Alike (content : Nat → Core E F false) (s t : Session E F) : Prop where
  first : Twins content s.first t.first
  derived : s.derived = t.derived
  world : Shadows content s.world t.world

theorem Alike.core {s t : Session E F} (h : Alike content s t) (target : Nat) :
    Twins content (s.core target) (t.core target) := by
  unfold Session.core
  rw [h.derived]
  cases t.derived[target]? with
  | none => exact h.first
  | some core => exact twins_eager core

theorem Alike.step (r : Request E F) (s t : Session E F) (h : Alike content s t) :
    (Session.step r s).1 = (Session.step r t).1 ∧
      Alike content (Session.step r s).2 (Session.step r t).2 := by
  obtain ⟨hanswer, hmade, hworld⟩ := h.core r.target r.call s.world t.world h.world
  refine ⟨hanswer, h.first, ?_, hworld⟩
  simp only [Session.step, h.derived, hmade]

/-- An idle call on a lazy core leaves its cell empty. -/
theorem CoreCall.idle_made {h : b = true} {ref : Nat} {core : Core E F b} {own : List F}
    {call : CoreCall E F} (hcall : call.idle core = true) {w : World E F}
    (hnone : w.cells.made ref = none) :
    (call.apply (.lazyWith h ref core own) w).made = none ∧
      (call.apply (.lazyWith h ref core own) w).world.cells.made ref = none := by
  cases call with
  | enabled l => exact ⟨rfl, hnone⟩
  | check ent ce fields =>
    have hoff : core.enabled ent.level = false := Bool.not_eq_true' _ |>.mp hcall
    have hout : Outward (fun _ => .nop) 0 w (CheckedEntry.write ce.1 fields w) :=
      CheckedEntry.write_outward ce.2 fields w
    simp only [apply, Core.check_lazyWith, hoff, Bool.not_false, ↓reduceIte, true_and]
    exact (hout.cells.made_of_le (Nat.zero_le ref)).trans hnone
  | write ent fields => cases hcall
  | sync => cases hcall
  | withFields fields => cases hcall

/-- A session of idle calls leaves the cell of the lazy core empty. -/
theorem Session.run_idle {h : true = true} {ref : Nat} {core : Core E F true} {own : List F}
    {rs : List (Request E F)} (hrs : ∀ r ∈ rs, r.call.idle core = true) {w : World E F}
    (hnone : w.cells.made ref = none) :
    (Session.run rs ⟨⟨true, .lazyWith h ref core own⟩, [], w⟩).2.world.cells.made ref = none := by
  have hinv : ∀ (past : List (Request E F)) (r : Request E F) (s : Session E F),
      r.call.idle core = true →
      (s.first = ⟨true, .lazyWith h ref core own⟩ ∧ s.derived = [] ∧
        s.world.cells.made ref = none) →
      (step r s).2.first = ⟨true, .lazyWith h ref core own⟩ ∧ (step r s).2.derived = [] ∧
        (step r s).2.world.cells.made ref = none := by
    rintro _ r ⟨first, derived, w⟩ hidle ⟨rfl, rfl, hnone⟩
    have hcall := @CoreCall.idle_made E F true _ _ h ref core own _ hidle _ hnone
    exact ⟨rfl, congrArg Option.toList hcall.1, hcall.2⟩
  exact (runs_invariant hinv hrs [] ⟨rfl, rfl, hnone⟩).2.2

/-- `NewLazyWith` cannot be told from `With`. Whatever a program does with the core and with the
cores that `With` returns for it, the answers, the calls that go outside and the counters are the
same for both; and the lazy core calls `With` at most once, and never if the program only asks for
levels and checks entries that are not enabled. -/
theorem lazyWith_eager {w : World E F} {cores : List (Core E F true)} (h : Reachable w cores)
    {core : Core E F true} (hcore : core ∈ cores) (hhook : core.Hookless) (fields : List F)
    (rs : List (Request E F)) :
    let lazily := newLazyWith core fields w
    let eagerly := core.withFields fields w
    let l := Session.run rs ⟨⟨true, lazily.1⟩, [], lazily.2⟩
    let e := Session.run rs ⟨⟨false, eagerly.1⟩, [], eagerly.2⟩
    l.1 = e.1 ∧ l.2.world.trace = e.2.world.trace ∧ l.2.world.counters = e.2.world.counters ∧
      l.2.world.cells.evaluated.count w.next ≤ 1 ∧
      ((∀ r ∈ rs, r.call.idle core = true) →
        l.2.world.cells.evaluated.count w.next = 0) := by
  intro lazily eagerly l e
  obtain ⟨content, hvalid⟩ := (h.newLazyWith hcore fields).valid
  have hagrees : w.cells.Agrees content := hvalid.agrees
  have hmem := List.mem_cons_of_mem lazily.1 hcore
  obtain ⟨cells, heager, _⟩ :=
    Core.withFields_eq (hvalid.coherent core hmem) (hvalid.below core hmem) hagrees fields
  have hstart : Alike content ⟨⟨true, lazily.1⟩, [], lazily.2⟩
      ⟨⟨false, eagerly.1⟩, [], eagerly.2⟩ := by
    simp only [eagerly, heager]
    exact ⟨twins_lazy (hvalid.coherent _ List.mem_cons_self) hhook, rfl,
      ⟨w.cells, w.next + 1, rfl⟩, hvalid.agrees, hvalid.once⟩
  obtain ⟨hanswers, hend⟩ : l.1 = e.1 ∧ Alike content l.2 e.2 := runs_simulates Alike.step rs hstart
  obtain ⟨_, _, hworld⟩ := hend.world.rest
  have honce : l.2.world.cells.evaluated.count w.next =
      (l.2.world.cells.made w.next).toList.length := hend.world.once w.next
  refine ⟨hanswers, ?_, ?_, ?_, fun hidle => ?_⟩
  · rw [hworld]
    rfl
  · rw [hworld]
    rfl
  · rw [honce]
    cases l.2.world.cells.made w.next with
    | none => exact Nat.zero_le 1
    | some core => exact Nat.le_refl 1
  · obtain ⟨_, hstart⟩ := h.valid
    have hnone : l.2.world.cells.made w.next = none :=
      Session.run_idle hidle (hstart.fresh w.next (Nat.le_refl _))
    rw [honce, hnone]
    rfl

/-! ## Encoders that may panic -/

variable [Panics E F]

/-- The same as `CoreCall.apply`, for encoders that may panic. -/
def CoreCall.attempt (core : Core E F b) (w : World E F) :
    CoreCall E F → Attempt (World E F) (CoreCall.Answer E F × Option (Core E F false))
  | .enabled l => (some (.enabled (core.enabled l), none), w)
  | .check ent ce fields =>
    (core.check? ent ce.1 w).bind fun ce w =>
      (CheckedEntry.write? ce fields w).bind fun _ w => (some (.checked ce, none), w)
  | .write ent fields =>
    (core.write? ent fields w).bind fun errs w => (some (.errors errs, none), w)
  | .sync => (core.sync? w).bind fun errs w => (some (.errors errs, none), w)
  | .withFields fields =>
    (core.withFields? fields w).bind fun core w => (some (.core, some core), w)

/-- A request, of which only the world is left if it panics. -/
def Session.step? (r : Request E F) (s : Session E F) :
    Attempt (Session E F) (CoreCall.Answer E F) :=
  match r.call.attempt (s.core r.target).2 s.world with
  | (none, world) => (none, { s with world })
  | (some (answer, made), world) =>
    (some answer, { s with derived := s.derived ++ made.toList, world })

/-- The answers to requests, up to one that panics. -/
def Session.run? (rs : List (Request E F)) (s : Session E F) :
    Attempt (Session E F) (List (CoreCall.Answer E F)) :=
  attempts Session.step? rs s

/-- The fields of a call are `fine`, and so is what it checks. -/
def CoreCall.Within (ok : E → Prop) (fine : F → Prop) : CoreCall E F → Prop
  | .enabled _ => True
  | .check _ ce fields => CheckedEntry.Within ok fine ce.1 ∧ ∀ f ∈ fields, fine f
  | .write _ fields => ∀ f ∈ fields, fine f
  | .sync => True
  | .withFields fields => ∀ f ∈ fields, fine f

section

variable {ok : E → Prop} {fine : F → Prop}

theorem CoreCall.attempt_eq {core : Core E F b} {w : World E F} (h : core.Calm ok fine content w)
    {call : CoreCall E F} (hcall : call.Within ok fine) :
    call.attempt core w =
        (some ((call.apply core w).answer, (call.apply core w).made), (call.apply core w).world) ∧
      (call.apply core w).world.cells.Sound content ∧
      ∀ made, (call.apply core w).made = some made →
        made.Calm ok fine content (call.apply core w).world := by
  cases call with
  | enabled l => exact ⟨rfl, h.sound, fun made h => by cases h⟩
  | check ent ce fields =>
    obtain ⟨hcheck, hce⟩ := core.check?_tracks ent ce.1 rfl
    have hce := hce h hcall.1
    have hout : Outward content 0 (core.check ent ce.1 w).2
        (CheckedEntry.write (core.check ent ce.1 w).1 fields (core.check ent ce.1 w).2) :=
      CheckedEntry.write_outward hce.kinds fields _
    refine ⟨?_, hout.cells.sound (h.check ent ce.1), fun made h => by cases h⟩
    simp only [attempt, hcheck.eq h, Attempt.of, Attempt.bind,
      (CheckedEntry.write?_tracks hce.kinds fields rfl).eq ⟨h.steady, hce, hcall.2⟩]
    rfl
  | write ent fields =>
    refine ⟨?_, h.write ent fields, fun made h => by cases h⟩
    simp only [attempt, (core.write?_tracks ent fields w).eq ⟨h, hcall⟩]
    rfl
  | sync =>
    refine ⟨?_, h.sync, fun made h => by cases h⟩
    simp only [attempt, (core.sync?_tracks w).eq h]
    rfl
  | withFields fields =>
    refine ⟨?_, h.withFields fields, fun made hmade => ?_⟩
    · simp only [attempt, (core.withFields?_tracks fields rfl).eq ⟨h, hcall⟩]
      rfl
    · cases hmade
      exact h.made hcall

/-- A session in which nothing panics. -/
structure Session.Calm (ok : E → Prop) (fine : F → Prop) (content : Nat → Core E F false)
    (s : Session E F) : Prop where
  first : s.first.2.Calm ok fine content s.world
  derived : ∀ core ∈ s.derived, core.Calm ok fine content s.world

omit [Environment E F] in
theorem Session.Calm.core {s : Session E F} (h : s.Calm ok fine content) (target : Nat) :
    (s.core target).2.Calm ok fine content s.world := by
  unfold Session.core
  cases hcore : s.derived[target]? with
  | none => exact h.first
  | some core => exact h.derived core (List.mem_of_getElem? hcore)

/-- A session whose fields are `fine` is answered as if encoders could not panic. -/
theorem Session.run?_eq {s : Session E F} (h : s.Calm ok fine content) {rs : List (Request E F)}
    (hrs : ∀ r ∈ rs, r.call.Within ok fine) : Session.run? rs s = .of (Session.run rs s) := by
  refine attempts_eq (fun r s hr h => ?_) hrs h
  obtain ⟨hcall, hsound, hmade⟩ := CoreCall.attempt_eq (h.core r.target) hr
  refine ⟨?_, h.first.move hsound, fun core hcore => ?_⟩
  · simp only [Session.step?, hcall]
    rfl
  · rcases List.mem_append.mp hcore with hcore | hcore
    · exact (h.derived core hcore).move hsound
    · exact hmade core (Option.mem_toList.mp hcore)

end

/-- `NewLazyWith` cannot be told from `With` where no encoder panics. Let the leaves of the core have
encoders that do not panic on the fields of its lazy cores, on those of `NewLazyWith` and on those of
the session. Then `With` returns, and whatever a program does with the core and with the cores that
`With` returns for it, all calls return for both, and the answers, the calls that go outside and the
counters are the same; and the lazy core calls `With` at most once, and never if the program only
asks for levels and checks entries that are not enabled. -/
theorem lazyWith_steady {w : World E F} {cores : List (Core E F true)} (h : Reachable w cores)
    {core : Core E F true} (hcore : core ∈ cores) (hhook : core.Hookless) {ok : E → Prop}
    {fine : F → Prop} (hsteady : Steady ok fine) (hin : core.Within ok fine) (fields : List F)
    (hfields : ∀ f ∈ fields, fine f) (rs : List (Request E F))
    (hrs : ∀ r ∈ rs, r.call.Within ok fine) :
    let lazily := newLazyWith core fields w
    ∃ eager w₁ answers l e, core.withFields? fields w = (some eager, w₁) ∧
      Session.run? rs ⟨⟨true, lazily.1⟩, [], lazily.2⟩ = (some answers, l) ∧
      Session.run? rs ⟨⟨false, eager⟩, [], w₁⟩ = (some answers, e) ∧
      l.world.trace = e.world.trace ∧ l.world.counters = e.world.counters ∧
      l.world.cells.evaluated.count w.next ≤ 1 ∧
      ((∀ r ∈ rs, r.call.idle core = true) → l.world.cells.evaluated.count w.next = 0) := by
  intro lazily
  obtain ⟨content, hvalid⟩ := (h.newLazyWith hcore fields).valid
  have hcalm : core.Calm ok fine content w :=
    (Core.Calm.of_valid hvalid hsteady (List.mem_cons_of_mem lazily.1 hcore) hin).move
      ⟨hvalid.agrees, hvalid.once⟩
  have hl : Session.Calm ok fine content ⟨⟨true, lazily.1⟩, [], lazily.2⟩ :=
    ⟨.of_valid hvalid hsteady List.mem_cons_self ⟨hfields, hin⟩, List.forall_mem_nil _⟩
  have he : Session.Calm ok fine content
      ⟨⟨false, (core.withFields fields w).1⟩, [], (core.withFields fields w).2⟩ :=
    ⟨hcalm.made hfields, List.forall_mem_nil _⟩
  obtain ⟨hanswers, hrest⟩ := lazyWith_eager h hcore hhook fields rs
  refine ⟨_, _, _, _, _, (core.withFields?_tracks fields rfl).eq ⟨hcalm, hfields⟩,
    Session.run?_eq hl hrs, ?_, hrest⟩
  rw [Session.run?_eq he hrs]
  exact Prod.ext (congrArg some hanswers.symm) rfl

end

theorem lazyWith_steady_leaf :
    let _ : Host := ⟨Location.utc⟩
    let _ := Environment.reliable (Option JsonEncoder) Field
    let leaf : Core (Option JsonEncoder) Field true := .io (jsonLeaf Level.info 0)
    let own : List Field := [⟨utf8 "k", .bool, 1, [], .nil⟩]
    let rs : List (Request (Option JsonEncoder) Field) :=
      [⟨0, .withFields own⟩, ⟨0, .check greeting ⟨none, nofun⟩ own⟩, ⟨1, .sync⟩]
    let lazily := newLazyWith leaf own .start
    Reachable World.start [leaf] ∧ leaf.Hookless ∧
      ∃ eager w₁ answers l e, leaf.withFields? own .start = (some eager, w₁) ∧
        Session.run? rs ⟨⟨true, lazily.1⟩, [], lazily.2⟩ = (some answers, l) ∧
        Session.run? rs ⟨⟨false, eager⟩, [], w₁⟩ = (some answers, e) ∧
        l.world.trace = e.world.trace := by
  intro _ _ leaf own rs lazily
  have hleaf : Reachable World.start [leaf] := Reachable.start.newCore _ _ _
  have hown : ∀ f ∈ own, f.Fine := List.forall_mem_singleton.mpr fun _ => rfl
  have hrs : ∀ r ∈ rs, r.call.Within (fun enc : Option JsonEncoder => ∃ e, enc = some e ∧
      (e.cfg.callerKey ≠ [] → e.cfg.encodeCaller ≠ none)) Field.Fine :=
    List.forall_mem_cons.mpr ⟨hown, List.forall_mem_cons.mpr
      ⟨⟨.none, hown⟩, List.forall_mem_singleton.mpr trivial⟩⟩
  obtain ⟨eager, w₁, answers, l, e, hwith, hl, he, htrace, _⟩ :=
    lazyWith_steady hleaf List.mem_cons_self trivial steady_json
      ⟨newJSONEncoder newProductionEncoderConfig false, rfl, fun _ => nofun⟩ own hown rs hrs
  exact ⟨hleaf, trivial, eager, w₁, answers, l, e, hwith, hl, he, htrace⟩

/-- On fields that panic, `With` panics. `NewLazyWith` does not, nor does `Enabled`; the first `Check`
panics, and leaves a lazy core whose `Once` is done and that has made no core, so that the next `Check`
panics too. -/
theorem lazyWith_panics_later :
    let _ : Host := ⟨Location.utc⟩
    let _ := Environment.reliable (Option JsonEncoder) Field
    let leaf : Core (Option JsonEncoder) Field true := .io (jsonLeaf Level.info 0)
    let w : World (Option JsonEncoder) Field := .start
    let lazily := newLazyWith leaf [nilArray] w
    let asked := Session.run? [⟨0, .enabled Level.info⟩] ⟨⟨true, lazily.1⟩, [], lazily.2⟩
    let checked := lazily.1.check? greeting none lazily.2
    Reachable w [leaf] ∧ leaf.Hookless ∧ leaf.withFields? [nilArray] w = (none, w) ∧
      asked.1 = some [.enabled true] ∧ checked.1 = none ∧ checked.2.cells.made 0 = none ∧
      checked.2.cells.evaluated = [0] ∧ (lazily.1.check? greeting none checked.2).1 = none := by
  intro _ _ leaf w lazily asked checked
  have hleaf : Reachable w [leaf] := Reachable.start.newCore _ _ _
  exact ⟨hleaf, trivial, rfl, rfl, rfl, rfl, rfl, rfl⟩

end Zap.Zapcore
