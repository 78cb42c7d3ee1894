import Zap.Laws.IoCore
import Zap.Laws.Unwinding

/-!
# Delivery

In every state of a program, `Check` on a core and `Write` on the result call `Write` of exactly
the leaves that the entry passes to, from left to right, whatever destinations and hooks return. An
encoder that panics ends this: the leaf is the last one that is written to (`delivered_until_panic`).

Hooks are another matter. They are called if `Check` gets to them and there is a `CheckedEntry` by
then, which a leaf in front of them may have made. `hooks_called_iff` says when this is the same
as the wrapped core having registered. It is about `Zap.Zapcore.Core`, where encoders return, if need
be an error.
-/

set_option autoImplicit false

namespace Zap.Zapcore

open Data

variable {E F : Type}

/-- A leaf with the fields that lazy cores add. -/
def Leaf.withContexts [Encoder E F] (l : Leaf E F) : IoCore E :=
  l.contexts.foldl IoCore.withFields l.core

section

variable [Encoder E F] [Environment E F]

omit [Environment E F] in
/-- `Check` calls no leaf and no hook: a sampler's decision is not among the calls that are listed. -/
theorem Checked.calls {content : Nat → Core E F false} {n : Nat} {ent : Entry}
    {ce : Option (CheckedEntry E F)} {w : World E F} {s : Survey E F}
    {r : Option (CheckedEntry E F) × World E F} (h : Checked content n ent ce w s r) :
    writesOf r.2.trace = writesOf w.trace ∧ outputsOf r.2.trace = outputsOf w.trace ∧
      hookCallsOf r.2.trace = hookCallsOf w.trace := by
  obtain ⟨ds, htrace, hds⟩ := h.trace
  have hquiet : writesOf ds = [] ∧ outputsOf ds = [] ∧ hookCallsOf ds = [] := by
    clear * - hds
    induction ds with
    | nil => exact ⟨rfl, rfl, rfl⟩
    | cons e ds ih =>
      obtain ⟨he, hrest⟩ := List.forall_mem_cons.mp hds
      cases e with
      | decision hook ent d => exact ih hrest
      | _ => cases he
  obtain ⟨hw, ho, hh⟩ := hquiet
  refine ⟨?_, ?_, ?_⟩
  · rw [htrace, writesOf, List.filterMap_append]
    exact (congrArg (writesOf w.trace ++ ·) hw).trans (List.append_nil _)
  · rw [htrace, outputsOf, List.filterMap_append]
    exact (congrArg (outputsOf w.trace ++ ·) ho).trans (List.append_nil _)
  · rw [htrace, hookCallsOf, List.filterMap_append]
    exact (congrArg (hookCallsOf w.trace ++ ·) hh).trans (List.append_nil _)

/-- The hooks that `Check` on a core and `Write` on the result call. -/
theorem check_write_hooks {w : World E F} {cores : List (Core E F true)} (h : Reachable w cores)
    {core : Core E F true} (hcore : core ∈ cores) (ent : Entry) (fields : List F) :
    let s := core.survey ent .start false w.counters
    let r := core.check ent none w
    let w' := CheckedEntry.write r.1 fields r.2
    hookCallsOf w'.trace =
        hookCallsOf w.trace ++ s.registering.flatMap (fun funcs => funcs.map fun f => (f, ent)) ∧
      r.2.hookChecks = w.hookChecks ++ s.checks := by
  intro s r w'
  obtain ⟨content, hvalid⟩ := h.valid
  have hcheck := Core.surveyed ent (hvalid.coherent core hcore) (hvalid.below core hcore) none w
    hvalid.agrees
  obtain ⟨regs, hregs, _, hhooks⟩ := hcheck.registers
  have hcalls := hregs.write fields r.2
  rw [hhooks] at hcalls
  exact ⟨hcheck.calls.2.2 ▸ hcalls.hooks, hcheck.hookChecks⟩

variable [Panics E F]

/-- Exact delivery: in every state of a program, `Check` on a core and `Write` on the result call
`Write` once on each leaf that the entry passes to, from left to right, and on no other leaf; but an
encoder that panics ends that, and nothing is written to the leaves behind it. Each leaf emits the
entry with the fields that were added to it followed by those of the call. `Check` itself returns if
no encoder panics on the fields of lazy cores. -/
theorem delivered_until_panic {w : World E F} {cores : List (Core E F true)} (h : Reachable w cores)
    {core : Core E F true} (hcore : core ∈ cores) (ent : Entry) (fields : List F) :
    let leaves := (core.survey ent .start false w.counters).leaves.filter Leaf.passes
    let panics := fun l : Leaf E F => Panics.encodeEntry l.withContexts.enc ent fields
    (∀ ok fine, Steady ok fine → core.Within ok fine → (core.check? ent none w).1.isSome) ∧
      ∀ ce w₁, core.check? ent none w = (some ce, w₁) →
        let o := CheckedEntry.write? ce fields w₁
        writesOf o.2.trace = writesOf w.trace ++
            (leaves.take (leaves.findIdx panics + 1)).map (fun l => (l.withContexts, ent, fields)) ∧
          outputsOf o.2.trace = outputsOf w.trace ++
            (leaves.take (leaves.findIdx panics)).filterMap
              (fun l => l.withContexts.emitted ent fields) ∧
          (o.1.isSome ↔ ∀ l ∈ leaves, panics l = false) ∧
          ((∀ l ∈ leaves, panics l = false) →
            writesOf o.2.trace =
                writesOf w.trace ++ leaves.map (fun l => (l.withContexts, ent, fields)) ∧
              outputsOf o.2.trace = outputsOf w.trace ++
                leaves.filterMap fun l => l.withContexts.emitted ent fields) ∧
          (LawfulEncoder E F → ∀ l ∈ leaves, l.withContexts.emitted ent fields =
            l.core.emitted ent (l.contexts.flatten ++ fields)) := by
  intro leaves panics
  obtain ⟨content, hvalid⟩ := h.valid
  refine ⟨fun ok fine hsteady hin => ?_, fun ce w₁ hret => ?_⟩
  · rw [(core.check?_tracks ent none rfl).1.eq (.of_valid hvalid hsteady hcore hin)]
    rfl
  · intro o
    have hchecked := Core.surveyed ent (hvalid.coherent core hcore) (hvalid.below core hcore) none w
      hvalid.agrees
    rw [Core.check?_returned hret] at hchecked
    obtain ⟨regs, hregs, hleaf, _⟩ := hchecked.registers
    obtain ⟨hwrites, houtputs, _⟩ := hchecked.calls
    have hdelivers := hregs.write? fields w₁
    have hdelivered : regs.filterMap Kind.toLeaf = leaves.map Leaf.withContexts := hleaf
    rw [hdelivered] at hdelivers
    have hw := hdelivers.writes
    have ho := hdelivers.outputs
    have hr := hdelivers.returns
    rw [hwrites, List.findIdx_map, ← List.map_take, List.map_map] at hw
    rw [houtputs, List.findIdx_map, ← List.map_take, List.filterMap_map] at ho
    rw [List.forall_mem_map] at hr
    refine ⟨hw, ho, hr, fun hnone => ?_, fun _ l _ => emitted_withFields l.core ent l.contexts fields⟩
    have hall : leaves.findIdx panics = leaves.length := List.findIdx_eq_length.mpr hnone
    constructor
    · rw [← List.take_of_length_le (Nat.le_succ_of_le (Nat.le_of_eq hall.symm)) (l := leaves)]
      exact hw
    · rw [← List.take_of_length_le (Nat.le_of_eq hall.symm) (l := leaves)]
      exact ho

end

theorem delivered_until_panic_lazily :
    let _ : Host := ⟨Location.utc⟩
    let _ := Environment.reliable (Option JsonEncoder) Field
    let own : List Field := [⟨utf8 "k", .bool, 1, [], .nil⟩]
    let low : Core (Option JsonEncoder) Field true := .io (jsonLeaf Level.info 0)
    let high : Core (Option JsonEncoder) Field true := .io (jsonLeaf Level.error 1)
    let tee : Core (Option JsonEncoder) Field true := .multi [.lazyWith rfl 0 low own, high]
    let w : World (Option JsonEncoder) Field := (newLazyWith low own .start).2
    Reachable w [tee, .lazyWith rfl 0 low own, high, low] ∧
      ∃ ce w₁, tee.check? greeting none w = (some ce, w₁) ∧
        writesOf (CheckedEntry.write? ce [nilArray] w₁).2.trace =
          [((jsonLeaf Level.info 0).withFields own, greeting, [nilArray])] := by
  intro _ _ own low high tee w
  have hleaves : Reachable World.start [high, low] := (Reachable.start.newCore _ _ _).newCore _ _ _
  have hlazy := hleaves.newLazyWith (List.mem_cons_of_mem _ (List.mem_cons_self)) own
  have htee : Reachable w [tee, .lazyWith rfl 0 low own, high, low] :=
    hlazy.newTee (List.cons_subset_cons _ (List.cons_subset.mpr ⟨List.mem_cons_self, List.nil_subset _⟩))
  obtain ⟨ce, hce⟩ := Option.isSome_iff_exists.mp
    (show (tee.check? greeting none w).1.isSome from rfl)
  have hcheck : tee.check? greeting none w = (some ce, (tee.check? greeting none w).2) :=
    Prod.ext hce rfl
  exact ⟨htee, ce, _, hcheck,
    ((delivered_until_panic htee List.mem_cons_self greeting [nilArray]).2 ce _ hcheck).1⟩

/-- Both leaves of a tee are to be written to, but the encoder of the first one panics. -/
theorem delivered_not_behind_panic :
    let _ : Host := ⟨Location.utc⟩
    let _ := Environment.reliable (Option JsonEncoder) Field
    let leaf (out : Nat) : Core (Option JsonEncoder) Field true := .io (jsonLeaf Level.info out)
    let tee : Core (Option JsonEncoder) Field true := .multi [leaf 0, leaf 1]
    let w : World (Option JsonEncoder) Field := .start
    Reachable w [tee, leaf 1, leaf 0] ∧
      ((tee.survey greeting .start false w.counters).leaves.filter Leaf.passes).map
          Leaf.withContexts = [jsonLeaf Level.info 0, jsonLeaf Level.info 1] ∧
      ∃ ce w₁, tee.check? greeting none w = (some ce, w₁) ∧
        (CheckedEntry.write? ce [nilArray] w₁).1 = none ∧
        writesOf (CheckedEntry.write? ce [nilArray] w₁).2.trace =
          [(jsonLeaf Level.info 0, greeting, [nilArray])] := by
  intro _ _ leaf tee w
  have hleaves : Reachable w [leaf 1, leaf 0] := (Reachable.start.newCore _ _ _).newCore _ _ _
  have htee : Reachable w [tee, leaf 1, leaf 0] :=
    hleaves.newTee (List.cons_subset.mpr ⟨List.mem_cons_of_mem _ List.mem_cons_self,
      List.cons_subset.mpr ⟨List.mem_cons_self, List.nil_subset _⟩⟩)
  have hwrite : ∀ (cores : List ((b : Bool) × Core (Option JsonEncoder) Field b)) w,
      CheckedEntry.writeCores? greeting [nilArray] (⟨true, leaf 0⟩ :: cores) w =
        (none, w.emit (.write (jsonLeaf Level.info 0) greeting [nilArray])) := by
    intro cores w
    have hpanics := jsonLeaf_encodeEntry_panics Level.info 0 greeting
    simp only [CheckedEntry.writeCores?, leaf, Core.write?_io, IoCore.write?, hpanics, ↓reduceIte]
    rfl
  refine ⟨htee, rfl, some ⟨greeting, none, false, none, [⟨true, leaf 0⟩, ⟨true, leaf 1⟩], []⟩, w,
    rfl, ?_, ?_⟩
  · simp only [CheckedEntry.write?, List.foldl_nil, hwrite]
    rfl
  · simp only [CheckedEntry.write?, List.foldl_nil, hwrite]
    rfl

/-! ## Hooks -/

section

variable [Encoder E F] [Environment E F]

/-- Selecting more than before gives the same pieces only if what is new has none. -/
theorem flatMap_filter_eq_iff {α β : Type} {p q : α → Bool}
    (h : ∀ x, q x = true → p x = true) (g : α → List β) (l : List α) :
    (l.filter p).flatMap g = (l.filter q).flatMap g ↔
      ∀ x ∈ l, p x = true → q x = true ∨ g x = [] := by
  induction l with
  | nil => exact ⟨nofun, fun _ => rfl⟩
  | cons x l ih =>
    have hle := ((List.monotone_filter_right l h).flatMap g).length_le
    rw [List.forall_mem_cons, ← ih]
    cases hq : q x with
    | true =>
      simp only [List.filter_cons, hq, h x hq, ↓reduceIte, List.flatMap_cons, true_or, implies_true,
        true_and, List.append_cancel_left_eq]
    | false =>
      cases hp : p x with
      | false => simp only [List.filter_cons, hq, hp, Bool.false_eq_true, ↓reduceIte,
          IsEmpty.forall_iff, true_and]
      | true =>
        simp only [List.filter_cons, hq, hp, ↓reduceIte, Bool.false_eq_true, List.flatMap_cons,
          false_or, forall_const]
        constructor
        · intro heq
          have hlength := congrArg List.length heq
          rw [List.length_append] at hlength
          have hnil : g x = [] := List.eq_nil_of_length_eq_zero (by omega)
          exact ⟨hnil, by rwa [hnil, List.nil_append] at heq⟩
        · rintro ⟨hnil, heq⟩
          rw [hnil, List.nil_append, heq]

/-- Hooks fire as the core they wrap logs, under a condition. In every state of a program, the
hooks that `Check` and `Write` call are those of the calls of `hooked.Check` in which the wrapped
core registered if and only if this holds: wherever `Check` gets to hooks after a leaf in front of
them has registered, there is a leaf inside that the entry passes to, or other hooks inside that
are called. -/
theorem hooks_called_iff {w : World E F} {cores : List (Core E F true)} (h : Reachable w cores)
    {core : Core E F true} (hcore : core ∈ cores) (ent : Entry) (fields : List F) :
    let r := core.check ent none w
    let w' := CheckedEntry.write r.1 fields r.2
    let registered := (r.2.hookChecks.drop w.hookChecks.length).filter Prod.snd
    hookCallsOf w'.trace =
        hookCallsOf w.trace ++ registered.flatMap (fun c => c.1.map fun f => (f, ent)) ↔
      ∀ v ∈ (core.survey ent .start false w.counters).hooks, v.reached = true → v.before = true →
        v.leafInside = true ∨ v.hookInside = true ∨ v.funcs = [] := by
  intro r w' registered
  obtain ⟨hcalls, hchecks⟩ := check_write_hooks h hcore ent fields
  have hreg : registered = (core.survey ent .start false w.counters).checks.filter Prod.snd := by
    simp only [registered, r, hchecks, List.drop_left]
  rw [hcalls, List.append_cancel_left_eq, hreg, Survey.registering, Survey.checks,
    List.flatMap_map, List.filter_map, List.filter_filter, List.flatMap_map]
  rw [flatMap_filter_eq_iff]
  · refine forall₂_congr fun v _ => ?_
    simp only [Function.comp, Bool.and_eq_true, Bool.or_eq_true, List.map_eq_nil_iff]
    cases v.reached <;> cases v.before <;> cases v.leafInside <;> simp
  · intro v
    simp only [Function.comp, Bool.and_eq_true, Bool.or_eq_true]
    rintro ⟨hleaf | ⟨hbefore, -⟩, hreached⟩
    · exact ⟨hreached, .inr hleaf⟩
    · exact ⟨hreached, .inl hbefore⟩

end

theorem hooks_called_iff_inside :
    let _ : Host := ⟨Location.utc⟩
    let _ := Environment.reliable (Option JsonEncoder) Field
    let leaf : Core (Option JsonEncoder) Field true := .io (jsonLeaf Level.info 0)
    let tee : Core (Option JsonEncoder) Field true := .multi [leaf, .hooked leaf [7]]
    let r := tee.check greeting none .start
    Reachable World.start [tee, .hooked leaf [7], leaf] ∧
      hookCallsOf (CheckedEntry.write r.1 [] r.2).trace = [(7, greeting)] := by
  intro _ _ leaf tee r
  have hleaf : Reachable World.start [leaf] := Reachable.start.newCore _ _ _
  have hhooked := hleaf.registerHooks List.mem_cons_self [7]
  have htee : Reachable World.start [tee, .hooked leaf [7], leaf] :=
    hhooked.newTee (List.cons_subset.mpr ⟨List.mem_cons_of_mem _ List.mem_cons_self,
      List.cons_subset_cons _ (List.nil_subset _)⟩)
  refine ⟨htee, (hooks_called_iff htee List.mem_cons_self greeting []).mpr ?_⟩
  exact List.forall_mem_singleton.mpr fun _ _ => .inl rfl

/-- The hooks of a core that logs nothing fire if a leaf in front of them has registered. -/
theorem hooks_called_without_core :
    let _ : Host := ⟨Location.utc⟩
    let _ := Environment.reliable (Option JsonEncoder) Field
    let leaf : Core (Option JsonEncoder) Field true := .io (jsonLeaf Level.info 0)
    let tee : Core (Option JsonEncoder) Field true := .multi [leaf, .hooked .nop [7]]
    let r := tee.check greeting none .start
    Reachable World.start [tee, .hooked .nop [7], .nop, leaf] ∧
      r.2.hookChecks = [([7], false)] ∧
      hookCallsOf (CheckedEntry.write r.1 [] r.2).trace = [(7, greeting)] := by
  intro _ _ leaf tee r
  have hleaf : Reachable World.start [leaf] := Reachable.start.newCore _ _ _
  have hhooked := hleaf.newNopCore.registerHooks List.mem_cons_self [7]
  have htee : Reachable World.start [tee, .hooked .nop [7], .nop, leaf] :=
    hhooked.newTee (List.cons_subset.mpr
      ⟨List.mem_cons_of_mem _ (List.mem_cons_of_mem _ List.mem_cons_self),
        List.cons_subset_cons _ (List.nil_subset _)⟩)
  obtain ⟨hcalls, hchecks⟩ := check_write_hooks htee List.mem_cons_self greeting []
  exact ⟨htee, hchecks, hcalls⟩

end Zap.Zapcore
