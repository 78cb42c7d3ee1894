import Zap.Zapcore.Core

/-!
# What the operations on cores do

Equations for each operation and each kind of core, which hold whether or not there are lazy
cores, and an induction principle that goes along a tee one core at a time. The proofs about
cores use these, and not the definitions with their parameter `down`.

A lazy core is a cell that holds nothing or the core that `With` made. `made` is that core,
without any cell. `Coherent` says that the cells of a core are consistent, and `withFields_eq`
that `With` then returns `made` and fills cells.
-/

set_option autoImplicit false

namespace Zap.Zapcore

open Data

variable {E F : Type} {b : Bool}

namespace Core

/-! ## Induction -/

/-- Induction over a core, where a tee is taken apart one core at a time. -/
@[elab_as_elim, induction_eliminator]
theorem induct {motive : Core E F b → Prop} (nop : motive .nop) (io : ∀ core, motive (.io core))
    (nil : motive (.multi []))
    (cons : ∀ core cores, motive core → motive (.multi cores) → motive (.multi (core :: cores)))
    (hooked : ∀ core funcs, motive core → motive (.hooked core funcs))
    (levelFilter : ∀ core level, motive core → motive (.levelFilter core level))
    (sampler : ∀ core s, motive core → motive (.sampler core s))
    (lazyWith : ∀ h ref original fields, motive original →
      motive (.lazyWith h ref original fields)) (core : Core E F b) : motive core :=
  @Core.rec E F b motive (fun cores => motive (.multi cores)) nop io (fun _ h => h) hooked
    levelFilter sampler lazyWith nil cons core

/-! ## `Enabled` -/

theorem enabled_cons (core : Core E F b) (cores : List (Core E F b)) (l : Level) :
    (multi (core :: cores)).enabled l = (core.enabled l || (multi cores).enabled l) := rfl

/-! ## `With` -/

section

variable [Encoder E F] (fields : List F) (w : World E F)

theorem withFields_nop : (nop : Core E F b).withFields fields w = (.nop, w) := by
  cases b <;> rfl

theorem withFields_io (core : IoCore E) :
    (io core : Core E F b).withFields fields w = (.io (core.withFields fields), w) := by
  cases b <;> rfl

theorem withFields_nil : (multi [] : Core E F b).withFields fields w = (.multi [], w) := by
  cases b <;> rfl

variable {fields w} in
theorem withFields_cons {core : Core E F b} {cores : List (Core E F b)} {core' : Core E F false}
    {cores' : List (Core E F false)} {w₁ w₂ : World E F}
    (h : core.withFields fields w = (core', w₁))
    (hs : (multi cores).withFields fields w₁ = (.multi cores', w₂)) :
    (multi (core :: cores)).withFields fields w = (.multi (core' :: cores'), w₂) := by
  cases b with
  | false =>
    simp only [withFields, withUsing, Prod.mk.injEq, multi.injEq] at h hs
    simp only [withFields, withUsing, withAll, h, hs]
  | true =>
    simp only [withFields, withUsing, Prod.mk.injEq, multi.injEq] at h hs
    simp only [withFields, withUsing, withAll, h, hs]

theorem withFields_hooked (core : Core E F b) (funcs : List Nat) :
    (hooked core funcs).withFields fields w =
      (.hooked (core.withFields fields w).1 funcs, (core.withFields fields w).2) := by
  cases b <;> rfl

theorem withFields_levelFilter (core : Core E F b) (level : LevelEnabler) :
    (levelFilter core level).withFields fields w =
      (.levelFilter (core.withFields fields w).1 level, (core.withFields fields w).2) := by
  cases b <;> rfl

theorem withFields_sampler (core : Core E F b) (s : Sampler) :
    (sampler core s).withFields fields w =
      (.sampler (core.withFields fields w).1 s, (core.withFields fields w).2) := by
  cases b <;> rfl

theorem withFields_lazyWith (h : b = true) (ref : Nat) (original : Core E F b) (own : List F) :
    (lazyWith h ref original own).withFields fields w =
      (initOnce ref original own w).1.withFields fields (initOnce ref original own w).2 := by
  subst h
  simp only [withFields, withUsing, initOnce]
  split <;> rfl

end

/-! ## `Check` -/

section

variable [Encoder E F] (ent : Entry) (ce : Option (CheckedEntry E F)) (w : World E F)

theorem check_nop : (nop : Core E F b).check ent ce w = (ce, w) := by
  cases b <;> rfl

theorem check_io (core : IoCore E) :
    (io core : Core E F b).check ent ce w =
      if core.level.enabled ent.level then
        (some (CheckedEntry.addCore (b := b) ce ent (.io core)), w)
      else (ce, w) := by
  cases b <;> rfl

theorem check_nil : (multi [] : Core E F b).check ent ce w = (ce, w) := by
  cases b <;> rfl

theorem check_cons (core : Core E F b) (cores : List (Core E F b)) :
    (multi (core :: cores)).check ent ce w =
      (multi cores).check ent (core.check ent ce w).1 (core.check ent ce w).2 := by
  cases b <;> rfl

theorem check_levelFilter (core : Core E F b) (level : LevelEnabler) :
    (levelFilter core level).check ent ce w =
      if !level.enabled ent.level then (ce, w) else core.check ent ce w := by
  cases b <;> rfl

theorem check_sampler (core : Core E F b) (s : Sampler) :
    (sampler core s).check ent ce w =
      checkSampled s (core.enabled ent.level) ent (core.check ent ce) ce w := by
  cases b <;> rfl

theorem check_lazyWith (h : b = true) (ref : Nat) (original : Core E F b) (own : List F) :
    (lazyWith h ref original own).check ent ce w =
      if !original.enabled ent.level then (ce, w)
      else (initOnce ref original own w).1.check ent ce (initOnce ref original own w).2 := by
  subst h
  rfl

theorem check_hooked (core : Core E F b) (funcs : List Nat) :
    (hooked core funcs).check ent ce w =
      ((core.check ent ce w).1.elim ce fun downstream =>
          some (CheckedEntry.addCore downstream ent (.hooked core funcs)),
        (core.check ent ce w).2.hookChecked funcs ce (core.check ent ce w).1) := by
  cases b with
  | false =>
    simp only [check, checkUsing]
    rcases checkUsing (fun _ _ ce w => (ce, w)) core ent ce w with ⟨_ | downstream, w'⟩
    · rfl
    · rfl
  | true =>
    simp only [check, checkUsing]
    rcases checkUsing (checkUsing fun _ _ ce w => (ce, w)) core ent ce w with ⟨_ | downstream, w'⟩
    · rfl
    · rfl

end

/-! ## `Write` and `Sync` -/

section

variable [Encoder E F] [Environment E F] (ent : Entry) (fields : List F) (w : World E F)

theorem write_nop : (nop : Core E F b).write ent fields w = ([], w) := by
  cases b <;> rfl

theorem write_io (core : IoCore E) :
    (io core : Core E F b).write ent fields w = core.write ent fields w := by
  cases b <;> rfl

theorem write_nil : (multi [] : Core E F b).write ent fields w = ([], w) := by
  cases b <;> rfl

theorem write_cons (core : Core E F b) (cores : List (Core E F b)) :
    (multi (core :: cores)).write ent fields w =
      ((core.write ent fields w).1 ++
          ((multi cores).write ent fields (core.write ent fields w).2).1,
        ((multi cores).write ent fields (core.write ent fields w).2).2) := by
  cases b <;> rfl

theorem write_hooked (core : Core E F b) (funcs : List Nat) :
    (hooked core funcs).write ent fields w = w.runHooks ent funcs := by
  cases b <;> rfl

theorem write_levelFilter (core : Core E F b) (level : LevelEnabler) :
    (levelFilter core level).write ent fields w = core.write ent fields w := by
  cases b <;> rfl

theorem write_sampler (core : Core E F b) (s : Sampler) :
    (sampler core s).write ent fields w = core.write ent fields w := by
  cases b <;> rfl

theorem write_lazyWith (h : b = true) (ref : Nat) (original : Core E F b) (own : List F) :
    (lazyWith h ref original own).write ent fields w =
      (initOnce ref original own w).1.write ent fields (initOnce ref original own w).2 := by
  subst h
  rfl

theorem sync_nop : (nop : Core E F b).sync w = ([], w) := by
  cases b <;> rfl

theorem sync_io (core : IoCore E) : (io core : Core E F b).sync w = w.sync core.out := by
  cases b <;> rfl

theorem sync_nil : (multi [] : Core E F b).sync w = ([], w) := by
  cases b <;> rfl

theorem sync_cons (core : Core E F b) (cores : List (Core E F b)) :
    (multi (core :: cores)).sync w =
      ((core.sync w).1 ++ ((multi cores).sync (core.sync w).2).1,
        ((multi cores).sync (core.sync w).2).2) := by
  cases b <;> rfl

theorem sync_hooked (core : Core E F b) (funcs : List Nat) :
    (hooked core funcs).sync w = core.sync w := by
  cases b <;> rfl

theorem sync_levelFilter (core : Core E F b) (level : LevelEnabler) :
    (levelFilter core level).sync w = core.sync w := by
  cases b <;> rfl

theorem sync_sampler (core : Core E F b) (s : Sampler) :
    (sampler core s).sync w = core.sync w := by
  cases b <;> rfl

theorem sync_lazyWith (h : b = true) (ref : Nat) (original : Core E F b) (own : List F) :
    (lazyWith h ref original own).sync w =
      (initOnce ref original own w).1.sync (initOnce ref original own w).2 := by
  subst h
  rfl

end

/-! ## The core that `With` makes -/

section

variable [Encoder E F]

mutual
/-- The core that calls of `With` make, one after the other, with no lazy core left in it. -/
def made : Core E F b → List (List F) → Core E F false
  | .nop, _ => .nop
  | .io core, fss => .io (fss.foldl IoCore.withFields core)
  | .multi cores, fss => .multi (madeAll cores fss)
  | .hooked core funcs, fss => .hooked (core.made fss) funcs
  | .levelFilter core level, fss => .levelFilter (core.made fss) level
  | .sampler core s, fss => .sampler (core.made fss) s
  | .lazyWith _ _ original own, fss => original.made (own :: fss)
def madeAll : List (Core E F b) → List (List F) → List (Core E F false)
  | [], _ => []
  | core :: cores, fss => core.made fss :: madeAll cores fss
end

theorem made_cons (core : Core E F b) (cores : List (Core E F b)) (fss : List (List F)) :
    (multi (core :: cores)).made fss = .multi (core.made fss :: madeAll cores fss) := rfl

/-- `With` after `With`. -/
theorem made_made (core : Core E F b) (fss gss : List (List F)) :
    (core.made fss).made gss = core.made (fss ++ gss) := by
  induction core generalizing fss with
  | nop => rfl
  | io core => simp only [made, List.foldl_append]
  | nil => rfl
  | cons core cores ih ihs =>
    have hs := ihs fss
    simp only [made, multi.injEq] at hs
    simp only [made_cons, made, madeAll, ih, hs]
  | hooked core funcs ih => simp only [made, ih]
  | levelFilter core level ih => simp only [made, ih]
  | sampler core s ih => simp only [made, ih]
  | lazyWith h ref original own ih => exact ih (own :: fss)

/-- Fields do not change the level. -/
theorem foldl_level (core : IoCore E) (fss : List (List F)) :
    (fss.foldl IoCore.withFields core).level = core.level := by
  induction fss generalizing core with
  | nil => rfl
  | cons fs fss ih => exact ih (core.withFields fs)

theorem enabled_made (core : Core E F b) (fss : List (List F)) (l : Level) :
    (core.made fss).enabled l = core.enabled l := by
  induction core generalizing fss with
  | nop => rfl
  | io core => simp only [made, enabled, foldl_level]
  | nil => rfl
  | cons core cores ih ihs =>
    rw [made_cons, enabled_cons, enabled_cons, ih, ← ihs fss]
    rfl
  | hooked core funcs ih => exact ih fss
  | levelFilter core level _ => rfl
  | sampler core s ih => exact ih fss
  | lazyWith h ref original own ih => exact ih (own :: fss)

/-- A core without lazy cores makes its copy at once. -/
theorem withFields_eager (core : Core E F false) (fields : List F) (w : World E F) :
    core.withFields fields w = (core.made [fields], w) := by
  induction core with
  | nop => rfl
  | io core => rfl
  | nil => rfl
  | cons core cores ih ihs => exact withFields_cons ih ihs
  | hooked core funcs ih => rw [withFields_hooked, ih]; rfl
  | levelFilter core level ih => rw [withFields_levelFilter, ih]; rfl
  | sampler core s ih => rw [withFields_sampler, ih]; rfl
  | lazyWith h _ _ _ _ => cases h

end

/-! ## References -/

mutual
/-- The references of a core are smaller than `n`. -/
def Below (n : Nat) : Core E F b → Prop
  | .nop => True
  | .io _ => True
  | .multi cores => BelowAll n cores
  | .hooked core _ => core.Below n
  | .levelFilter core _ => core.Below n
  | .sampler core s => s.counts < n ∧ core.Below n
  | .lazyWith _ ref original _ => ref < n ∧ original.Below n
def BelowAll (n : Nat) : List (Core E F b) → Prop
  | [] => True
  | core :: cores => core.Below n ∧ BelowAll n cores
end

theorem below_cons {n : Nat} {core : Core E F b} {cores : List (Core E F b)} :
    (multi (core :: cores)).Below n ↔ core.Below n ∧ (multi cores).Below n := Iff.rfl

theorem Below.mono {n m : Nat} (hnm : n ≤ m) {core : Core E F b} (h : core.Below n) :
    core.Below m := by
  induction core with
  | nop => trivial
  | io core => trivial
  | nil => trivial
  | cons core cores ih ihs => exact ⟨ih (below_cons.mp h).1, ihs (below_cons.mp h).2⟩
  | hooked core funcs ih => exact ih h
  | levelFilter core level ih => exact ih h
  | sampler core s ih => exact ⟨Nat.lt_of_lt_of_le h.1 hnm, ih h.2⟩
  | lazyWith _ ref original own ih => exact ⟨Nat.lt_of_lt_of_le h.1 hnm, ih h.2⟩

theorem Below.made [Encoder E F] {n : Nat} {core : Core E F b} (h : core.Below n)
    (fss : List (List F)) : (core.made fss).Below n := by
  induction core generalizing fss with
  | nop => trivial
  | io core => trivial
  | nil => trivial
  | cons core cores ih ihs => exact ⟨ih (below_cons.mp h).1 fss, ihs (below_cons.mp h).2 fss⟩
  | hooked core funcs ih => exact ih h fss
  | levelFilter core level ih => exact ih h fss
  | sampler core s ih => exact ⟨h.1, ih h.2 fss⟩
  | lazyWith _ ref original own ih => exact ih h.2 (own :: fss)

mutual
/-- The lazy cores in a core are what they were made as: the cell of each is for the core that
its `With` makes, and it was allocated after everything in the core it wraps. -/
def Coherent [Encoder E F] (content : Nat → Core E F false) : Core E F b → Prop
  | .nop => True
  | .io _ => True
  | .multi cores => CoherentAll content cores
  | .hooked core _ => core.Coherent content
  | .levelFilter core _ => core.Coherent content
  | .sampler core _ => core.Coherent content
  | .lazyWith _ ref original own =>
    content ref = original.made [own] ∧ original.Below ref ∧ original.Coherent content
def CoherentAll [Encoder E F] (content : Nat → Core E F false) : List (Core E F b) → Prop
  | [] => True
  | core :: cores => core.Coherent content ∧ CoherentAll content cores
end

theorem coherent_cons [Encoder E F] {content : Nat → Core E F false} {core : Core E F b}
    {cores : List (Core E F b)} :
    (multi (core :: cores)).Coherent content ↔
      core.Coherent content ∧ (multi cores).Coherent content := Iff.rfl

/-- Without lazy cores there is nothing to be consistent. -/
theorem coherent_eager [Encoder E F] (content : Nat → Core E F false) (core : Core E F false) :
    core.Coherent content := by
  induction core with
  | nop => trivial
  | io core => trivial
  | nil => trivial
  | cons core cores ih ihs => exact ⟨ih, ihs⟩
  | hooked core funcs ih => exact ih
  | levelFilter core level ih => exact ih
  | sampler core s ih => exact ih
  | lazyWith h _ _ _ _ => cases h

end Core

/-! ## Cells -/

/-- Cells below `n` were filled, each with what it is for. -/
inductive Fills (content : Nat → Core E F false) (n : Nat) : Cells E F → Cells E F → Prop
  | refl (cells : Cells E F) : Fills content n cells cells
  | fill {cells cells' : Cells E F} (h : Fills content n cells cells') {ref : Nat} (hlt : ref < n)
      (hnone : cells'.made ref = none) : Fills content n cells (cells'.keep ref (content ref))

/-- The cells that are filled are filled with what they are for. -/
def Cells.Agrees (content : Nat → Core E F false) (cells : Cells E F) : Prop :=
  ∀ ref core, cells.made ref = some core → core = content ref

namespace Fills

variable {content : Nat → Core E F false} {n : Nat} {cells cells' cells'' : Cells E F}

theorem trans (h : Fills content n cells cells') (h' : Fills content n cells' cells'') :
    Fills content n cells cells'' := by
  induction h' with
  | refl => exact h
  | fill _ hlt hnone ih => exact .fill ih hlt hnone

theorem mono {m : Nat} (hnm : n ≤ m) (h : Fills content n cells cells') :
    Fills content m cells cells' := by
  induction h with
  | refl => exact .refl cells
  | fill _ hlt hnone ih => exact .fill ih (Nat.lt_of_lt_of_le hlt hnm) hnone

theorem made_of_le (h : Fills content n cells cells') {ref : Nat} (hle : n ≤ ref) :
    cells'.made ref = cells.made ref := by
  induction h with
  | refl => rfl
  | fill _ hlt _ ih =>
    have hne : ref ≠ _ := Nat.ne_of_gt (Nat.lt_of_lt_of_le hlt hle)
    exact (Function.update_of_ne hne _ _).trans ih

theorem agrees (h : Fills content n cells cells') (hagree : cells.Agrees content) :
    cells'.Agrees content := by
  induction h with
  | refl => exact hagree
  | @fill _ _ ref _ _ ih =>
    intro r core hr
    by_cases hne : r = ref
    · subst hne
      simp only [Cells.keep, Function.update_self, Option.some_inj] at hr
      exact hr.symm
    · simp only [Cells.keep, Function.update_of_ne hne] at hr
      exact ih r core hr

end Fills

namespace Core

variable [Encoder E F] {content : Nat → Core E F false} {w : World E F}

/-- `initOnce` gives the core that the cell is for, if `With` of the wrapped core does. -/
theorem initOnce_of {ref : Nat} {original : Core E F b} {own : List F}
    (hcontent : content ref = original.made [own]) (hagree : w.cells.Agrees content)
    (h : ∃ cells, original.withFields own w = (original.made [own], { w with cells }) ∧
      Fills content ref w.cells cells) :
    ∃ cells, initOnce ref original own w = (original.made [own], { w with cells }) ∧
      Fills content (ref + 1) w.cells cells := by
  unfold initOnce
  cases hcell : w.cells.made ref with
  | some core =>
    have hcore := (hagree ref core hcell).trans hcontent
    subst hcore
    exact ⟨w.cells, rfl, .refl _⟩
  | none =>
    obtain ⟨cells, hwith, hfills⟩ := h
    have hnone : cells.made ref = none := (hfills.made_of_le (Nat.le_refl ref)).trans hcell
    refine ⟨_, ?_, .fill (hfills.mono (Nat.le_succ ref)) (Nat.lt_succ_self ref) hnone⟩
    simp only [hwith, hcontent]

/-- `With` returns the core it makes, and fills cells. -/
theorem withFields_eq {core : Core E F b} (hcoh : core.Coherent content) {n : Nat}
    (hbelow : core.Below n) (hagree : w.cells.Agrees content) (fields : List F) :
    ∃ cells, core.withFields fields w = (core.made [fields], { w with cells }) ∧
      Fills content n w.cells cells := by
  induction core generalizing n fields w with
  | nop => exact ⟨w.cells, withFields_nop fields w, .refl _⟩
  | io core => exact ⟨w.cells, withFields_io fields w core, .refl _⟩
  | nil => exact ⟨w.cells, withFields_nil fields w, .refl _⟩
  | cons core cores ih ihs =>
    obtain ⟨hcore, hcores⟩ := coherent_cons.mp hcoh
    obtain ⟨hlt, hlts⟩ := below_cons.mp hbelow
    obtain ⟨cells, hwith, hfills⟩ := ih hcore hlt hagree fields
    obtain ⟨cells', hwiths, hfills'⟩ := @ihs { w with cells } hcores n hlts (hfills.agrees hagree) fields
    exact ⟨cells', withFields_cons hwith hwiths, hfills.trans hfills'⟩
  | hooked core funcs ih =>
    obtain ⟨cells, hwith, hfills⟩ := ih hcoh hbelow hagree fields
    exact ⟨cells, by rw [withFields_hooked, hwith]; rfl, hfills⟩
  | levelFilter core level ih =>
    obtain ⟨cells, hwith, hfills⟩ := ih hcoh hbelow hagree fields
    exact ⟨cells, by rw [withFields_levelFilter, hwith]; rfl, hfills⟩
  | sampler core s ih =>
    obtain ⟨cells, hwith, hfills⟩ := ih hcoh hbelow.2 hagree fields
    exact ⟨cells, by rw [withFields_sampler, hwith]; rfl, hfills⟩
  | lazyWith h ref original own ih =>
    obtain ⟨hcontent, hlt, hcoh⟩ := hcoh
    obtain ⟨cells, hinit, hfills⟩ := initOnce_of hcontent hagree (ih hcoh hlt hagree own)
    refine ⟨cells, ?_, hfills.mono hbelow.1⟩
    rw [withFields_lazyWith, hinit, withFields_eager, made_made]
    rfl

/-- `initOnce` gives the core that the cell is for, and fills cells. -/
theorem initOnce_eq {h : b = true} {ref : Nat} {original : Core E F b} {own : List F}
    (hcoh : (lazyWith h ref original own).Coherent content) (hagree : w.cells.Agrees content) :
    ∃ cells, initOnce ref original own w = (original.made [own], { w with cells }) ∧
      Fills content (ref + 1) w.cells cells :=
  initOnce_of hcoh.1 hagree (withFields_eq hcoh.2.2 hcoh.2.1 hagree own)

end Core

end Zap.Zapcore
