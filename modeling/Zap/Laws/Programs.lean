import Zap.Laws.Write

/-!
# Programs that make and use cores

A program makes cores with the constructors of this package, out of cores it has already made,
and calls their methods in any order. `Reachable` are the states it can get to: a world, and the
cores it has. A core may be used more than once, so cores can share lazy cores and samplers.

What the laws about cores ask for holds in every such state (`Reachable.valid`): cells are filled
with what they are for, each of them once, and references point to what was made before.
-/

set_option autoImplicit false

namespace Zap.Zapcore

open Data

variable {E F : Type} {b : Bool}

/-! ## Calls that only go outside -/

/-- Some cells were filled and some calls were made; nothing else has changed. -/
structure Outward (content : Nat → Core E F false) (n : Nat) (w w' : World E F) : Prop where
  cells : Fills content n w.cells w'.cells
  rest : ∃ trace cells, w' = { w with trace, cells }

namespace Outward

variable {content : Nat → Core E F false} {n : Nat} {w w' w'' : World E F}

theorem refl (w : World E F) : Outward content n w w := ⟨.refl _, w.trace, w.cells, rfl⟩

theorem trans (h : Outward content n w w') (h' : Outward content n w' w'') :
    Outward content n w w'' := by
  obtain ⟨trace, cells, rfl⟩ := h.rest
  obtain ⟨trace', cells', rfl⟩ := h'.rest
  exact ⟨h.cells.trans h'.cells, trace', cells', rfl⟩

theorem mono {m : Nat} (hnm : n ≤ m) (h : Outward content n w w') : Outward content m w w' :=
  ⟨h.cells.mono hnm, h.rest⟩

theorem of_fills {cells : Cells E F} (h : Fills content n w.cells cells) :
    Outward content n w { w with cells } := ⟨h, w.trace, cells, rfl⟩

theorem of_trace {trace : List (Event E F)} (h : w' = { w with trace }) :
    Outward content n w w' := by
  subst h
  exact ⟨.refl _, trace, w.cells, rfl⟩

theorem of_calls {writes : List (IoCore E × Entry × List F)} {outputs : List (Nat × Bytes)}
    {hooks : List (Nat × Entry)} (h : Calls w w' writes outputs hooks) : Outward content n w w' := by
  obtain ⟨trace, hw⟩ := h.rest
  exact .of_trace hw

end Outward

namespace Core

variable [Encoder E F] [Environment E F] {content : Nat → Core E F false} {n : Nat}
  {core : Core E F b}

/-- `Write` fills cells and makes calls. -/
def WritesOutward (content : Nat → Core E F false) (n : Nat) (core : Core E F b) : Prop :=
  ∀ ent fields w, w.cells.Agrees content → Outward content n w (core.write ent fields w).2

theorem write_outward_of
    (down : b = true → ∀ core : Core E F false, core.WritesOutward content 0)
    (hcoh : core.Coherent content) (hbelow : b = true → core.Below n) :
    core.WritesOutward content n := by
  intro ent fields w hagree
  induction core generalizing w with
  | nop => rw [write_nop]; exact .refl w
  | io core => rw [write_io]; exact .of_calls (core.write_calls ent fields w)
  | nil => rw [write_nil]; exact .refl w
  | cons core cores ih ihs =>
    obtain ⟨hcore, hcores⟩ := coherent_cons.mp hcoh
    have hfirst := ih hcore (fun h => (below_cons.mp (hbelow h)).1) w hagree
    rw [write_cons]
    exact hfirst.trans (ihs hcores (fun h => (below_cons.mp (hbelow h)).2) _
      (hfirst.cells.agrees hagree))
  | hooked core funcs _ => rw [write_hooked]; exact .of_calls (runHooks_calls ent funcs w)
  | levelFilter core level ih => rw [write_levelFilter]; exact ih hcoh hbelow w hagree
  | sampler core s ih =>
    rw [write_sampler]
    exact ih hcoh (fun h => (hbelow h).2) w hagree
  | lazyWith h ref original own _ =>
    obtain ⟨cells, hinit, hfills⟩ := initOnce_eq hcoh hagree
    rw [write_lazyWith, hinit]
    exact (Outward.of_fills (hfills.mono (hbelow h).1)).trans
      ((down h _ ent fields _ (hfills.agrees hagree)).mono (Nat.zero_le n))

theorem write_outward (hcoh : core.Coherent content) (hbelow : core.Below n) :
    core.WritesOutward content n :=
  write_outward_of (fun _ core => write_outward_of nofun (coherent_eager content core) nofun) hcoh
    fun _ => hbelow

/-- `Sync` fills cells and makes calls. -/
def SyncsOutward (content : Nat → Core E F false) (n : Nat) (core : Core E F b) : Prop :=
  ∀ w, w.cells.Agrees content → Outward content n w (core.sync w).2

theorem sync_outward_of
    (down : b = true → ∀ core : Core E F false, core.SyncsOutward content 0)
    (hcoh : core.Coherent content) (hbelow : b = true → core.Below n) :
    core.SyncsOutward content n := by
  intro w hagree
  induction core generalizing w with
  | nop => rw [sync_nop]; exact .refl w
  | io core => rw [sync_io]; exact .of_trace rfl
  | nil => rw [sync_nil]; exact .refl w
  | cons core cores ih ihs =>
    obtain ⟨hcore, hcores⟩ := coherent_cons.mp hcoh
    have hfirst := ih hcore (fun h => (below_cons.mp (hbelow h)).1) w hagree
    rw [sync_cons]
    exact hfirst.trans (ihs hcores (fun h => (below_cons.mp (hbelow h)).2) _
      (hfirst.cells.agrees hagree))
  | hooked core funcs ih => rw [sync_hooked]; exact ih hcoh hbelow w hagree
  | levelFilter core level ih => rw [sync_levelFilter]; exact ih hcoh hbelow w hagree
  | sampler core s ih =>
    rw [sync_sampler]
    exact ih hcoh (fun h => (hbelow h).2) w hagree
  | lazyWith h ref original own _ =>
    obtain ⟨cells, hinit, hfills⟩ := initOnce_eq hcoh hagree
    rw [sync_lazyWith, hinit]
    exact (Outward.of_fills (hfills.mono (hbelow h).1)).trans
      ((down h _ _ (hfills.agrees hagree)).mono (Nat.zero_le n))

theorem sync_outward (hcoh : core.Coherent content) (hbelow : core.Below n) :
    core.SyncsOutward content n :=
  sync_outward_of (fun _ core => sync_outward_of nofun (coherent_eager content core) nofun) hcoh
    fun _ => hbelow

end Core

theorem Kind.exists_of {cores : List ((b : Bool) × Core E F b)}
    (h : ∀ core ∈ cores, (Kind.of core).isSome) :
    ∃ regs : List (Kind E), cores.map Kind.of = regs.map some := by
  induction cores with
  | nil => exact ⟨[], rfl⟩
  | cons core cores ih =>
    obtain ⟨hcore, hcores⟩ := List.forall_mem_cons.mp h
    obtain ⟨k, hk⟩ := Option.isSome_iff_exists.mp hcore
    obtain ⟨regs, hregs⟩ := ih hcores
    exact ⟨k :: regs, by rw [List.map_cons, List.map_cons, hk, hregs]⟩

/-- `Write` on a `CheckedEntry` on which only leaves and hooks have registered. -/
theorem CheckedEntry.write_outward [Encoder E F] [Environment E F]
    {content : Nat → Core E F false} {n : Nat} {ce : Option (CheckedEntry E F)}
    (hce : ∀ core ∈ CheckedEntry.registered ce, (Kind.of core).isSome) (fields : List F)
    (w : World E F) : Outward content n w (CheckedEntry.write ce fields w) := by
  cases ce with
  | none => exact .refl w
  | some ce =>
    obtain ⟨regs, hregs⟩ := Kind.exists_of hce
    have hcores : ∀ ent fields,
        Outward content n w (CheckedEntry.writeCores ent fields ce.cores w).2 :=
      fun ent fields => .of_calls (writeCores_calls ent fields hregs w)
    have tell : ∀ r w, Outward content n w (ce.tell r w) := by
      intro r w
      unfold CheckedEntry.tell
      cases ce.errorOutput with
      | none => exact .refl w
      | some out => exact .of_trace rfl
    unfold CheckedEntry.write
    cases hdirty : ce.dirty with
    | true => simp only [hdirty, ↓reduceIte]; exact tell _ w
    | false =>
      simp only [hdirty, Bool.false_eq_true, ↓reduceIte]
      generalize ce.before.foldl (fun p hook => hook p.1 p.2) (ce.entry, fields) = p
      have hwritten : Outward content n w (if (CheckedEntry.writeCores p.1 p.2 ce.cores w).1 = []
          then (CheckedEntry.writeCores p.1 p.2 ce.cores w).2
          else ce.tell (.writeError ce.entry.time (CheckedEntry.writeCores p.1 p.2 ce.cores w).1)
            (CheckedEntry.writeCores p.1 p.2 ce.cores w).2) := by
        split
        · exact hcores _ _
        · exact (hcores _ _).trans (tell _ _)
      cases ce.after with
      | none => exact hwritten
      | some hook => exact hwritten.trans (.of_trace rfl)

/-! ## States -/

namespace Core

theorem Below.lift {n : Nat} {core : Core E F b} (h : core.Below n) : core.lift.Below n := by
  induction core with
  | nop => trivial
  | io core => trivial
  | nil => trivial
  | cons core cores ih ihs => exact ⟨ih (below_cons.mp h).1, ihs (below_cons.mp h).2⟩
  | hooked core funcs ih => exact ih h
  | levelFilter core level ih => exact ih h
  | sampler core s ih => exact ⟨h.1, ih h.2⟩
  | lazyWith _ ref original own ih => exact ⟨h.1, ih h.2⟩

theorem coherent_lift [Encoder E F] (content : Nat → Core E F false) (core : Core E F false) :
    core.lift.Coherent content := by
  induction core with
  | nop => trivial
  | io core => trivial
  | nil => trivial
  | cons core cores ih ihs => exact ⟨ih, ihs⟩
  | hooked core funcs ih => exact ih
  | levelFilter core level ih => exact ih
  | sampler core s ih => exact ih
  | lazyWith h _ _ _ _ => cases h

/-- Only the cells below a core's references matter. -/
theorem Coherent.congr [Encoder E F] {content content' : Nat → Core E F false} {n : Nat}
    {core : Core E F b} (h : core.Coherent content) (hbelow : core.Below n)
    (hsame : ∀ ref < n, content' ref = content ref) : core.Coherent content' := by
  induction core with
  | nop => trivial
  | io core => trivial
  | nil => trivial
  | cons core cores ih ihs =>
    obtain ⟨hcore, hcores⟩ := coherent_cons.mp h
    obtain ⟨hlt, hlts⟩ := below_cons.mp hbelow
    exact ⟨ih hcore hlt, ihs hcores hlts⟩
  | hooked core funcs ih => exact ih h hbelow
  | levelFilter core level ih => exact ih h hbelow
  | sampler core s ih => exact ih h hbelow.2
  | lazyWith _ ref original own ih =>
    exact ⟨(hsame ref hbelow.1).trans h.1, h.2.1, ih h.2.2 hbelow.2⟩

end Core

/-- Nothing has been made yet. -/
def World.start : World E F := ⟨0, fun _ => newCounters, ⟨fun _ => none, []⟩, [], []⟩

/-- The states of programs. -/
inductive Reachable [Encoder E F] [Environment E F] : World E F → List (Core E F true) → Prop
  | start : Reachable .start []
  | newCore {w : World E F} {cores : List (Core E F true)} (h : Reachable w cores) (enc : E)
      (out : Nat) (level : LevelEnabler) : Reachable w (newCore enc out level :: cores)
  | newNopCore {w : World E F} {cores : List (Core E F true)} (h : Reachable w cores) :
      Reachable w (newNopCore :: cores)
  | newTee {w : World E F} {cores : List (Core E F true)} (h : Reachable w cores)
      {parts : List (Core E F true)} (hparts : parts ⊆ cores) : Reachable w (newTee parts :: cores)
  | registerHooks {w : World E F} {cores : List (Core E F true)} (h : Reachable w cores)
      {core : Core E F true} (hcore : core ∈ cores) (funcs : List Nat) :
      Reachable w (registerHooks core funcs :: cores)
  | newIncreaseLevelCore {w : World E F} {cores : List (Core E F true)} (h : Reachable w cores)
      {core filtered : Core E F true} (hcore : core ∈ cores) {level : LevelEnabler}
      (hlevel : newIncreaseLevelCore core level = some filtered) : Reachable w (filtered :: cores)
  | newSamplerWithOptions {w : World E F} {cores : List (Core E F true)} (h : Reachable w cores)
      {core : Core E F true} (hcore : core ∈ cores) (tick : Duration) (first thereafter : Int64)
      (hook : Option Nat) :
      Reachable (newSamplerWithOptions core tick first thereafter hook w).2
        ((newSamplerWithOptions core tick first thereafter hook w).1 :: cores)
  | newLazyWith {w : World E F} {cores : List (Core E F true)} (h : Reachable w cores)
      {core : Core E F true} (hcore : core ∈ cores) (fields : List F) :
      Reachable (newLazyWith core fields w).2 ((newLazyWith core fields w).1 :: cores)
  | withFields {w : World E F} {cores : List (Core E F true)} (h : Reachable w cores)
      {core : Core E F true} (hcore : core ∈ cores) (fields : List F) :
      Reachable (core.withFields fields w).2 ((core.withFields fields w).1.lift :: cores)
  | check {w : World E F} {cores : List (Core E F true)} (h : Reachable w cores)
      {core : Core E F true} (hcore : core ∈ cores) (ent : Entry)
      (ce : Option (CheckedEntry E F)) : Reachable (core.check ent ce w).2 cores
  | write {w : World E F} {cores : List (Core E F true)} (h : Reachable w cores)
      {core : Core E F true} (hcore : core ∈ cores) (ent : Entry) (fields : List F) :
      Reachable (core.write ent fields w).2 cores
  | sync {w : World E F} {cores : List (Core E F true)} (h : Reachable w cores)
      {core : Core E F true} (hcore : core ∈ cores) : Reachable (core.sync w).2 cores
  | writeEntry {w : World E F} {cores : List (Core E F true)} (h : Reachable w cores)
      {ce : Option (CheckedEntry E F)}
      (hce : ∀ core ∈ CheckedEntry.registered ce, (Kind.of core).isSome) (fields : List F) :
      Reachable (CheckedEntry.write ce fields w) cores

/-! ## What holds in every state -/

/-- Each filled cell was evaluated once, and no other. -/
def Cells.Once (cells : Cells E F) : Prop :=
  ∀ ref, cells.evaluated.count ref = (cells.made ref).toList.length

theorem Fills.once {content : Nat → Core E F false} {n : Nat} {cells cells' : Cells E F}
    (h : Fills content n cells cells') (honce : cells.Once) : cells'.Once := by
  induction h with
  | refl => exact honce
  | @fill cells _ ref _ hnone ih =>
    intro r
    simp only [Cells.keep, List.count_append, ih r]
    by_cases hne : r = ref
    · subst hne
      rw [hnone, Function.update_self, List.count_singleton_self]
      rfl
    · rw [Function.update_of_ne hne, List.count_eq_zero_of_not_mem, Nat.add_zero]
      exact fun hmem => hne (List.mem_singleton.mp hmem)

/-- The invariant of programs. -/
structure Valid [Encoder E F] (content : Nat → Core E F false) (w : World E F)
    (cores : List (Core E F true)) : Prop where
  agrees : w.cells.Agrees content
  once : w.cells.Once
  fresh : ∀ ref, w.next ≤ ref → w.cells.made ref = none
  coherent : ∀ core ∈ cores, core.Coherent content
  below : ∀ core ∈ cores, core.Below w.next

namespace Valid

variable [Encoder E F] {content : Nat → Core E F false} {w w' : World E F}
  {cores : List (Core E F true)}

/-- The world moves on by filling cells. -/
theorem fills (h : Valid content w cores) (hfills : Fills content w.next w.cells w'.cells)
    (hnext : w'.next = w.next) : Valid content w' cores where
  agrees := hfills.agrees h.agrees
  once := hfills.once h.once
  fresh := fun ref hle => by
    rw [hnext] at hle
    rw [hfills.made_of_le hle]
    exact h.fresh ref hle
  coherent := h.coherent
  below := by rw [hnext]; exact h.below

theorem outward {n : Nat} (h : Valid content w cores) (hout : Outward content n w w')
    (hn : n ≤ w.next) : Valid content w' cores := by
  obtain ⟨trace, cells, rfl⟩ := hout.rest
  exact h.fills (hout.cells.mono hn) rfl

/-- One more core. -/
theorem cons (h : Valid content w cores) {core : Core E F true} (hcoh : core.Coherent content)
    (hbelow : core.Below w.next) : Valid content w (core :: cores) :=
  ⟨h.agrees, h.once, h.fresh, List.forall_mem_cons.mpr ⟨hcoh, h.coherent⟩,
    List.forall_mem_cons.mpr ⟨hbelow, h.below⟩⟩

theorem newTee (h : Valid content w cores) {parts : List (Core E F true)} (hparts : parts ⊆ cores) :
    Valid content w (newTee parts :: cores) := by
  have hall : (Core.multi parts).Coherent content ∧ (Core.multi parts).Below w.next := by
    induction parts with
    | nil => exact ⟨trivial, trivial⟩
    | cons part parts ih =>
      obtain ⟨hpart, hrest⟩ := List.cons_subset.mp hparts
      obtain ⟨hcoh, hbelow⟩ := ih hrest
      exact ⟨⟨h.coherent part hpart, hcoh⟩, ⟨h.below part hpart, hbelow⟩⟩
  match parts, hparts, hall with
  | [], _, _ => exact h.cons trivial trivial
  | [part], hparts, _ =>
    have hpart := hparts (List.mem_singleton_self part)
    exact h.cons (h.coherent part hpart) (h.below part hpart)
  | _ :: _ :: _, _, hall => exact h.cons hall.1 hall.2

theorem newSamplerWithOptions (h : Valid content w cores) {core : Core E F true}
    (hcore : core ∈ cores) (tick : Duration) (first thereafter : Int64) (hook : Option Nat) :
    Valid content (newSamplerWithOptions core tick first thereafter hook w).2
      ((newSamplerWithOptions core tick first thereafter hook w).1 :: cores) := by
  have hle : w.next ≤ w.next + 1 := Nat.le_succ _
  refine ⟨h.agrees, h.once, fun ref hlt => h.fresh ref (Nat.le_trans hle hlt), ?_, ?_⟩
  · exact List.forall_mem_cons.mpr ⟨h.coherent core hcore, h.coherent⟩
  · exact List.forall_mem_cons.mpr ⟨⟨Nat.lt_succ_self _, (h.below core hcore).mono hle⟩,
      fun core hcore => (h.below core hcore).mono hle⟩

theorem newLazyWith (h : Valid content w cores) {core : Core E F true} (hcore : core ∈ cores)
    (fields : List F) :
    Valid (Function.update content w.next (core.made [fields])) (newLazyWith core fields w).2
      ((newLazyWith core fields w).1 :: cores) := by
  have hle : w.next ≤ w.next + 1 := Nat.le_succ _
  have hsame : ∀ ref < w.next,
      Function.update content w.next (core.made [fields]) ref = content ref :=
    fun ref hlt => Function.update_of_ne (Nat.ne_of_lt hlt) _ _
  have hcoherent : ∀ core' ∈ cores,
      core'.Coherent (Function.update content w.next (core.made [fields])) :=
    fun core' hcore' => (h.coherent core' hcore').congr (h.below core' hcore') hsame
  refine ⟨fun ref made hmade => ?_, h.once, fun ref hlt => h.fresh ref (Nat.le_trans hle hlt), ?_, ?_⟩
  · have hlt : ref < w.next := by
      by_contra hge
      have hnone := h.fresh ref (Nat.le_of_not_lt hge)
      rw [show w.cells.made ref = some made from hmade] at hnone
      cases hnone
    rw [hsame ref hlt]
    exact h.agrees ref made hmade
  · refine List.forall_mem_cons.mpr ⟨⟨Function.update_self _ _ _, h.below core hcore, ?_⟩, hcoherent⟩
    exact hcoherent core hcore
  · exact List.forall_mem_cons.mpr ⟨⟨Nat.lt_succ_self _, (h.below core hcore).mono hle⟩,
      fun core hcore => (h.below core hcore).mono hle⟩

end Valid

/-- The invariant holds in every state of a program. -/
theorem Reachable.valid [Encoder E F] [Environment E F] {w : World E F}
    {cores : List (Core E F true)} (h : Reachable w cores) : ∃ content, Valid content w cores := by
  induction h with
  | start =>
    exact ⟨fun _ => .nop, nofun, fun _ => rfl, fun _ _ => rfl, nofun, nofun⟩
  | newCore _ enc out level ih =>
    obtain ⟨content, h⟩ := ih
    exact ⟨content, h.cons trivial trivial⟩
  | newNopCore _ ih =>
    obtain ⟨content, h⟩ := ih
    exact ⟨content, h.cons trivial trivial⟩
  | newTee _ hparts ih =>
    obtain ⟨content, h⟩ := ih
    exact ⟨content, h.newTee hparts⟩
  | registerHooks _ hcore funcs ih =>
    obtain ⟨content, h⟩ := ih
    have hcoh := h.coherent _ hcore
    have hbelow := h.below _ hcore
    exact ⟨content, h.cons hcoh hbelow⟩
  | newIncreaseLevelCore _ hcore hlevel ih =>
    obtain ⟨content, h⟩ := ih
    unfold Zapcore.newIncreaseLevelCore at hlevel
    split at hlevel
    · cases hlevel
    · cases hlevel
      have hcoh := h.coherent _ hcore
      have hbelow := h.below _ hcore
      exact ⟨content, h.cons hcoh hbelow⟩
  | newSamplerWithOptions _ hcore tick first thereafter hook ih =>
    obtain ⟨content, h⟩ := ih
    exact ⟨content, h.newSamplerWithOptions hcore tick first thereafter hook⟩
  | newLazyWith _ hcore fields ih =>
    obtain ⟨content, h⟩ := ih
    exact ⟨_, h.newLazyWith hcore fields⟩
  | withFields _ hcore fields ih =>
    obtain ⟨content, h⟩ := ih
    obtain ⟨cells, hwith, hfills⟩ :=
      Core.withFields_eq (h.coherent _ hcore) (h.below _ hcore) h.agrees fields
    have hvalid := h.outward (.of_fills hfills) (Nat.le_refl _)
    rw [hwith]
    exact ⟨content, hvalid.cons (Core.coherent_lift content _)
      ((h.below _ hcore).made [fields]).lift⟩
  | check _ hcore ent ce ih =>
    obtain ⟨content, h⟩ := ih
    have hcheck := Core.surveyed ent (h.coherent _ hcore) (h.below _ hcore) ce _ h.agrees
    exact ⟨content, h.fills hcheck.cells hcheck.next⟩
  | write _ hcore ent fields ih =>
    obtain ⟨content, h⟩ := ih
    have hwrite := Core.write_outward (h.coherent _ hcore) (h.below _ hcore) ent fields _ h.agrees
    exact ⟨content, h.outward hwrite (Nat.le_refl _)⟩
  | sync _ hcore ih =>
    obtain ⟨content, h⟩ := ih
    have hsync := Core.sync_outward (h.coherent _ hcore) (h.below _ hcore) _ h.agrees
    exact ⟨content, h.outward hsync (Nat.le_refl _)⟩
  | writeEntry _ hce fields ih =>
    obtain ⟨content, h⟩ := ih
    exact ⟨content, h.outward (CheckedEntry.write_outward hce fields _) (Nat.zero_le _)⟩

end Zap.Zapcore
