import Zap.Laws.IoCore
import Zap.Zapcore.CheckedEntry

/-!
# What a checked entry does with its hooks

A `CheckedEntry` is built by calls of `AddCore`, `Before` and `After`, the first of them on `nil`,
and written. Whatever object the pool gave, `reset` leaves nothing of it (`build_holds`), so the
calls that `Write` makes are settled by the calls that built the entry (`build_write`).

Cores get the entry and the fields as the `Before` hooks leave them. The hook of `After` gets the
fields as they leave them too, but it gets the object, and its entry is still the first one.

At the end the objects here are related to the values that `Core` has for them
(`PooledEntry.Represents`).
-/

set_option autoImplicit false

namespace Zap.Zapcore

open Data

variable {κ F W : Type}

/-! ## Calls that build an entry -/

/-- A call that builds a `CheckedEntry`. Each is given an entry. -/
inductive Registration (κ F : Type) where
  | addCore (ent : Entry) (core : κ)
  | before (ent : Entry) (hook : CheckPreWriteHook F)
  | after (ent : Entry) (hook : CheckWriteHook)

namespace Registration

def apply (reg : Registration κ F) (pick : Nat) (ce : Option Nat) (p : EntryPool κ F) :
    Nat × EntryPool κ F :=
  match reg with
  | .addCore ent core => p.addCore pick ce ent core
  | .before ent hook => p.before pick ce ent hook
  | .after ent hook => p.after pick ce ent hook

def entry : Registration κ F → Entry
  | .addCore ent _ => ent
  | .before ent _ => ent
  | .after ent _ => ent

def core? : Registration κ F → Option κ
  | .addCore _ core => some core
  | _ => none

def before? : Registration κ F → Option (CheckPreWriteHook F)
  | .before _ hook => some hook
  | _ => none

def after? : Registration κ F → Option CheckWriteHook
  | .after _ hook => some hook
  | _ => none

end Registration

/-- Make the calls one after the other, each on what the one before returned. -/
def build (pick : Nat) : List (Registration κ F) → Option Nat → EntryPool κ F →
    Option Nat × EntryPool κ F
  | [], ce, p => (ce, p)
  | reg :: regs, ce, p =>
    let (r, p) := reg.apply pick ce p
    build pick regs (some r) p

/-- The entry of the first call. -/
def firstEntry (regs : List (Registration κ F)) : Entry :=
  (regs.head?.map Registration.entry).getD Entry.zero

/-- The cores that were added, in order. -/
def coresOf (regs : List (Registration κ F)) : List κ := regs.filterMap Registration.core?

/-- The hooks of `Before`, in order. -/
def beforeOf (regs : List (Registration κ F)) : List (CheckPreWriteHook F) :=
  regs.filterMap Registration.before?

/-- The hook of the last call of `After`. -/
def afterOf (regs : List (Registration κ F)) : Option CheckWriteHook :=
  (regs.filterMap Registration.after?).getLast?

/-- An entry and fields as hooks leave them. -/
def transform (hooks : List (CheckPreWriteHook F)) (ent : Entry) (fields : List F) :
    Entry × List F :=
  hooks.foldl (fun p hook => hook p.1 p.2) (ent, fields)

/-! ## The object that is built -/

/-- What an object holds: nothing of it is `nil`. -/
structure PooledEntry.Holds (ce : PooledEntry κ F) (cores : List κ)
    (before : List (CheckPreWriteHook F)) : Prop where
  cores : ce.cores.toList = cores.map some
  before : ce.before.toList = before.map some

namespace PooledEntry

/-- An object that was taken from the pool for an entry and has got these registrations. -/
structure Built (ce : PooledEntry κ F) (ent : Entry) (regs : List (Registration κ F)) : Prop where
  entry : ce.entry = ent
  errorOutput : ce.errorOutput = none
  dirty : ce.dirty = false
  after : ce.after = afterOf regs
  holds : ce.Holds (coresOf regs) (beforeOf regs)

end PooledEntry

namespace Registration

/-- What a call changes in its receiver. -/
def edit (reg : Registration κ F) (ce : PooledEntry κ F) : PooledEntry κ F :=
  match reg with
  | .addCore _ core => { ce with cores := ce.cores.push (some core) }
  | .before _ hook => { ce with before := ce.before.push (some hook) }
  | .after _ hook => { ce with after := some hook }

theorem apply_eq (reg : Registration κ F) (pick : Nat) (ce : Option Nat) (p : EntryPool κ F) :
    reg.apply pick ce p =
      ((p.receiver pick ce reg.entry).1,
        (p.receiver pick ce reg.entry).2.set (p.receiver pick ce reg.entry).1
          (reg.edit ((p.receiver pick ce reg.entry).2.object (p.receiver pick ce reg.entry).1))) := by
  cases reg <;> rfl

theorem coresOf_concat (regs : List (Registration κ F)) (reg : Registration κ F) :
    coresOf (regs ++ [reg]) = coresOf regs ++ reg.core?.toList := by
  rw [coresOf, List.filterMap_append]
  cases reg <;> rfl

theorem beforeOf_concat (regs : List (Registration κ F)) (reg : Registration κ F) :
    beforeOf (regs ++ [reg]) = beforeOf regs ++ reg.before?.toList := by
  rw [beforeOf, List.filterMap_append]
  cases reg <;> rfl

theorem afterOf_concat (regs : List (Registration κ F)) (reg : Registration κ F) :
    afterOf (regs ++ [reg]) = reg.after?.or (afterOf regs) := by
  rw [afterOf, List.filterMap_append, List.getLast?_append]
  cases reg <;> rfl

theorem edit_built (reg : Registration κ F) {ce : PooledEntry κ F} {ent : Entry}
    {regs : List (Registration κ F)} (h : ce.Built ent regs) :
    (reg.edit ce).Built ent (regs ++ [reg]) := by
  obtain ⟨hentry, herr, hdirty, hafter, hcores, hbefore⟩ := h
  have hafter' : (reg.edit ce).after = reg.after?.or (afterOf regs) := by
    rw [← hafter]
    cases reg <;> rfl
  have hcores' : (reg.edit ce).cores.toList = (coresOf regs ++ reg.core?.toList).map some := by
    rw [List.map_append, ← hcores]
    cases reg with
    | addCore _ core => exact Slice.toList_push _ _
    | before _ hook => exact (List.append_nil _).symm
    | after _ hook => exact (List.append_nil _).symm
  have hbefore' : (reg.edit ce).before.toList = (beforeOf regs ++ reg.before?.toList).map some := by
    rw [List.map_append, ← hbefore]
    cases reg with
    | addCore _ core => exact (List.append_nil _).symm
    | before _ hook => exact Slice.toList_push _ _
    | after _ hook => exact (List.append_nil _).symm
  rw [← coresOf_concat] at hcores'
  rw [← beforeOf_concat] at hbefore'
  rw [← afterOf_concat] at hafter'
  cases reg <;> exact ⟨hentry, herr, hdirty, hafter', hcores', hbefore'⟩

end Registration

/-- The object that the pool gives is as good as new, whatever was in it. -/
theorem EntryPool.receiver_built (p : EntryPool κ F) (pick : Nat) (ent : Entry) :
    ((p.receiver pick none ent).2.object (p.receiver pick none ent).1).Built ent [] := by
  simp only [receiver, getCheckedEntry, Pool.object_set_self]
  exact ⟨rfl, rfl, rfl, rfl, rfl, rfl⟩

theorem build_some (pick r : Nat) {p : EntryPool κ F} {ent : Entry}
    {regs : List (Registration κ F)} (h : (p.object r).Built ent regs)
    (regs' : List (Registration κ F)) :
    (build pick regs' (some r) p).1 = some r ∧
      ((build pick regs' (some r) p).2.object r).Built ent (regs ++ regs') := by
  induction regs' generalizing regs p with
  | nil => exact ⟨rfl, (List.append_nil regs).symm ▸ h⟩
  | cons reg regs' ih =>
    have hset : ((p.set r (reg.edit (p.object r))).object r).Built ent (regs ++ [reg]) := by
      rw [Pool.object_set_self]
      exact reg.edit_built h
    have hrest := ih hset
    rw [List.append_assoc, List.singleton_append] at hrest
    simp only [build, reg.apply_eq, EntryPool.receiver]
    exact hrest

/-- What the calls build, starting from `nil`. -/
theorem build_built (pick : Nat) (p : EntryPool κ F) (reg : Registration κ F)
    (regs : List (Registration κ F)) :
    ∃ r, (build pick (reg :: regs) none p).1 = some r ∧
      ((build pick (reg :: regs) none p).2.object r).Built reg.entry (reg :: regs) := by
  have hfirst := reg.edit_built (p.receiver_built pick reg.entry)
  simp only [build, reg.apply_eq]
  generalize p.receiver pick none reg.entry = first at hfirst ⊢
  obtain ⟨r, q⟩ := first
  have hset : ((q.set r (reg.edit (q.object r))).object r).Built reg.entry [reg] := by
    rw [Pool.object_set_self]
    exact hfirst
  exact ⟨r, build_some pick r hset regs⟩

/-! ## `Write` -/

/-- `Write` of cores in order. -/
def Callees.writeAll (callees : Callees κ F W) (ent : Entry) (fields : List F) :
    List κ → W → Errors × W
  | [], w => ([], w)
  | core :: cores, w =>
    let (err, w) := callees.write core ent fields w
    let (errs, w) := callees.writeAll ent fields cores w
    (err ++ errs, w)

namespace PooledEntry

theorem runBefore_some (hooks : List (CheckPreWriteHook F)) (ent : Entry) (fields : List F) :
    runBefore (hooks.map some) ent fields = some (transform hooks ent fields) := by
  induction hooks generalizing ent fields with
  | nil => rfl
  | cons hook hooks ih => exact ih _ _

theorem writeCores_some (callees : Callees κ F W) (ent : Entry) (fields : List F) (cores : List κ)
    (w : W) :
    writeCores callees ent fields (cores.map some) w = some (callees.writeAll ent fields cores w) := by
  induction cores generalizing w with
  | nil => rfl
  | cons core cores ih => simp only [List.map_cons, writeCores, ih, Callees.writeAll]; rfl

end PooledEntry

/-- `Write` on an object that is not dirty: the hooks of `Before`, the cores, the error output if
there were errors, and the hook of `After`. -/
theorem EntryPool.write_clean (callees : Callees κ F W) {p : EntryPool κ F} {r : Nat}
    (hdirty : (p.object r).dirty = false) {cores : List κ} {before : List (CheckPreWriteHook F)}
    (h : (p.object r).Holds cores before) (fields : List F) (w : W) :
    p.write callees (some r) fields w =
      let sent := transform before (p.object r).entry fields
      let written := callees.writeAll sent.1 sent.2 cores w
      let w := if written.1 = [] then written.2
        else (p.object r).tell callees (.writeError (p.object r).entry.time written.1) written.2
      some (putCheckedEntry (p.set r { p.object r with dirty := true }) r,
        (p.object r).after.elim w fun hook => callees.onWrite hook (p.object r).entry sent.2 w) := by
  simp only [write, hdirty, Bool.false_eq_true, ↓reduceIte, h.cores, h.before,
    PooledEntry.runBefore_some, PooledEntry.writeCores_some]
  cases (p.object r).after <;> rfl

/-- `Write` on an object that is dirty tells the error output, and does nothing else. -/
theorem EntryPool.write_dirty (callees : Callees κ F W) {p : EntryPool κ F} {r : Nat}
    (hdirty : (p.object r).dirty = true) (fields : List F) (w : W) :
    p.write callees (some r) fields w =
      some (p, (p.object r).tell callees (.reuse (p.object r).entry) w) := by
  simp only [write, hdirty, ↓reduceIte]

/-! ## The calls that are made -/

/-- A call of `Write` of a core, of an error output, or of `OnWrite`, with the entry that its
`CheckedEntry` carries. -/
inductive EntryCall (κ F : Type) where
  | write (core : κ) (ent : Entry) (fields : List F)
  | report (out : Nat) (r : Report)
  | onWrite (hook : CheckWriteHook) (ent : Entry) (fields : List F)

/-- Calls are recorded. What errors a core returns may depend on all calls before. -/
def Callees.recording (answer : List (EntryCall κ F) → κ → Entry → List F → Errors) :
    Callees κ F (List (EntryCall κ F)) where
  write core ent fields calls := (answer calls core ent fields, calls ++ [.write core ent fields])
  report out r calls := calls ++ [.report out r]
  onWrite hook ent fields calls := calls ++ [.onWrite hook ent fields]

section

variable (answer : List (EntryCall κ F) → κ → Entry → List F → Errors)

/-- Every core is written to, whatever the others return. -/
theorem writeAll_recording (ent : Entry) (fields : List F) (cores : List κ)
    (calls : List (EntryCall κ F)) :
    ((Callees.recording answer).writeAll ent fields cores calls).2 =
      calls ++ cores.map fun core => .write core ent fields := by
  induction cores generalizing calls with
  | nil => exact (List.append_nil calls).symm
  | cons core cores ih =>
    have hrest := ih (calls ++ [.write core ent fields])
    rw [List.append_assoc, List.singleton_append] at hrest
    exact hrest

/-- The calls that `Write` makes for a `CheckedEntry` with these registrations. -/
def callsOf (regs : List (Registration κ F)) (fields : List F) : List (EntryCall κ F) :=
  let sent := transform (beforeOf regs) (firstEntry regs) fields
  ((coresOf regs).map fun core => .write core sent.1 sent.2) ++
    (afterOf regs).toList.map fun hook => .onWrite hook (firstEntry regs) sent.2

/-- `Write` makes the calls of the registrations, and leaves the object dirty. -/
theorem build_write_eq (regs : List (Registration κ F)) (pick : Nat) (p : EntryPool κ F)
    (fields : List F) (calls : List (EntryCall κ F)) :
    ∃ q, (build pick regs none p).2.write (.recording answer) (build pick regs none p).1 fields
        calls = some (q, calls ++ callsOf regs fields) ∧
      ∀ r, (build pick regs none p).1 = some r →
        (q.object r).dirty = true ∧ (q.object r).errorOutput = none := by
  cases regs with
  | nil => exact ⟨p, by simp [build, EntryPool.write, callsOf, coresOf, afterOf], fun r h => by cases h⟩
  | cons reg regs =>
    obtain ⟨r, hr, hbuilt⟩ := build_built pick p reg regs
    obtain ⟨hentry, herr, hdirty, hafter, hholds⟩ := hbuilt
    rw [hr, EntryPool.write_clean (.recording answer) hdirty hholds]
    refine ⟨_, congrArg some (Prod.ext rfl ?_), ?_⟩
    · have htell : ∀ rep w, ((build pick (reg :: regs) none p).2.object r).tell
          (.recording answer) rep w = w := by
        intro rep w
        simp only [PooledEntry.tell, herr]
      have hfirst : firstEntry (reg :: regs) = reg.entry := rfl
      simp only [htell, ite_self, writeAll_recording, hentry, hafter, callsOf, hfirst]
      cases afterOf (reg :: regs) with
      | none => simp
      | some hook => simp [Callees.recording]
    · intro r' hr'
      cases hr'
      simp [EntryPool.putCheckedEntry, herr]

/-- Each core that was added is written to once and in order, with the entry of the first call and
the fields as the `Before` hooks leave them. Then the hook of the last `After` is called once. It
does not matter in which order the calls were made, what the object from the pool held, or what
errors the cores return. As long as the object is not taken from the pool again, another `Write`
makes no call at all. -/
theorem checkedEntry_protocol (regs : List (Registration κ F)) (pick : Nat) (p : EntryPool κ F)
    (fields : List F) (calls : List (EntryCall κ F)) :
    let ce := build pick regs none p
    let sent := transform (beforeOf regs) (firstEntry regs) fields
    ∃ q, ce.2.write (.recording answer) ce.1 fields calls =
        some (q, calls ++ (((coresOf regs).map fun core => .write core sent.1 sent.2) ++
          (afterOf regs).toList.map fun hook => .onWrite hook (firstEntry regs) sent.2)) ∧
      ∀ (later : EntryPool κ F) (fields' : List F) (calls' : List (EntryCall κ F)),
        (∀ r, ce.1 = some r → later.object r = q.object r) →
          later.write (.recording answer) ce.1 fields' calls' = some (later, calls') := by
  obtain ⟨q, hwrite, hdirty⟩ := build_write_eq answer regs pick p fields calls
  refine ⟨q, hwrite, fun later fields' calls' hsame => ?_⟩
  cases hce : (build pick regs none p).1 with
  | none => rfl
  | some r =>
    obtain ⟨hd, herr⟩ := hdirty r hce
    rw [← hsame r hce] at hd herr
    rw [EntryPool.write_dirty (.recording answer) hd]
    simp only [PooledEntry.tell, herr]

/-- What `OnWrite` gets is what the cores got. -/
def SeesWritten (calls : List (EntryCall κ F)) : Prop :=
  ∀ core ent fields hook ent' fields', .write core ent fields ∈ calls →
    .onWrite hook ent' fields' ∈ calls → ent' = ent ∧ fields' = fields

theorem callsOf_seesWritten (regs : List (Registration κ F)) (fields : List F) :
    SeesWritten (callsOf regs fields) ↔
      coresOf regs = [] ∨ afterOf regs = none ∨
        (transform (beforeOf regs) (firstEntry regs) fields).1 = firstEntry regs := by
  simp only [SeesWritten, callsOf, List.mem_append, List.mem_map, Option.mem_toList]
  constructor
  · intro h
    cases hcores : coresOf regs with
    | nil => exact .inl rfl
    | cons core cores =>
      cases hafter : afterOf regs with
      | none => exact .inr (.inl rfl)
      | some hook =>
        have hsees := h core _ _ hook _ _ (.inl ⟨core, by simp [hcores], rfl⟩)
          (.inr ⟨hook, hafter, rfl⟩)
        exact .inr (.inr hsees.1.symm)
  · rintro h core ent fields' hook ent' fields'' (⟨_, hcore, hw⟩ | ⟨_, _, hw⟩)
      (⟨_, _, ho⟩ | ⟨_, hhook, ho⟩)
    · cases ho
    · cases hw
      cases ho
      rcases h with hnone | hnone | hent
      · rw [hnone] at hcore
        cases hcore
      · rw [hnone] at hhook
        cases hhook
      · exact ⟨hent.symm, rfl⟩
    · cases hw
    · cases hw

/-- The hook of `After` sees the entry and the fields that the cores were given, if and only if
there are no cores, there is no such hook, or the `Before` hooks leave the entry as it was. -/
theorem onWrite_seesWritten_iff (regs : List (Registration κ F)) (pick : Nat) (p : EntryPool κ F)
    (fields : List F) (calls : List (EntryCall κ F)) :
    let ce := build pick regs none p
    ∃ q new, ce.2.write (.recording answer) ce.1 fields calls = some (q, calls ++ new) ∧
      (SeesWritten new ↔ coresOf regs = [] ∨ afterOf regs = none ∨
        (transform (beforeOf regs) (firstEntry regs) fields).1 = firstEntry regs) := by
  obtain ⟨q, hwrite, _⟩ := build_write_eq answer regs pick p fields calls
  exact ⟨q, callsOf regs fields, hwrite, callsOf_seesWritten regs fields⟩

end

/-- A message with something in it that should not be logged. -/
def secret : Entry := { greeting with message := utf8 "password=hunter2" }

/-- A hook that takes it out. -/
def redact : CheckPreWriteHook Unit := fun ent fields =>
  ({ ent with message := utf8 "password=***" }, fields)

/-- The core is given the message without the secret, and `WriteThenPanic` the one with it. -/
theorem onWrite_sees_secret :
    let regs : List (Registration Unit Unit) :=
      [.addCore secret (), .before secret redact, .after secret .panic]
    let ce := build 0 regs none ⟨0, fun _ => .new, []⟩
    ∃ q, ce.2.write (.recording fun _ _ _ _ => []) ce.1 [] [] =
        some (q, [.write () { secret with message := utf8 "password=***" } [],
          .onWrite .panic secret []]) ∧
      utf8 "password=***" ≠ secret.message := by
  obtain ⟨q, hwrite, _⟩ := build_write_eq (fun _ _ _ _ => [])
    [.addCore secret (), .before secret redact, .after secret .panic] 0
    (⟨0, fun _ => .new, []⟩ : EntryPool Unit Unit) [] []
  exact ⟨q, hwrite, by decide⟩

/-! ## Objects and values -/

section

variable {E : Type} [Encoder E F] [Environment E F]

/-- The cores of this package, in their world. -/
def Callees.cores : Callees ((b : Bool) × Core E F b) F (World E F) where
  write core ent fields w := core.2.write ent fields w
  report out r w := ((w.emit (.report out r)).sync out).2
  onWrite hook ent fields w := w.emit (.onWrite hook ent fields)

/-- The object is what the value says. -/
structure PooledEntry.Represents (o : PooledEntry ((b : Bool) × Core E F b) F)
    (ce : CheckedEntry E F) : Prop where
  entry : o.entry = ce.entry
  errorOutput : o.errorOutput = ce.errorOutput
  dirty : o.dirty = ce.dirty
  after : o.after = ce.after
  holds : o.Holds ce.cores ce.before

/-- What a reference and a value have in common: both are `nil`, or the object is what the value
says. -/
def EntryPool.Represents (p : EntryPool ((b : Bool) × Core E F b) F) (ref : Option Nat)
    (ce : Option (CheckedEntry E F)) : Prop :=
  (ref = none ∧ ce = none) ∨ ∃ r v, ref = some r ∧ ce = some v ∧ (p.object r).Represents v

omit [Encoder E F] [Environment E F] in
/-- `AddCore` on the object does what `Core` says it does. -/
theorem EntryPool.addCore_represents {p : EntryPool ((b : Bool) × Core E F b) F}
    {ref : Option Nat} {ce : Option (CheckedEntry E F)} (h : p.Represents ref ce) (pick : Nat)
    (ent : Entry) {b : Bool} (core : Core E F b) :
    (p.addCore pick ref ent ⟨b, core⟩).2.Represents (some (p.addCore pick ref ent ⟨b, core⟩).1)
      (some (CheckedEntry.addCore ce ent core)) := by
  refine .inr ⟨_, _, rfl, rfl, ?_⟩
  simp only [addCore, Pool.object_set_self]
  rcases h with ⟨rfl, rfl⟩ | ⟨r, v, rfl, rfl, h⟩
  · obtain ⟨hentry, herr, hdirty, hafter, hcores, hbefore⟩ := p.receiver_built pick ent
    refine ⟨hentry, herr, hdirty, hafter, ?_, hbefore⟩
    simp only [Slice.toList_push, hcores]
    rfl
  · obtain ⟨hentry, herr, hdirty, hafter, hcores, hbefore⟩ := h
    refine ⟨hentry, herr, hdirty, hafter, ?_, hbefore⟩
    simp only [receiver, Slice.toList_push, hcores, CheckedEntry.addCore, Option.getD_some,
      List.map_append, List.map_cons, List.map_nil]

omit [Encoder E F] [Environment E F] in
/-- So does `After`. -/
theorem EntryPool.after_represents {p : EntryPool ((b : Bool) × Core E F b) F}
    {ref : Option Nat} {ce : Option (CheckedEntry E F)} (h : p.Represents ref ce) (pick : Nat)
    (ent : Entry) (hook : CheckWriteHook) :
    (p.after pick ref ent hook).2.Represents (some (p.after pick ref ent hook).1)
      (some (CheckedEntry.setAfter ce ent hook)) := by
  refine .inr ⟨_, _, rfl, rfl, ?_⟩
  simp only [after, Pool.object_set_self]
  rcases h with ⟨rfl, rfl⟩ | ⟨r, v, rfl, rfl, h⟩
  · obtain ⟨hentry, herr, hdirty, _, hcores, hbefore⟩ := p.receiver_built pick ent
    exact ⟨hentry, herr, hdirty, rfl, hcores, hbefore⟩
  · obtain ⟨hentry, herr, hdirty, _, hcores, hbefore⟩ := h
    exact ⟨hentry, herr, hdirty, rfl, hcores, hbefore⟩

theorem Callees.writeAll_cores (ent : Entry) (fields : List F)
    (cores : List ((b : Bool) × Core E F b)) (w : World E F) :
    Callees.cores.writeAll ent fields cores w = CheckedEntry.writeCores ent fields cores w := by
  induction cores generalizing w with
  | nil => rfl
  | cons core cores ih => simp only [writeAll, CheckedEntry.writeCores, ih]; rfl

/-- `Write` on the object does what `Core` says it does, and does not panic. -/
theorem EntryPool.write_represents {p : EntryPool ((b : Bool) × Core E F b) F}
    {ref : Option Nat} {ce : Option (CheckedEntry E F)} (h : p.Represents ref ce)
    (fields : List F) (w : World E F) :
    ∃ q, p.write Callees.cores ref fields w = some (q, CheckedEntry.write ce fields w) := by
  rcases h with ⟨rfl, rfl⟩ | ⟨r, v, rfl, rfl, h⟩
  · exact ⟨p, rfl⟩
  · obtain ⟨hentry, herr, hdirty, hafter, hholds⟩ := h
    have htell : ∀ rep w, (p.object r).tell Callees.cores rep w = v.tell rep w := by
      intro rep w
      simp only [PooledEntry.tell, CheckedEntry.tell, herr]
      cases v.errorOutput <;> rfl
    cases hd : v.dirty with
    | true =>
      rw [write_dirty Callees.cores (hdirty.trans hd)]
      simp only [CheckedEntry.write, hd, ↓reduceIte, htell, hentry]
      exact ⟨p, rfl⟩
    | false =>
      rw [write_clean Callees.cores (hdirty.trans hd) hholds]
      simp only [CheckedEntry.write, hd, Bool.false_eq_true, ↓reduceIte, htell, hentry, hafter,
        Callees.writeAll_cores, transform]
      refine ⟨_, congrArg some (Prod.ext rfl ?_)⟩
      cases v.after <;> rfl

end

end Zap.Zapcore
