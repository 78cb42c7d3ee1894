import Zap.Laws.Check

/-!
# What `Write` does

`Write` on a `CheckedEntry` goes through what has registered, in order, and makes the same calls
whatever destinations and hooks return.
-/

set_option autoImplicit false

namespace Zap.Zapcore

open Data

variable {E F : Type} {b : Bool}

/-! ## Calls -/

/-- The calls of `ioCore.Write`. -/
def writesOf (trace : List (Event E F)) : List (IoCore E × Entry × List F) :=
  trace.filterMap fun
    | .write core ent fields => some (core, ent, fields)
    | _ => none

/-- What went to destinations. -/
def outputsOf (trace : List (Event E F)) : List (Nat × Bytes) :=
  trace.filterMap fun
    | .output out buf => some (out, buf)
    | _ => none

/-- The calls of hooks. -/
def hookCallsOf (trace : List (Event E F)) : List (Nat × Entry) :=
  trace.filterMap fun
    | .hook f ent => some (f, ent)
    | _ => none

/-- What `Write` on a leaf sends to its destination. -/
def IoCore.emitted [Encoder E F] (core : IoCore E) (ent : Entry) (fields : List F) :
    Option (Nat × Bytes) :=
  (Encoder.encodeEntry core.enc ent fields).toOption.map fun buf => (core.out, buf)

/-- From one world to another by calls alone. -/
structure Calls (w w' : World E F) (writes : List (IoCore E × Entry × List F))
    (outputs : List (Nat × Bytes)) (hooks : List (Nat × Entry)) : Prop where
  rest : ∃ trace, w' = { w with trace }
  writes : writesOf w'.trace = writesOf w.trace ++ writes
  outputs : outputsOf w'.trace = outputsOf w.trace ++ outputs
  hooks : hookCallsOf w'.trace = hookCallsOf w.trace ++ hooks

namespace Calls

variable {w w' w'' : World E F} {writes writes' : List (IoCore E × Entry × List F)}
  {outputs outputs' : List (Nat × Bytes)} {hooks hooks' : List (Nat × Entry)}

theorem refl (w : World E F) : Calls w w [] [] [] :=
  ⟨⟨w.trace, rfl⟩, (List.append_nil _).symm, (List.append_nil _).symm, (List.append_nil _).symm⟩

theorem trans (h : Calls w w' writes outputs hooks) (h' : Calls w' w'' writes' outputs' hooks') :
    Calls w w'' (writes ++ writes') (outputs ++ outputs') (hooks ++ hooks') := by
  obtain ⟨trace, rfl⟩ := h.rest
  obtain ⟨trace', rfl⟩ := h'.rest
  refine ⟨⟨trace', rfl⟩, ?_, ?_, ?_⟩
  · rw [h'.writes, h.writes, List.append_assoc]
  · rw [h'.outputs, h.outputs, List.append_assoc]
  · rw [h'.hooks, h.hooks, List.append_assoc]

/-- One call. -/
theorem emit (w : World E F) (e : Event E F) :
    Calls w (w.emit e) (writesOf [e]) (outputsOf [e]) (hookCallsOf [e]) :=
  ⟨⟨_, rfl⟩, List.filterMap_append, List.filterMap_append, List.filterMap_append⟩

end Calls

section

variable [Environment E F]

theorem runHooks_calls (ent : Entry) (funcs : List Nat) (w : World E F) :
    Calls w (w.runHooks ent funcs).2 [] [] (funcs.map fun f => (f, ent)) := by
  induction funcs generalizing w with
  | nil => exact .refl w
  | cons f funcs ih => exact (Calls.emit w (.hook f ent)).trans (ih (w.emit (.hook f ent)))

variable [Encoder E F]

theorem IoCore.write_calls (core : IoCore E) (ent : Entry) (fields : List F) (w : World E F) :
    Calls w (core.write ent fields w).2 [(core, ent, fields)] (core.emitted ent fields).toList
      [] := by
  have hwrite := Calls.emit w (.write core ent fields)
  unfold write emitted
  cases Encoder.encodeEntry core.enc ent fields with
  | error err => exact hwrite
  | ok buf =>
    have hout := hwrite.trans (Calls.emit (w.emit (.write core ent fields)) (.output core.out buf))
    cases herr : Environment.write (w.emit (.write core ent fields)).trace core.out buf with
    | none =>
      simp only [World.output, herr, Option.toList_none]
      split
      · exact hout.trans (Calls.emit _ (.sync core.out))
      · exact hout
    | some err =>
      simp only [World.output, herr, Option.toList_some]
      exact hout

/-- `Write` on what registered. -/
def Kind.write (k : Kind E) (ent : Entry) (fields : List F) (w : World E F) : Errors × World E F :=
  match k with
  | .leaf core => core.write ent fields w
  | .hooks funcs => w.runHooks ent funcs

theorem Kind.write_of {core : (b : Bool) × Core E F b} {k : Kind E} (h : Kind.of core = some k)
    (ent : Entry) (fields : List F) (w : World E F) :
    core.2.write ent fields w = k.write ent fields w := by
  obtain ⟨b, core⟩ := core
  cases core with
  | io core => cases h; exact Core.write_io ent fields w core
  | hooked core funcs => cases h; exact Core.write_hooked ent fields w core funcs
  | nop => cases h
  | multi cores => cases h
  | levelFilter core level => cases h
  | sampler core s => cases h
  | lazyWith _ ref original own => cases h

theorem Kind.write_calls (k : Kind E) (ent : Entry) (fields : List F) (w : World E F) :
    Calls w (k.write ent fields w).2 (([k].filterMap toLeaf).map fun core => (core, ent, fields))
      (([k].filterMap toLeaf).filterMap fun core => core.emitted ent fields)
      (([k].filterMap toHooks).flatMap fun funcs => funcs.map fun f => (f, ent)) := by
  cases k with
  | leaf core =>
    have h := core.write_calls ent fields w
    cases he : core.emitted ent fields with
    | none =>
      rw [he] at h
      simp only [List.filterMap_cons, toLeaf, List.filterMap_nil, he]
      exact h
    | some o =>
      rw [he] at h
      simp only [List.filterMap_cons, toLeaf, List.filterMap_nil, he]
      exact h
  | hooks funcs =>
    simp only [List.filterMap_cons, toHooks, List.filterMap_nil, List.flatMap_singleton]
    exact runHooks_calls ent funcs w

/-- What holds of `Write` for every kind that registers, and of one write after another, holds of
writing to all that have registered. -/
theorem CheckedEntry.writeCores_keeps {R : World E F → Errors → World E F → Prop}
    (hrefl : ∀ w, R w [] w)
    (htrans : ∀ {w errs w' errs' w''}, R w errs w' → R w' errs' w'' → R w (errs ++ errs') w'')
    {ent : Entry} {fields : List F}
    (hleaf : ∀ (core : IoCore E) w, R w (core.write ent fields w).1 (core.write ent fields w).2)
    (hhooks : ∀ funcs w, R w (w.runHooks ent funcs).1 (w.runHooks ent funcs).2)
    {cores : List ((b : Bool) × Core E F b)} (h : ∀ core ∈ cores, (Kind.of core).isSome)
    (w : World E F) :
    R w (CheckedEntry.writeCores ent fields cores w).1
      (CheckedEntry.writeCores ent fields cores w).2 := by
  induction cores generalizing w with
  | nil => exact hrefl w
  | cons core cores ih =>
    obtain ⟨hcore, hcores⟩ := List.forall_mem_cons.mp h
    obtain ⟨k, hk⟩ := Option.isSome_iff_exists.mp hcore
    have hone : R w (core.2.write ent fields w).1 (core.2.write ent fields w).2 := by
      rw [Kind.write_of hk]
      cases k with
      | leaf core => exact hleaf core w
      | hooks funcs => exact hhooks funcs w
    exact htrans hone (ih hcores (core.2.write ent fields w).2)

/-- `Write` on everything that registered, in order. -/
theorem writeCores_calls (ent : Entry) (fields : List F) {cores : List ((b : Bool) × Core E F b)}
    {regs : List (Kind E)} (h : cores.map Kind.of = regs.map some) (w : World E F) :
    Calls w (CheckedEntry.writeCores ent fields cores w).2
      ((regs.filterMap Kind.toLeaf).map fun core => (core, ent, fields))
      ((regs.filterMap Kind.toLeaf).filterMap fun core => core.emitted ent fields)
      ((regs.filterMap Kind.toHooks).flatMap fun funcs => funcs.map fun f => (f, ent)) := by
  induction cores generalizing regs w with
  | nil =>
    cases regs with
    | nil => exact .refl w
    | cons k regs => cases h
  | cons core cores ih =>
    cases regs with
    | nil => cases h
    | cons k regs =>
      obtain ⟨hk, hregs⟩ := List.cons_eq_cons.mp h
      have hwrite := Kind.write_of hk ent fields w
      have hall := (k.write_calls ent fields w).trans (ih hregs (k.write ent fields w).2)
      have hcons : k :: regs = [k] ++ regs := rfl
      simp only [CheckedEntry.writeCores, hwrite]
      rw [hcons, List.filterMap_append, List.filterMap_append, List.map_append,
        List.filterMap_append, List.flatMap_append]
      exact hall

variable {ent : Entry}

omit [Encoder E F] [Environment E F] in
/-- A `CheckedEntry` that `Check` made from nothing. -/
theorem Registers.of_none {regs : List (Kind E)} {ce : Option (CheckedEntry E F)}
    (h : Registers ent none regs ce) :
    (ce = none ∧ regs = []) ∨
      ∃ cores, ce = some ⟨ent, none, false, none, cores, []⟩ ∧ cores.map Kind.of = regs.map some := by
  induction h with
  | refl => exact .inl ⟨rfl, rfl⟩
  | @add regs ce b core k _ hk ih =>
    right
    rcases ih with ⟨rfl, rfl⟩ | ⟨cores, rfl, hcores⟩
    · exact ⟨[⟨b, core⟩], rfl, congrArg (· :: []) hk⟩
    · refine ⟨cores ++ [⟨b, core⟩], rfl, ?_⟩
      rw [List.map_append, List.map_append, hcores]
      exact congrArg (regs.map some ++ [·]) hk

/-- `Write` on a `CheckedEntry` that `Check` made from nothing. -/
theorem Registers.write {regs : List (Kind E)} {ce : Option (CheckedEntry E F)}
    (h : Registers ent none regs ce) (fields : List F) (w : World E F) :
    Calls w (CheckedEntry.write ce fields w)
      ((regs.filterMap Kind.toLeaf).map fun core => (core, ent, fields))
      ((regs.filterMap Kind.toLeaf).filterMap fun core => core.emitted ent fields)
      ((regs.filterMap Kind.toHooks).flatMap fun funcs => funcs.map fun f => (f, ent)) := by
  rcases h.of_none with ⟨rfl, rfl⟩ | ⟨cores, rfl, hcores⟩
  · exact .refl w
  · have hcalls := writeCores_calls ent fields hcores w
    simp only [CheckedEntry.write, Bool.false_eq_true, ↓reduceIte, List.foldl_nil]
    by_cases herrs : (CheckedEntry.writeCores ent fields cores w).1 = []
    · simp only [herrs, ↓reduceIte]
      exact hcalls
    · simp only [herrs, ↓reduceIte]
      exact hcalls

end

end Zap.Zapcore
