import Mathlib.Logic.Hydra
import Zap.Data.Ownership

/-!
# Threads with mutexes

Programs that take and release mutexes, and act on a state that they share. A thread that wants a
mutex which somebody has waits for it; between any two operations others may go on.

Three rules about them.

* A run is never endless, since programs are not.
* Where a thread that has mutexes takes smaller ones only, one of the threads can go on until all have
  returned. This is said for any specification of the operations (`Locking`), and holds without more
  for threads that release first what they took last (`Nested`).
* Where all that threads do stands between the taking and the release of one mutex, an interleaving
  does what the calls do one after the other, in the order in which they got the mutex
  (`Serial`).
-/

set_option autoImplicit false

namespace Zap.Data

/-- An operation: on a mutex, or an action on the shared state. -/
inductive LockOp (A : Type) where
  | lock (m : Nat)
  | unlock (m : Nat)
  | act (a : A)

/-- What an operation is answered by. -/
def LockOp.Res {A : Type} (R : A → Type) : LockOp A → Type
  | .lock _ => Unit
  | .unlock _ => Unit
  | .act a => R a

/-- A program with mutexes; the action `a` is answered by an `R a`. -/
abbrev LockProg (A : Type) (R : A → Type) (α : Type) : Type := Prog (LockOp A) (LockOp.Res R) α

/-- Threads, the state that they share, and who has which mutex. -/
structure LockThreads (σ A : Type) (R : A → Type) (α : Type) where
  owner : Nat → Option Nat
  state : σ
  threads : List (LockProg A R α)

namespace Prog

variable {σ A : Type} {R : A → Type} {α β : Type}

/-! ## One program -/

/-- A program between the taking and the release of a mutex. -/
def critical (m : Nat) (p : LockProg A R α) : LockProg A R α :=
  .op (.lock m) fun _ => p.bind fun a => .op (.unlock m) fun _ => .ret a

/-- Calls, one after the other, and what they have returned. -/
def calls {C : Type} (call : C → LockProg A R β) (returned : List β) : List C → LockProg A R (List β)
  | [] => .ret returned
  | c :: cs => (call c).bind fun b => calls call (returned ++ [b]) cs

theorem calls_map {C D : Type} (call : D → LockProg A R β) (f : C → D) (returned : List β)
    (cs : List C) : calls call returned (cs.map f) = calls (fun c => call (f c)) returned cs := by
  induction cs generalizing returned with
  | nil => rfl
  | cons c cs ih =>
    rw [List.map_cons, calls, calls]
    exact congrArg _ (funext fun b => ih _)

section

variable (exec : (a : A) → σ → R a × σ)

/-- The next operation of thread `i`. There is none if its program has ended or has to wait. -/
def proceed (i : Nat) (owner : Nat → Option Nat) (s : σ) :
    LockProg A R α → Option (LockProg A R α × (Nat → Option Nat) × σ)
  | .ret _ => none
  | .panic => none
  | .op (.lock m) next =>
    if owner m = none then some (next (), Function.update owner m (some i), s) else none
  | .op (.unlock m) next => some (next (), Function.update owner m none, s)
  | .op (.act a) next => some (next (exec a s).1, owner, (exec a s).2)

/-- A program on its own, to its end. -/
def solo : LockProg A R α → σ → Option α × σ
  | .ret a, s => (some a, s)
  | .panic, s => (none, s)
  | .op (.lock _) next, s => solo (next ()) s
  | .op (.unlock _) next, s => solo (next ()) s
  | .op (.act a) next, s => solo (next (exec a s).1) (exec a s).2

/-- What is left of a program that runs on its own, and the state at that point. -/
inductive Reaches (p : LockProg A R α) (s : σ) : LockProg A R α → σ → Prop where
  | refl : Reaches p s p s
  | lock {m : Nat} {next : Unit → LockProg A R α} {t : σ} (h : Reaches p s (.op (.lock m) next) t) :
      Reaches p s (next ()) t
  | unlock {m : Nat} {next : Unit → LockProg A R α} {t : σ}
      (h : Reaches p s (.op (.unlock m) next) t) : Reaches p s (next ()) t
  | act {a : A} {next : R a → LockProg A R α} {t : σ} (h : Reaches p s (.op (.act a) next) t) :
      Reaches p s (next (exec a t).1) (exec a t).2

/-- A predicate holds of each state that a program on its own comes through. -/
def Always (I : σ → Prop) : LockProg A R α → σ → Prop
  | .ret _, s => I s
  | .panic, s => I s
  | .op (.lock _) next, s => I s ∧ Always I (next ()) s
  | .op (.unlock _) next, s => I s ∧ Always I (next ()) s
  | .op (.act a) next, s => I s ∧ Always I (next (exec a s).1) (exec a s).2

end

/-- Mutexes are taken in falling order, and released in the order opposite to that. `hs` are those
that a thread has. -/
def nesting : OpSpec (LockOp A) (LockOp.Res R) (List Nat)
  | .lock m, hs, Q => (∀ h ∈ hs, m < h) ∧ Q () (m :: hs)
  | .unlock m, hs, Q => ∃ rest, hs = m :: rest ∧ Q () rest
  | .act _, hs, Q => ∀ r, Q r hs

/-- A program is nested from `hs` on and leaves what `post` says. -/
def Nested (p : LockProg A R α) (hs : List Nat) (post : α → List Nat → Prop) : Prop :=
  p.wp nesting hs post fun _ => False

/-- A mutex is not touched. -/
def avoiding (m : Nat) : OpSpec (LockOp A) (LockOp.Res R) Unit
  | .lock m', r, Q => m' ≠ m ∧ Q () r
  | .unlock m', r, Q => m' ≠ m ∧ Q () r
  | .act _, r, Q => ∀ x, Q x r

/-- A program does not touch the mutex `m`. -/
def Avoids (p : LockProg A R α) (m : Nat) : Prop :=
  p.wp (avoiding m) () (fun _ _ => True) fun _ => True

theorem bind_assoc {Op : Type} {Res : Op → Type} {α β γ : Type} (p : Prog Op Res α)
    (k : α → Prog Op Res β) (l : β → Prog Op Res γ) :
    (p.bind k).bind l = p.bind fun a => (k a).bind l := by
  induction p with
  | ret a => rfl
  | panic => rfl
  | op o next ih => exact congrArg (Prog.op o) (funext ih)

theorem critical_bind {m : Nat} (p : LockProg A R α) (k : α → LockProg A R β) :
    (critical m p).bind k =
      .op (.lock m) fun _ => p.bind fun a => .op (.unlock m) fun _ => k a :=
  congrArg (Prog.op _) (funext fun _ => bind_assoc p _ k)

/-- What is made of the result may be made of it inside. -/
theorem critical_map {m : Nat} (p : LockProg A R α) (f : α → β) :
    (critical m p).bind (fun a => .ret (f a)) = critical m (p.bind fun a => .ret (f a)) := by
  rw [critical_bind, critical, bind_assoc]
  rfl

variable {exec : (a : A) → σ → R a × σ}

theorem solo_bind (p : LockProg A R α) (k : α → LockProg A R β) (s : σ) :
    (p.bind k).solo exec s =
      ((p.solo exec s).1.elim (none, (p.solo exec s).2) fun a => (k a).solo exec (p.solo exec s).2) := by
  induction p generalizing s with
  | ret a => rfl
  | panic => rfl
  | op o next ih =>
    cases o with
    | lock m => exact ih () s
    | unlock m => exact ih () s
    | act a => exact ih (exec a s).1 (exec a s).2

/-- What is left of a program ends as the whole of it does. -/
theorem Reaches.solo_eq {p q : LockProg A R α} {s t : σ} (h : p.Reaches exec s q t) :
    p.solo exec s = q.solo exec t := by
  induction h with
  | refl => rfl
  | lock h ih => exact ih
  | unlock h ih => exact ih
  | act h ih => exact ih

theorem Always.now {I : σ → Prop} {p : LockProg A R α} {s : σ} (h : p.Always exec I s) : I s := by
  cases p with
  | ret a => exact h
  | panic => exact h
  | op o next => cases o <;> exact h.1

theorem Always.reaches {I : σ → Prop} {p q : LockProg A R α} {s t : σ} (h : p.Always exec I s)
    (hr : p.Reaches exec s q t) : q.Always exec I t := by
  induction hr with
  | refl => exact h
  | lock hr ih => exact ih.2
  | unlock hr ih => exact ih.2
  | act hr ih => exact ih.2

/-- Along one program and then along another, which starts where the first one ended. -/
theorem always_bind {I : σ → Prop} {p : LockProg A R α} {k : α → LockProg A R β} {s : σ}
    (hp : p.Always exec I s)
    (hk : ∀ a, (p.solo exec s).1 = some a → (k a).Always exec I (p.solo exec s).2) :
    (p.bind k).Always exec I s := by
  induction p generalizing s with
  | ret a => exact hk a rfl
  | panic => exact hp
  | op o next ih =>
    cases o with
    | lock m => exact ⟨hp.1, ih () hp.2 hk⟩
    | unlock m => exact ⟨hp.1, ih () hp.2 hk⟩
    | act a => exact ⟨hp.1, ih _ hp.2 hk⟩

theorem nested_bind {p : LockProg A R α} {k : α → LockProg A R β} {hs : List Nat}
    {post : β → List Nat → Prop} :
    (p.bind k).Nested hs post = p.Nested hs fun a hs' => (k a).Nested hs' post :=
  wp_bind p k post

/-- A specification asks no less of an operation after which less is asked. -/
def Mono {ρ : Type} (spec : OpSpec (LockOp A) (LockOp.Res R) ρ) : Prop :=
  ∀ (o : LockOp A) (r : ρ) (Q Q' : LockOp.Res R o → ρ → Prop), (∀ x r', Q x r' → Q' x r') →
    spec o r Q → spec o r Q'

/-- What is asked of the end may be weakened. -/
theorem wp_mono {ρ : Type} {spec : OpSpec (LockOp A) (LockOp.Res R) ρ} (hspec : Mono spec)
    {p : LockProg A R α} {r : ρ} {post post' : α → ρ → Prop} {fail : ρ → Prop}
    (h : p.wp spec r post fail) (hpost : ∀ a r', post a r' → post' a r') :
    p.wp spec r post' fail := by
  induction p generalizing r with
  | ret a => exact hpost a r h
  | panic => exact h
  | op o next ih => exact hspec o r _ _ (fun x r' hx => ih x hx) h

theorem nesting_mono : Mono (nesting : OpSpec (LockOp A) (LockOp.Res R) (List Nat)) := by
  intro o hs Q Q' hQ h
  cases o with
  | lock m => exact ⟨h.1, hQ _ _ h.2⟩
  | unlock m =>
    obtain ⟨rest, rfl, hrest⟩ := h
    exact ⟨rest, rfl, hQ _ _ hrest⟩
  | act a => exact fun r => hQ _ _ (h r)

theorem avoids_bind {p : LockProg A R α} {k : α → LockProg A R β} {m : Nat} (hp : p.Avoids m)
    (hk : ∀ a, (k a).Avoids m) : (p.bind k).Avoids m := by
  induction p with
  | ret a => exact hk a
  | panic => trivial
  | op o next ih =>
    cases o with
    | lock m' => exact ⟨hp.1, ih () hp.2⟩
    | unlock m' => exact ⟨hp.1, ih () hp.2⟩
    | act a => exact fun r => ih r (hp r)

theorem Avoids.reaches {p q : LockProg A R α} {m : Nat} {s t : σ} (h : p.Avoids m)
    (hr : p.Reaches exec s q t) : q.Avoids m := by
  induction hr with
  | refl => exact h
  | lock hr ih => exact ih.2
  | unlock hr ih => exact ih.2
  | act hr ih => exact ih _

end Prog

/-! ## Threads -/

namespace LockThreads

variable {σ A : Type} {R : A → Type} {α : Type} (exec : (a : A) → σ → R a × σ)

/-- Programs that have not begun; nobody has a mutex. -/
def start (s : σ) (threads : List (LockProg A R α)) : LockThreads σ A R α :=
  ⟨fun _ => none, s, threads⟩

/-- A step of thread `i`, if it has one. -/
def step (i : Nat) (st : LockThreads σ A R α) : Option (LockThreads σ A R α) :=
  st.threads[i]?.bind fun p =>
    (p.proceed exec i st.owner st.state).map fun r => ⟨r.2.1, r.2.2, st.threads.set i r.1⟩

/-- An interleaving, if each of its steps can be made. -/
def run : List Nat → LockThreads σ A R α → Option (LockThreads σ A R α)
  | [], st => some st
  | i :: is, st => (step exec i st).bind (run is)

/-- All threads have returned. -/
def Returned (st : LockThreads σ A R α) : Prop := ∀ p ∈ st.threads, ∃ a, p = .ret a

variable {exec} {st st' : LockThreads σ A R α} {i : Nat}

/-- What a step can do: one thread, which does not have to wait, goes on. -/
theorem step_cases (h : step exec i st = some st') :
    ∃ o next p' owner' s', st.threads[i]? = some (.op o next) ∧
      Prog.proceed exec i st.owner st.state (.op o next) = some (p', owner', s') ∧
      st' = ⟨owner', s', st.threads.set i p'⟩ := by
  obtain ⟨p, hp, h⟩ := Option.bind_eq_some_iff.mp h
  obtain ⟨⟨p', owner', s'⟩, hproceed, rfl⟩ := Option.map_eq_some_iff.mp h
  cases p with
  | ret a => cases hproceed
  | panic => cases hproceed
  | op o next => exact ⟨o, next, p', owner', s', hp, hproceed, rfl⟩

/-- What each step keeps holds after an interleaving. -/
theorem run_keeps (Inv : LockThreads σ A R α → Prop)
    (hstep : ∀ {st i st'}, Inv st → step exec i st = some st' → Inv st') {is : List Nat}
    (h : Inv st) (hrun : run exec is st = some st') : Inv st' := by
  induction is generalizing st with
  | nil =>
    cases hrun
    exact h
  | cons i is ih =>
    obtain ⟨mid, hmid, hrest⟩ := Option.bind_eq_some_iff.mp hrun
    exact ih (hstep h hmid) hrest

/-- There are as many threads as there were. -/
theorem run_length {is : List Nat} (hrun : run exec is st = some st') :
    st'.threads.length = st.threads.length := by
  refine run_keeps (fun st' => st'.threads.length = st.threads.length) ?_ rfl hrun
  intro mid i mid' hmid hstep
  obtain ⟨_, _, _, _, _, -, -, rfl⟩ := step_cases hstep
  rw [List.length_set]
  exact hmid

/-! ### There are no endless runs -/

/-- What is left of a program after one operation. -/
def Child (q p : LockProg A R α) : Prop := ∃ o next r, p = .op o next ∧ q = next r

theorem child_wf : WellFounded (Child : LockProg A R α → LockProg A R α → Prop) := by
  refine ⟨fun p => ?_⟩
  induction p with
  | ret a =>
    refine ⟨_, ?_⟩
    rintro q ⟨o, next, r, hp, -⟩
    cases hp
  | panic =>
    refine ⟨_, ?_⟩
    rintro q ⟨o, next, r, hp, -⟩
    cases hp
  | op o next ih =>
    refine ⟨_, ?_⟩
    rintro q ⟨o', next', r, hp, rfl⟩
    cases hp
    exact ih r

theorem proceed_child {p p' : LockProg A R α} {owner owner' : Nat → Option Nat} {s s' : σ}
    (h : p.proceed exec i owner s = some (p', owner', s')) : Child p' p := by
  cases p with
  | ret a => cases h
  | panic => cases h
  | op o next =>
    cases o with
    | lock m =>
      simp only [Prog.proceed] at h
      split at h
      · cases h
        exact ⟨_, next, (), rfl, rfl⟩
      · cases h
    | unlock m =>
      cases h
      exact ⟨_, next, (), rfl, rfl⟩
    | act a =>
      cases h
      exact ⟨_, next, (exec a s).1, rfl, rfl⟩

variable (exec) in
/-- Steps cannot go on for ever: a step replaces one of finitely many programs by what is left
of it. -/
theorem step_wf :
    WellFounded fun st' st : LockThreads σ A R α => ∃ i, step exec i st = some st' := by
  have hcut := child_wf (A := A) (R := R) (α := α) |>.cutExpand
  refine Subrelation.wf ?_
    (InvImage.wf (fun st : LockThreads σ A R α => (st.threads : Multiset (LockProg A R α))) hcut)
  rintro st' st ⟨i, hstep⟩
  obtain ⟨o, next, p', owner', s', hi, hproceed, rfl⟩ := step_cases hstep
  obtain ⟨hlt, hget⟩ := List.getElem?_eq_some_iff.mp hi
  refine ⟨{p'}, .op o next, fun q hq => ?_, ?_⟩
  · obtain rfl := Multiset.mem_singleton.mp hq
    exact proceed_child hproceed
  · -- the list is the same but for the place `i`
    have hsplit := List.take_append_drop i st.threads
    rw [← List.getElem_cons_drop hlt, hget] at hsplit
    simp only [List.set_eq_take_append_cons_drop, if_pos hlt]
    nth_rewrite 3 [← hsplit]
    simp only [← Multiset.coe_add, ← Multiset.cons_coe, ← Multiset.singleton_add]
    ac_rfl

/-! ### Resources

A thread has a resource, which says among other things which mutexes it holds. Operations are
specified by the resource that they need and the one that they leave, as in `Ownership`; here an
operation on a mutex may have to wait. -/

section Locking

variable {ρ : Type}

/-- The operations meet their specification and keep an invariant between the resources of all
threads, the owners of mutexes and the state. A thread that holds mutexes takes smaller ones only. -/
structure Locking (exec : (a : A) → σ → R a × σ) (spec : OpSpec (LockOp A) (LockOp.Res R) ρ)
    (held : ρ → List Nat) (inv : (Nat → ρ) → (Nat → Option Nat) → σ → Prop) : Prop where
  owned {res : Nat → ρ} {owner : Nat → Option Nat} {s : σ} (h : inv res owner s) {m i : Nat} :
    owner m = some i ↔ m ∈ held (res i)
  falling {m : Nat} {r : ρ} {Q : Unit → ρ → Prop} (h : spec (.lock m) r Q) : ∀ m' ∈ held r, m < m'
  lock {res : Nat → ρ} {owner : Nat → Option Nat} {s : σ} {m i : Nat} {Q : Unit → ρ → Prop}
    (h : inv res owner s) (hfree : owner m = none) (hspec : spec (.lock m) (res i) Q) :
    ∃ r, Q () r ∧ inv (Function.update res i r) (Function.update owner m (some i)) s
  unlock {res : Nat → ρ} {owner : Nat → Option Nat} {s : σ} {m i : Nat} {Q : Unit → ρ → Prop}
    (h : inv res owner s) (hspec : spec (.unlock m) (res i) Q) :
    ∃ r, Q () r ∧ inv (Function.update res i r) (Function.update owner m none) s
  act {res : Nat → ρ} {owner : Nat → Option Nat} {s : σ} {a : A} {i : Nat} {Q : R a → ρ → Prop}
    (h : inv res owner s) (hspec : spec (.act a) (res i) Q) :
    ∃ r, Q (exec a s).1 r ∧ inv (Function.update res i r) owner (exec a s).2

/-- Each thread has its precondition and the invariant holds. In the end a thread holds no mutex. -/
structure Disciplined (spec : OpSpec (LockOp A) (LockOp.Res R) ρ) (held : ρ → List Nat)
    (inv : (Nat → ρ) → (Nat → Option Nat) → σ → Prop) (post : Nat → α → ρ → Prop)
    (res : Nat → ρ) (st : LockThreads σ A R α) : Prop where
  inv : inv res st.owner st.state
  wp {i : Nat} {p : LockProg A R α} (hi : st.threads[i]? = some p) :
    p.wp spec (res i) (post i) fun _ => False
  outside {i : Nat} (hi : st.threads[i]? = none) : held (res i) = []
  done {i : Nat} {a : α} {r : ρ} (h : post i a r) : held r = []

variable {spec : OpSpec (LockOp A) (LockOp.Res R) ρ} {held : ρ → List Nat}
  {inv : (Nat → ρ) → (Nat → Option Nat) → σ → Prop} {post : Nat → α → ρ → Prop} {res : Nat → ρ}

/-- The next operation of a thread. -/
theorem Locking.proceed (hl : Locking exec spec held inv) {p p' : LockProg A R α}
    {owner owner' : Nat → Option Nat} {s s' : σ} {Q : α → ρ → Prop} (h : inv res owner s)
    (hp : p.wp spec (res i) Q fun _ => False)
    (hproceed : p.proceed exec i owner s = some (p', owner', s')) :
    ∃ r, (p'.wp spec r Q fun _ => False) ∧ inv (Function.update res i r) owner' s' := by
  cases p with
  | ret a => cases hproceed
  | panic => cases hproceed
  | op o next =>
    cases o with
    | lock m =>
      simp only [Prog.proceed] at hproceed
      split at hproceed
      next hfree =>
        cases hproceed
        exact hl.lock h hfree hp
      next => cases hproceed
    | unlock m =>
      cases hproceed
      exact hl.unlock h hp
    | act a =>
      cases hproceed
      exact hl.act h hp

theorem Disciplined.step (hl : Locking exec spec held inv)
    (h : st.Disciplined spec held inv post res) (hstep : step exec i st = some st') :
    ∃ r, st'.Disciplined spec held inv post (Function.update res i r) := by
  obtain ⟨o, next, p', owner', s', hi, hproceed, rfl⟩ := step_cases hstep
  obtain ⟨r, hp', hinv⟩ := hl.proceed h.inv (h.wp hi) hproceed
  obtain ⟨hlt, -⟩ := List.getElem?_eq_some_iff.mp hi
  refine ⟨r, hinv, ?_, ?_, h.done⟩
  · intro j q hj
    by_cases hji : j = i
    · subst hji
      rw [List.getElem?_set_self hlt] at hj
      cases hj
      rwa [Function.update_self]
    · rw [List.getElem?_set_ne (Ne.symm hji)] at hj
      rw [Function.update_of_ne hji]
      exact h.wp hj
  · intro j hj
    have hji : j ≠ i := by
      rintro rfl
      rw [List.getElem?_set_self hlt] at hj
      cases hj
    rw [List.getElem?_set_ne (Ne.symm hji)] at hj
    rw [Function.update_of_ne hji]
    exact h.outside hj

theorem Disciplined.run (hl : Locking exec spec held inv) {is : List Nat}
    (h : st.Disciplined spec held inv post res) (hrun : run exec is st = some st') :
    ∃ res', st'.Disciplined spec held inv post res' :=
  run_keeps (fun st => ∃ res, st.Disciplined spec held inv post res)
    (fun h hstep => by
      obtain ⟨res, h⟩ := h
      obtain ⟨r, h'⟩ := h.step hl hstep
      exact ⟨_, h'⟩)
    ⟨res, h⟩ hrun

/-- Where a thread cannot go on it has ended, or waits for a mutex that somebody has. -/
theorem waits_of_stuck {p : LockProg A R α} (hstuck : LockThreads.step exec i st = none)
    (hi : st.threads[i]? = some p) :
    p.ended = true ∨ ∃ m next j, p = .op (.lock m) next ∧ st.owner m = some j := by
  cases p with
  | ret a => exact .inl rfl
  | panic => exact .inl rfl
  | op o next =>
    simp only [LockThreads.step, hi, Option.bind_some] at hstuck
    cases o with
    | lock m =>
      simp only [Prog.proceed] at hstuck
      split at hstuck
      · cases hstuck
      next hne =>
        obtain ⟨j, hj⟩ := Option.ne_none_iff_exists'.mp hne
        exact .inr ⟨m, next, j, rfl, hj⟩
    | unlock m => cases hstuck
    | act a => cases hstuck

/-- Nobody waits where nobody can go on. By induction on the mutex that is waited for: who has it
waits for a smaller one. -/
theorem Disciplined.no_waiter (hl : Locking exec spec held inv)
    (h : st.Disciplined spec held inv post res)
    (hstuck : ∀ i, LockThreads.step exec i st = none) (m : Nat) :
    ∀ (i : Nat) (next : Unit → LockProg A R α), st.threads[i]? ≠ some (.op (.lock m) next) := by
  induction m using Nat.strongRecOn with
  | _ m ih =>
    intro i next hi
    obtain hend | ⟨m', _, j, hm', howner⟩ := waits_of_stuck (hstuck i) hi
    · cases hend
    cases hm'
    have hmem : m ∈ held (res j) := (hl.owned h.inv).mp howner
    cases hj : st.threads[j]? with
    | none =>
      rw [h.outside hj] at hmem
      cases hmem
    | some q =>
      have hq := h.wp hj
      obtain hend | ⟨m', next', _, rfl, -⟩ := waits_of_stuck (hstuck j) hj
      · cases q with
        | ret a =>
          rw [h.done hq] at hmem
          cases hmem
        | panic => exact hq
        | op o next' => cases hend
      · exact ih m' (hl.falling hq m hmem) j next' hj

/-- Where nobody can go on all have returned. -/
theorem Disciplined.returned_of_stuck (hl : Locking exec spec held inv)
    (h : st.Disciplined spec held inv post res)
    (hstuck : ∀ i, LockThreads.step exec i st = none) : st.Returned := by
  intro p hp
  obtain ⟨i, hi⟩ := List.mem_iff_getElem?.mp hp
  have hwp := h.wp hi
  obtain hend | ⟨m, next, _, rfl, -⟩ := waits_of_stuck (hstuck i) hi
  · cases p with
    | ret a => exact ⟨a, rfl⟩
    | panic => exact hwp.elim
    | op o next => cases hend
  · exact absurd hi (h.no_waiter hl hstuck m i next)

/-- Every run can be completed. -/
theorem Disciplined.completes (hl : Locking exec spec held inv)
    (h : st.Disciplined spec held inv post res) :
    ∃ is st', LockThreads.run exec is st = some st' ∧ st'.Returned := by
  induction st using (step_wf exec).induction generalizing res with
  | _ st ih =>
    by_cases hstuck : ∀ i, LockThreads.step exec i st = none
    · exact ⟨[], st, rfl, h.returned_of_stuck hl hstuck⟩
    · obtain ⟨i, hi⟩ := not_forall.mp hstuck
      obtain ⟨mid, hmid⟩ := Option.ne_none_iff_exists'.mp hi
      obtain ⟨r, h'⟩ := h.step hl hmid
      obtain ⟨is, st', hrun, hret⟩ := ih mid ⟨i, hmid⟩ h'
      exact ⟨i :: is, st', Option.bind_eq_some_iff.mpr ⟨mid, hmid, hrun⟩, hret⟩

end Locking

/-! ### Nested threads -/

/-- Threads hold what they own, and took it in falling order. -/
structure Holding (held : Nat → List Nat) (owner : Nat → Option Nat) : Prop where
  owned {m i : Nat} : owner m = some i ↔ m ∈ held i
  falling (i : Nat) : (held i).Pairwise (· < ·)

namespace Holding

variable {held : Nat → List Nat} {owner : Nat → Option Nat} {m : Nat}

/-- A thread takes a mutex that is smaller than those it has. -/
theorem lock (h : Holding held owner) (hfree : owner m = none) (hfalling : ∀ m' ∈ held i, m < m') :
    Holding (Function.update held i (m :: held i)) (Function.update owner m (some i)) := by
  have hnobody : ∀ j, m ∉ held j := by
    intro j hj
    rw [h.owned.mpr hj] at hfree
    cases hfree
  constructor
  case owned =>
    intro m' j
    by_cases hm : m' = m
    · subst hm
      by_cases hj : j = i
      · subst hj
        simp only [Function.update_self, List.mem_cons_self]
      · simp only [Function.update_self, Function.update_of_ne hj, hnobody j, iff_false]
        exact fun heq => hj (Option.some.inj heq).symm
    · rw [Function.update_of_ne hm]
      by_cases hj : j = i
      · subst hj
        rw [Function.update_self, List.mem_cons, or_iff_right hm]
        exact h.owned
      · rw [Function.update_of_ne hj]
        exact h.owned
  case falling =>
    intro j
    by_cases hj : j = i
    · subst hj
      rw [Function.update_self]
      exact List.pairwise_cons.mpr ⟨hfalling, h.falling j⟩
    · rw [Function.update_of_ne hj]
      exact h.falling j

/-- A thread releases the mutex that it took last. -/
theorem unlock (h : Holding held owner) {rest : List Nat} (hheld : held i = m :: rest) :
    Holding (Function.update held i rest) (Function.update owner m none) := by
  obtain ⟨hbelow, hfalling⟩ := List.pairwise_cons.mp (hheld ▸ h.falling i)
  have howner : owner m = some i := h.owned.mpr (hheld ▸ List.mem_cons_self)
  constructor
  case owned =>
    intro m' j
    by_cases hm : m' = m
    · subst hm
      rw [Function.update_self]
      refine iff_of_false (fun heq => by cases heq) fun hj => ?_
      by_cases hji : j = i
      · subst hji
        rw [Function.update_self] at hj
        exact Nat.lt_irrefl _ (hbelow _ hj)
      · rw [Function.update_of_ne hji] at hj
        rw [h.owned.mpr hj] at howner
        exact hji (Option.some.inj howner)
    · rw [Function.update_of_ne hm, h.owned]
      by_cases hji : j = i
      · subst hji
        rw [hheld, Function.update_self, List.mem_cons, or_iff_right hm]
      · rw [Function.update_of_ne hji]
  case falling =>
    intro j
    by_cases hj : j = i
    · subst hj
      rwa [Function.update_self]
    · rw [Function.update_of_ne hj]
      exact h.falling j

end Holding

/-- Nested programs, whatever their actions do. -/
theorem nesting_locking (exec : (a : A) → σ → R a × σ) :
    Locking exec Prog.nesting id fun held owner _ => Holding held owner where
  owned h := h.owned
  falling h := h.1
  lock h hfree hspec := ⟨_, hspec.2, h.lock hfree hspec.1⟩
  unlock {res owner s m i Q} h hspec := by
    obtain ⟨rest, hheld, hQ⟩ := hspec
    exact ⟨rest, hQ, h.unlock hheld⟩
  act {res owner s a i Q} h hspec := ⟨res i, hspec _, by rwa [Function.update_eq_self]⟩

theorem Disciplined.of_nested {s : σ} {threads : List (LockProg A R α)}
    (h : ∀ p ∈ threads, p.Nested [] fun _ hs => hs = []) :
    (start s threads).Disciplined Prog.nesting id (fun held owner _ => Holding held owner)
      (fun _ _ hs => hs = []) fun _ => [] where
  inv := ⟨iff_of_false (fun h => by cases h) List.not_mem_nil, fun _ => List.Pairwise.nil⟩
  wp hi := h _ (List.mem_of_getElem? hi)
  outside _ := rfl
  done h := h

/-! ### One mutex around everything -/

/-- A call that has returned: who made it, what it was, and what came of it. -/
structure Made (C β : Type) where
  thread : Nat
  call : C
  result : β

section Serial

variable {C β : Type} {m : Nat} {body : C → LockProg A R β} {todo : Nat → List C} {s₀ : σ}

variable (exec body) in
/-- Calls that were made one after the other, and the state after them. -/
inductive Sequential (s₀ : σ) : List (Made C β) → σ → Prop where
  | nil : Sequential s₀ [] s₀
  | snoc {done : List (Made C β)} {t t' : σ} {d : Made C β} (h : Sequential s₀ done t)
      (hd : (body d.call).solo exec t = (some d.result, t')) : Sequential s₀ (done ++ [d]) t'

/-- The calls of one thread. -/
def mine (i : Nat) (done : List (Made C β)) : List (Made C β) :=
  done.filter fun d => d.thread == i

variable (m body) in
/-- A thread that makes calls, each of them with the mutex. -/
def session (returned : List β) (cs : List C) : LockProg A R (List β) :=
  Prog.calls (fun c => Prog.critical m (body c)) returned cs

variable (m body todo) in
/-- A thread is between two calls. -/
def Between (done : List (Made C β)) (i : Nat) (p : LockProg A R (List β)) : Prop :=
  ∃ rest, todo i = (mine i done).map Made.call ++ rest ∧
    p = session m body ((mine i done).map Made.result) rest

variable (exec m body todo) in
/-- A thread is inside a call, which found the state `t` and has come to the state `s`. -/
def Inside (done : List (Made C β)) (t s : σ) (i : Nat) (p : LockProg A R (List β)) : Prop :=
  ∃ c rest q, todo i = (mine i done).map Made.call ++ c :: rest ∧ (body c).Reaches exec t q s ∧
    p = q.bind fun b =>
      .op (.unlock m) fun _ => session m body ((mine i done).map Made.result ++ [b]) rest

variable (exec m body todo s₀) in
/-- Some calls were made one after the other; whoever has the mutex is inside the next one. -/
structure Serial (done : List (Made C β)) (t : σ) (st : LockThreads σ A R (List β)) : Prop where
  sequential : Sequential exec body s₀ done t
  free (h : st.owner m = none) : st.state = t
  between {i : Nat} {p : LockProg A R (List β)} (hi : st.threads[i]? = some p)
    (h : st.owner m ≠ some i) : Between m body todo done i p
  inside {i : Nat} (h : st.owner m = some i) :
    ∃ p, st.threads[i]? = some p ∧ Inside exec m body todo done t st.state i p
  known {d : Made C β} (hd : d ∈ done) : d.thread < st.threads.length

theorem Serial.of_start (s₀ : σ) (todo : List (List C)) :
    (start s₀ (todo.map (session m body []))).Serial exec m body (fun i => todo.getD i []) s₀ []
      s₀ where
  sequential := .nil
  free _ := rfl
  between {i p} hi _ := by
    simp only [start, List.getElem?_map, Option.map_eq_some_iff] at hi
    obtain ⟨cs, hcs, rfl⟩ := hi
    exact ⟨cs, by simp only [List.getD_eq_getElem?_getD, hcs]; rfl, rfl⟩
  inside h := by cases h
  known hd := by cases hd

theorem mine_append_self (done : List (Made C β)) (i : Nat) (c : C) (b : β) :
    mine i (done ++ [⟨i, c, b⟩]) = mine i done ++ [⟨i, c, b⟩] := by
  simp only [mine, List.filter_append, List.filter_cons, beq_self_eq_true, if_true, List.filter_nil]

theorem mine_append_of_ne (done : List (Made C β)) {i j : Nat} (hj : i ≠ j) (c : C) (b : β) :
    mine j (done ++ [⟨i, c, b⟩]) = mine j done := by
  simp only [mine, List.filter_append, List.filter_cons, beq_eq_false_iff_ne.mpr hj,
    Bool.false_eq_true, if_false, List.filter_nil, List.append_nil]

section

variable {done : List (Made C β)} {t : σ} {st st' : LockThreads σ A R (List β)} {i : Nat}
  {q : LockProg A R (List β)}

/-- A thread between two calls takes the mutex. -/
theorem Serial.enter (h : st.Serial exec m body todo s₀ done t) (hi : st.threads[i]? = some q)
    (hfree : st.owner m = none) {c : C} {rest : List C}
    (htodo : todo i = (mine i done).map Made.call ++ c :: rest) :
    (⟨Function.update st.owner m (some i), st.state, st.threads.set i
      ((body c).bind fun b =>
        .op (.unlock m) fun _ => session m body ((mine i done).map Made.result ++ [b]) rest)⟩ :
      LockThreads σ A R (List β)).Serial exec m body todo s₀ done t := by
  obtain ⟨hlt, -⟩ := List.getElem?_eq_some_iff.mp hi
  constructor
  case sequential => exact h.sequential
  case free =>
    intro hnone
    dsimp only at hnone
    rw [Function.update_self] at hnone
    cases hnone
  case between =>
    intro j p hj hne
    dsimp only at hj hne
    rw [Function.update_self] at hne
    have hij : i ≠ j := fun heq => hne (congrArg some heq)
    rw [List.getElem?_set_ne hij] at hj
    exact h.between hj (by rw [hfree]; exact fun heq => by cases heq)
  case inside =>
    intro j hj
    dsimp only at hj
    rw [Function.update_self] at hj
    cases hj
    refine ⟨_, List.getElem?_set_self hlt, c, rest, body c, htodo, ?_, rfl⟩
    rw [h.free hfree]
    exact .refl
  case known =>
    intro d hd
    rw [List.length_set]
    exact h.known hd

/-- The call that has the mutex does something. -/
theorem Serial.advance (h : st.Serial exec m body todo s₀ done t) (hi : st.threads[i]? = some q)
    (howner : st.owner m = some i) {owner' : Nat → Option Nat} {s' : σ} {c : C} {rest : List C}
    {p : LockProg A R β} (htodo : todo i = (mine i done).map Made.call ++ c :: rest)
    (howner' : owner' m = st.owner m) (hp : (body c).Reaches exec t p s') :
    (⟨owner', s', st.threads.set i (p.bind fun b =>
        .op (.unlock m) fun _ => session m body ((mine i done).map Made.result ++ [b]) rest)⟩ :
      LockThreads σ A R (List β)).Serial exec m body todo s₀ done t := by
  obtain ⟨hlt, -⟩ := List.getElem?_eq_some_iff.mp hi
  constructor
  case sequential => exact h.sequential
  case free =>
    intro hnone
    dsimp only at hnone
    rw [howner', howner] at hnone
    cases hnone
  case between =>
    intro j p' hj hne
    dsimp only at hj hne
    rw [howner'] at hne
    have hij : i ≠ j := by
      rintro rfl
      exact hne howner
    rw [List.getElem?_set_ne hij] at hj
    exact h.between hj hne
  case inside =>
    intro j hj
    dsimp only at hj
    rw [howner', howner] at hj
    cases hj
    exact ⟨_, List.getElem?_set_self hlt, c, rest, p, htodo, hp, rfl⟩
  case known =>
    intro d hd
    rw [List.length_set]
    exact h.known hd

/-- The call that has the mutex releases it. -/
theorem Serial.leave (h : st.Serial exec m body todo s₀ done t) (hi : st.threads[i]? = some q)
    (howner : st.owner m = some i) {c : C} {rest : List C} {b : β}
    (htodo : todo i = (mine i done).map Made.call ++ c :: rest)
    (hp : (body c).Reaches exec t (.ret b) st.state) :
    (⟨Function.update st.owner m none, st.state, st.threads.set i
      (session m body ((mine i done).map Made.result ++ [b]) rest)⟩ :
      LockThreads σ A R (List β)).Serial exec m body todo s₀ (done ++ [⟨i, c, b⟩]) st.state := by
  obtain ⟨hlt, -⟩ := List.getElem?_eq_some_iff.mp hi
  constructor
  case sequential => exact h.sequential.snoc hp.solo_eq
  case free => exact fun _ => rfl
  case between =>
    intro j p hj _
    dsimp only at hj
    by_cases hij : i = j
    · subst hij
      rw [List.getElem?_set_self hlt] at hj
      cases hj
      refine ⟨rest, ?_, ?_⟩
      · rw [mine_append_self, List.map_append, List.append_assoc]
        exact htodo
      · rw [mine_append_self, List.map_append]
        rfl
    · rw [List.getElem?_set_ne hij] at hj
      have hne : st.owner m ≠ some j := by
        rw [howner]
        exact fun heq => hij (Option.some.inj heq)
      unfold Between
      rw [mine_append_of_ne done hij]
      exact h.between hj hne
  case inside =>
    intro j hj
    dsimp only at hj
    rw [Function.update_self] at hj
    cases hj
  case known =>
    intro d hd
    rw [List.length_set]
    obtain hd | hd := List.mem_append.mp hd
    · exact h.known hd
    · rw [List.mem_singleton.mp hd]
      exact hlt

/-- A step is the taking of the mutex, its release, or something that the call with the mutex
does. -/
theorem Serial.step (havoid : ∀ c, (body c).Avoids m) (h : st.Serial exec m body todo s₀ done t)
    (hstep : LockThreads.step exec i st = some st') :
    ∃ done' t', st'.Serial exec m body todo s₀ done' t' := by
  obtain ⟨o, next, p', owner', s', hi, hproceed, rfl⟩ := step_cases hstep
  by_cases howner : st.owner m = some i
  case neg =>
    obtain ⟨rest, htodo, hp⟩ := h.between hi howner
    cases rest with
    | nil => cases hp
    | cons c rest =>
      rw [session, Prog.calls, Prog.critical_bind] at hp
      cases hp
      simp only [Prog.proceed] at hproceed
      split at hproceed
      next hfree =>
        cases hproceed
        exact ⟨done, t, h.enter hi hfree htodo⟩
      next => cases hproceed
  case pos =>
    obtain ⟨_, hi', c, rest, q, htodo, hq, rfl⟩ := h.inside howner
    rw [hi] at hi'
    have hp := Option.some.inj hi'
    have havoids := (havoid c).reaches hq
    cases q with
    | panic => cases hp
    | ret b =>
      cases hp
      cases hproceed
      exact ⟨_, _, h.leave hi howner htodo hq⟩
    | op o' next' =>
      cases hp
      cases o with
      | lock m' =>
        simp only [Prog.proceed] at hproceed
        split at hproceed
        · cases hproceed
          exact ⟨done, t, h.advance hi howner htodo
            (Function.update_of_ne (Ne.symm havoids.1) _ _) hq.lock⟩
        · cases hproceed
      | unlock m' =>
        cases hproceed
        exact ⟨done, t, h.advance hi howner htodo
          (Function.update_of_ne (Ne.symm havoids.1) _ _) hq.unlock⟩
      | act a =>
        cases hproceed
        exact ⟨done, t, h.advance hi howner htodo rfl hq.act⟩

/-- An interleaving does what the calls do one after the other. -/
theorem run_serial (havoid : ∀ c, (body c).Avoids m) (todo : List (List C)) {is : List Nat}
    (hrun : run exec is (start s₀ (todo.map (session m body []))) = some st) :
    ∃ done t, st.Serial exec m body (fun i => todo.getD i []) s₀ done t :=
  run_keeps (fun st => ∃ done t, st.Serial exec m body (fun i => todo.getD i []) s₀ done t)
    (fun h hstep => by
      obtain ⟨done, t, h⟩ := h
      exact h.step havoid hstep)
    ⟨[], s₀, .of_start s₀ todo⟩ hrun

/-- Nobody has made a call that was not to be made. -/
theorem Serial.made_prefix (h : st.Serial exec m body todo s₀ done t) (i : Nat) :
    (mine i done).map Made.call <+: todo i := by
  cases hi : st.threads[i]? with
  | some p =>
    by_cases howner : st.owner m = some i
    · obtain ⟨_, -, c, rest, -, htodo, -⟩ := h.inside howner
      exact ⟨c :: rest, htodo.symm⟩
    · obtain ⟨rest, htodo, -⟩ := h.between hi howner
      exact ⟨rest, htodo.symm⟩
  | none =>
    -- there is no such thread
    have hnone : mine i done = [] := by
      refine List.filter_eq_nil_iff.mpr fun d hd => ?_
      have hlt := h.known hd
      have hge := List.getElem?_eq_none_iff.mp hi
      rw [beq_iff_eq]
      omega
    rw [hnone]
    exact List.nil_prefix

/-- Where all threads have returned nobody has the mutex. -/
theorem Serial.released (h : st.Serial exec m body todo s₀ done t) (hret : st.Returned) :
    st.owner m = none := by
  cases howner : st.owner m with
  | none => rfl
  | some i =>
    exfalso
    obtain ⟨p, hi, c, rest, q, -, -, hp⟩ := h.inside howner
    obtain ⟨a, rfl⟩ := hret p (List.mem_of_getElem? hi)
    cases q <;> cases hp

/-- And then all calls were made, and each thread has what its calls returned. -/
theorem Serial.complete (h : st.Serial exec m body todo s₀ done t) (hret : st.Returned)
    (hi : st.threads[i]? = some q) :
    (mine i done).map Made.call = todo i ∧ q = .ret ((mine i done).map Made.result) := by
  have hnot : st.owner m ≠ some i := by
    rw [h.released hret]
    exact fun heq => by cases heq
  obtain ⟨rest, htodo, hq⟩ := h.between hi hnot
  obtain ⟨a, rfl⟩ := hret q (List.mem_of_getElem? hi)
  cases rest with
  | nil => exact ⟨by rw [htodo, List.append_nil], hq⟩
  | cons c rest =>
    rw [session, Prog.calls, Prog.critical_bind] at hq
    cases hq

end

end Serial

end LockThreads

end Zap.Data
