import Mathlib.Data.List.Basic

/-!
# Programs and threads

A program is the operations that it asks for, one at a time, and how it goes on with each answer.
Programs run as threads over one shared state, in any interleaving. What an operation leaves open is
decided by a choice, so that every operation is a function.

A thread is interrupted before an operation, unless the operation is silent. Silent are those that
act on what the thread has for itself.
-/

set_option autoImplicit false

namespace Zap.Data

/-- A program over operations `Op`, of which `o` is answered by a `Res o`. -/
inductive Prog (Op : Type) (Res : Op → Type) (α : Type) where
  | ret (a : α)
  | panic
  | op (o : Op) (next : Res o → Prog Op Res α)

namespace Prog

variable {Op : Type} {Res : Op → Type} {α β γ : Type}

/-- One program after another. A panic ends both. -/
def bind : Prog Op Res α → (α → Prog Op Res β) → Prog Op Res β
  | .ret a, k => k a
  | .panic, _ => .panic
  | .op o next, k => .op o fun x => (next x).bind k

instance : Monad (Prog Op Res) where
  pure := .ret
  bind := Prog.bind

/-- `defer`: the cleanup runs when the program has ended, also when it has panicked. -/
def defer : Prog Op Res α → Prog Op Res Unit → Prog Op Res α
  | .ret a, cleanup => cleanup.bind fun _ => .ret a
  | .panic, cleanup => cleanup.bind fun _ => .panic
  | .op o next, cleanup => .op o fun x => (next x).defer cleanup

/-- What a program that has ended returned. -/
def result? : Prog Op Res α → Option α
  | .ret a => some a
  | _ => none

/-- Whether a program has ended. -/
def ended : Prog Op Res α → Bool
  | .op _ _ => false
  | _ => true

end Prog

/-- What operations do to the shared state, and which of them are silent. -/
structure Machine (σ χ Op : Type) (Res : Op → Type) where
  exec : χ → (o : Op) → σ → Res o × σ
  silent : Op → Bool

/-- Threads and their shared state. -/
structure Threads (σ Op : Type) (Res : Op → Type) (α : Type) where
  shared : σ
  threads : List (Prog Op Res α)

namespace Machine

variable {σ χ Op : Type} {Res : Op → Type} {α : Type} (m : Machine σ χ Op Res)

/-- Go on up to the next operation that is not silent. -/
def settle (c : χ) : Prog Op Res α → σ → Prog Op Res α × σ
  | .ret a, s => (.ret a, s)
  | .panic, s => (.panic, s)
  | .op o next, s =>
    if m.silent o then settle c (next (m.exec c o s).1) (m.exec c o s).2 else (.op o next, s)

/-- The operation at which a thread is, and then silent ones. -/
def advance (c : χ) (o : Op) (next : Res o → Prog Op Res α) (s : σ) : Prog Op Res α × σ :=
  m.settle c (next (m.exec c o s).1) (m.exec c o s).2

/-- A step of thread `i`, if it has not ended. -/
def step (c : χ) (i : Nat) (st : Threads σ Op Res α) : Option (Threads σ Op Res α) :=
  match st.threads[i]? with
  | some (.op o next) =>
    let (p, s) := m.advance c o next st.shared
    some ⟨s, st.threads.set i p⟩
  | _ => none

/-- A new thread. -/
def spawn (c : χ) (p : Prog Op Res α) (st : Threads σ Op Res α) : Threads σ Op Res α :=
  ⟨(m.settle c p st.shared).2, st.threads ++ [(m.settle c p st.shared).1]⟩

/-- An interleaving, if each of its steps can be made. -/
def run : List (χ × Nat) → Threads σ Op Res α → Option (Threads σ Op Res α)
  | [], st => some st
  | (c, i) :: rest, st => (m.step c i st).bind (run rest)

variable {m} {st st' : Threads σ Op Res α} {c : χ} {i : Nat}

/-- What a step can do: one thread, which has not ended, goes on. -/
theorem step_split (h : m.step c i st = some st') :
    ∃ l₁ o next l₂, l₁.length = i ∧ st.threads = l₁ ++ .op o next :: l₂ ∧
      st' = ⟨(m.advance c o next st.shared).2, l₁ ++ (m.advance c o next st.shared).1 :: l₂⟩ := by
  unfold step at h
  split at h
  · next o next hi =>
    cases h
    obtain ⟨hlt, hget⟩ := List.getElem?_eq_some_iff.mp hi
    refine ⟨st.threads.take i, o, next, st.threads.drop (i + 1),
      List.length_take_of_le (Nat.le_of_lt hlt), ?_, ?_⟩
    · rw [← hget, List.getElem_cons_drop, List.take_append_drop]
    · rw [List.set_eq_take_append_cons_drop, if_pos hlt]
      rfl
  · cases h

/-- The same, by the number of the thread. -/
theorem step_set (h : m.step c i st = some st') :
    ∃ o next, st.threads[i]? = some (.op o next) ∧
      st' = ⟨(m.advance c o next st.shared).2,
        st.threads.set i (m.advance c o next st.shared).1⟩ := by
  unfold step at h
  split at h
  · next o next hi =>
    cases h
    exact ⟨o, next, hi, rfl⟩
  · cases h

/-- A thread that has not ended can go on. -/
theorem step_append {l₁ l₂ : List (Prog Op Res α)} {o : Op} {next : Res o → Prog Op Res α} {s : σ} :
    m.step c l₁.length ⟨s, l₁ ++ .op o next :: l₂⟩ =
      some ⟨(m.advance c o next s).2, l₁ ++ (m.advance c o next s).1 :: l₂⟩ := by
  simp only [step, List.getElem?_append_right (Nat.le_refl _), Nat.sub_self,
    List.getElem?_cons_zero, List.set_append_right _ _ (Nat.le_refl _), List.set_cons_zero]

/-- Where no step can be made every thread has ended. -/
theorem ended_of_stuck (h : ∀ i, m.step c i st = none) : ∀ p ∈ st.threads, p.ended = true := by
  intro p hp
  cases p with
  | ret a => rfl
  | panic => rfl
  | op o next =>
    obtain ⟨l₁, l₂, hsplit⟩ := List.append_of_mem hp
    have hstep := h l₁.length
    obtain ⟨s, threads⟩ := st
    simp only at hsplit
    rw [hsplit, step_append] at hstep
    cases hstep

/-- And then no step can be made. -/
theorem stuck_of_ended (h : ∀ p ∈ st.threads, p.ended = true) : m.step c i st = none := by
  cases hi : st.threads[i]? with
  | none => simp only [step, hi]
  | some p =>
    have hp := h p (List.mem_of_getElem? hi)
    cases p with
    | op o next => cases hp
    | _ => simp only [step, hi]

/-- The threads after `spawn`: those there were, and the new one. -/
theorem spawn_cases {p q : Prog Op Res α} (h : (m.spawn c p st).threads[i]? = some q) :
    st.threads[i]? = some q ∨ i = st.threads.length ∧ q = (m.settle c p st.shared).1 := by
  rw [spawn, List.getElem?_append] at h
  split at h
  · exact .inl h
  · next hi =>
    obtain ⟨hlt, heq⟩ := List.getElem?_eq_some_iff.mp h
    rw [List.getElem_singleton] at heq
    rw [List.length_singleton] at hlt
    exact .inr ⟨by omega, heq.symm⟩

theorem run_append (as bs : List (χ × Nat)) (st : Threads σ Op Res α) :
    m.run (as ++ bs) st = (m.run as st).bind (m.run bs) := by
  induction as generalizing st with
  | nil => rfl
  | cons a as ih =>
    simp only [List.cons_append, run, Option.bind_assoc]
    exact congrArg _ (funext ih)

end Machine

end Zap.Data
