import Zap.Data.Runs

/-!
# Computations that may panic

A computation on a state that returns or panics. A panic is not undone: the state stays as the
computation has left it, and what was to come after it does not happen.

Such a computation is seen beside one that cannot panic and does the same (`Tracks`). One rule goes
along both step by step (`Tracks.bind`), and what there is to know follows from it: what is returned
(`Tracks.returned`), that nothing panics where all is calm (`Tracks.eq`), and where it has come to if
it panics (`Tracks.panicked`).
-/

set_option autoImplicit false

namespace Zap.Data

variable {S α β γ : Type}

/-- What is returned, or nothing after a panic, and the state in either case. -/
abbrev Attempt (S α : Type) : Type := Option α × S

namespace Attempt

/-- Go on with what was returned. -/
def bind (o : Attempt S α) (k : α → S → Attempt S β) : Attempt S β :=
  match o with
  | (some a, s) => k a s
  | (none, s) => (none, s)

/-- A computation that has returned. -/
def of (r : α × S) : Attempt S α := (some r.1, r.2)

theorem bind_assoc (o : Attempt S α) (k : α → S → Attempt S β) (k' : β → S → Attempt S γ) :
    (o.bind k).bind k' = o.bind fun a s => (k a s).bind k' := by
  obtain ⟨_ | a, s⟩ := o <;> rfl

theorem isSome_of_bind {o : Attempt S α} {k : α → S → Attempt S β} (h : (o.bind k).1.isSome) :
    o.1.isSome := by
  obtain ⟨_ | a, s⟩ := o
  · exact h
  · rfl

theorem eq_of_isSome {o : Attempt S Unit} (h : o.1.isSome) : o = (some (), o.2) :=
  Prod.ext (Option.eq_some_of_isSome h) rfl

/-- The computation returns `r`, or it panics in a state with `V`. If it is `calm` it does not. -/
def Tracks (calm : Prop) (V : S → Prop) (o : Attempt S α) (r : α × S) : Prop :=
  o = of r ∨ ¬calm ∧ o.1 = none ∧ V o.2

variable {calm calm' : Prop} {V : S → Prop}

theorem tracks_of (r : α × S) : (of r).Tracks calm V r := .inl rfl

theorem tracks_panic (hcalm : ¬calm) {s : S} (hs : V s) (r : α × S) : Tracks calm V (none, s) r :=
  .inr ⟨hcalm, rfl, hs⟩

namespace Tracks

variable {o : Attempt S α} {r : α × S}

theorem bind (h : o.Tracks calm V r) {k : α → S → Attempt S β} {r' : β × S}
    (hk : (k r.1 r.2).Tracks calm V r') : (o.bind k).Tracks calm V r' := by
  obtain rfl | ⟨hcalm, hnone, hs⟩ := h
  · exact hk
  · obtain ⟨_ | a, s⟩ := o
    · exact tracks_panic hcalm hs r'
    · cases hnone

theorem mono (h : o.Tracks calm V r) (hcalm : calm' → calm) : o.Tracks calm' V r :=
  h.imp_right (And.imp_left (mt hcalm))

theorem trivial (h : o.Tracks calm V r) : o.Tracks calm (fun _ => True) r :=
  h.imp_right fun hpanic => ⟨hpanic.1, hpanic.2.1, True.intro⟩

theorem eq (h : o.Tracks calm V r) (hcalm : calm) : o = of r :=
  h.resolve_right fun hpanic => hpanic.1 hcalm

theorem returned (h : o.Tracks calm V r) {a : α} {s : S} (ho : o = (some a, s)) : r = (a, s) := by
  obtain rfl | ⟨_, hnone, _⟩ := h
  · cases ho
    rfl
  · rw [ho] at hnone
    cases hnone

theorem ends (h : o.Tracks calm V r) (hr : V r.2) : V o.2 := by
  obtain rfl | ⟨_, _, hs⟩ := h
  · exact hr
  · exact hs

theorem panicked (h : o.Tracks calm V r) (hnone : o.1 = none) : V o.2 := by
  obtain rfl | ⟨_, _, hs⟩ := h
  · cases hnone
  · exact hs

end Tracks

end Attempt

/-! ## Runs -/

variable {L A : Type}

/-- The answers to a list of requests, of which none is made after one that has panicked. -/
def attempts (step : L → S → Attempt S A) : List L → S → Attempt S (List A)
  | [], s => (some [], s)
  | l :: ls, s =>
    (step l s).bind fun a s => (attempts step ls s).bind fun as s => (some (a :: as), s)

/-- A machine that returns as long as an invariant holds, which it keeps. -/
theorem attempts_eq {step? : L → S → Attempt S A} {step : L → S → A × S} {Inv : S → Prop}
    {ok : L → Prop} (hstep : ∀ l s, ok l → Inv s → step? l s = .of (step l s) ∧ Inv (step l s).2)
    {ls : List L} (hls : ∀ l ∈ ls, ok l) {s : S} (h : Inv s) :
    attempts step? ls s = .of (runs step ls s) := by
  induction ls generalizing s with
  | nil => rfl
  | cons l ls ih =>
    obtain ⟨hl, hls⟩ := List.forall_mem_cons.mp hls
    obtain ⟨hone, hinv⟩ := hstep l s hl h
    simp only [attempts, runs, hone, Attempt.of, Attempt.bind, ih hls hinv]

end Zap.Data
