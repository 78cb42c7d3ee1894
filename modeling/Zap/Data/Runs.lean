import Mathlib.Data.List.Basic

/-!
# Runs of a machine

A machine answers a request and moves on. The rules say what a whole run keeps if each step does:
an invariant that may speak about the requests so far, and a relation between two machines that
give the same answers.
-/

set_option autoImplicit false

namespace Zap.Data

variable {L A S T : Type}

/-- The answers to a list of requests, and the state after them. -/
def runs (step : L → S → A × S) : List L → S → List A × S
  | [], s => ([], s)
  | l :: ls, s =>
    let (a, s) := step l s
    let (as, s) := runs step ls s
    (a :: as, s)

/-- A run with one more request. -/
theorem runs_concat (step : L → S → A × S) (ls : List L) (l : L) (s : S) :
    runs step (ls ++ [l]) s =
      ((runs step ls s).1 ++ [(step l (runs step ls s).2).1], (step l (runs step ls s).2).2) := by
  induction ls generalizing s with
  | nil => rfl
  | cons l' ls ih => simp only [List.cons_append, runs, ih]

/-- What each step keeps holds after a run. -/
theorem runs_invariant {step : L → S → A × S} {Inv : List L → S → Prop} {ok : L → Prop}
    (hstep : ∀ past l s, ok l → Inv past s → Inv (past ++ [l]) (step l s).2) {ls : List L}
    (hls : ∀ l ∈ ls, ok l) (past : List L) {s : S} (h : Inv past s) :
    Inv (past ++ ls) (runs step ls s).2 := by
  induction ls generalizing past s with
  | nil => rwa [List.append_nil]
  | cons l ls ih =>
    obtain ⟨hl, hls⟩ := List.forall_mem_cons.mp hls
    have hrest := ih hls (past ++ [l]) (hstep past l s hl h)
    rwa [List.append_assoc] at hrest

/-- Two machines that a relation keeps together give the same answers. -/
theorem runs_simulates {step : L → S → A × S} {step' : L → T → A × T} {R : S → T → Prop}
    (hstep : ∀ l s t, R s t → (step l s).1 = (step' l t).1 ∧ R (step l s).2 (step' l t).2)
    (ls : List L) {s : S} {t : T} (h : R s t) :
    (runs step ls s).1 = (runs step' ls t).1 ∧ R (runs step ls s).2 (runs step' ls t).2 := by
  induction ls generalizing s t with
  | nil => exact ⟨rfl, h⟩
  | cons l ls ih =>
    obtain ⟨hanswer, hnext⟩ := hstep l s t h
    obtain ⟨hanswers, hend⟩ := ih hnext
    refine ⟨?_, hend⟩
    simp only [runs, hanswer, hanswers]

end Zap.Data
