import Mathlib.Data.List.Basic

/-!
# Histories

What the events of a list give, where each event is seen together with all that came before it. A
list of events grows at its end, so the laws are about one more event.
-/

set_option autoImplicit false

namespace Zap.Data

variable {α β : Type}

/-- What the events of a list give, after events that are not asked. -/
def historyFrom (f : List α → α → List β) (before : List α) : List α → List β
  | [] => []
  | a :: as => f before a ++ historyFrom f (before ++ [a]) as

/-- What the events of a list give. -/
def history (f : List α → α → List β) (as : List α) : List β := historyFrom f [] as

theorem historyFrom_concat (f : List α → α → List β) (before as : List α) (a : α) :
    historyFrom f before (as ++ [a]) = historyFrom f before as ++ f (before ++ as) a := by
  induction as generalizing before with
  | nil => simp only [List.nil_append, historyFrom, List.append_nil]
  | cons a' as ih =>
    simp only [List.cons_append, historyFrom, ih, List.append_assoc, List.nil_append]

/-- One more event. -/
theorem history_concat (f : List α → α → List β) (as : List α) (a : α) :
    history f (as ++ [a]) = history f as ++ f as a :=
  historyFrom_concat f [] as a

end Zap.Data
