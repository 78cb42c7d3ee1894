/-!
# Slices

A slice of Go as its one owner sees it: an array, of which the first elements are in use.
Truncating a slice keeps the array, and `append` writes over what lies behind the length before
it grows the array. What else Go allocates when it grows an array is never read, and is left out.
-/

set_option autoImplicit false

namespace Zap.Data

structure Slice (α : Type) where
  array : List α
  len : Nat
  len_le : len ≤ array.length

namespace Slice

variable {α : Type}

/-- The elements in use. -/
def toList (s : Slice α) : List α := s.array.take s.len

/-- `make([]T, len(l))` with the elements of `l`. -/
def ofList (l : List α) : Slice α := ⟨l, l.length, Nat.le_refl _⟩

/-- `s[:0]`. -/
def truncate (s : Slice α) : Slice α := ⟨s.array, 0, Nat.zero_le _⟩

/-- `for i := range s { s[i] = a }`. -/
def fill (s : Slice α) (a : α) : Slice α :=
  ⟨List.replicate s.len a ++ s.array.drop s.len, s.len, by simp⟩

/-- `append(s, a)`. -/
def push (s : Slice α) (a : α) : Slice α :=
  if h : s.len < s.array.length then ⟨s.array.set s.len a, s.len + 1, by rw [List.length_set]; exact h⟩
  else ⟨s.array ++ [a], s.len + 1, by simpa using s.len_le⟩

@[simp]
theorem toList_push (s : Slice α) (a : α) : (s.push a).toList = s.toList ++ [a] := by
  unfold push
  split
  next h =>
    -- The elements in use stay, and the new one is written behind them.
    have hkeep : (s.array.set s.len a).take s.len = s.array.take s.len :=
      List.take_set_of_le (Nat.le_refl _)
    simp only [toList, List.take_add_one, hkeep, List.getElem?_set_self h, Option.toList_some]
  next h =>
    have hlen : s.len = s.array.length := Nat.le_antisymm s.len_le (Nat.le_of_not_lt h)
    have hall : (s.array ++ [a]).take (s.len + 1) = s.array ++ [a] :=
      List.take_of_length_le (by simp [hlen])
    rw [toList, hall, toList, hlen, List.take_length]

end Slice

end Zap.Data
