import Zap.Data.Json

/-!
# Objects as maps

A JSON object may name a member twice. Most readers keep the last one, and so does assigning the
members to a map one after another. A map is a list of its keys and values, without an order that
means anything; `assign` replaces the value of a key where it stands. `collapse` reads every object
of a value as a map.
-/

set_option autoImplicit false

namespace Zap.Data

section Maps

variable {κ α β : Type} [DecidableEq κ]

/-- `m[k] = v`. -/
def assign (k : κ) (v : α) : List (κ × α) → List (κ × α)
  | [] => [(k, v)]
  | (k', v') :: m => if k' = k then (k, v) :: m else (k', v') :: assign k v m

theorem lookup_assign [BEq κ] [LawfulBEq κ] (k : κ) (v : α) (m : List (κ × α)) :
    (assign k v m).lookup k = some v := by
  induction m with
  | nil => rw [assign, List.lookup_cons_self]
  | cons kv m ih =>
    by_cases hk : kv.1 = k
    · simp only [assign, hk, ↓reduceIte, List.lookup_cons_self]
    · have hne : (k == kv.1) = false := beq_eq_false_iff_ne.mpr (Ne.symm hk)
      simp only [assign, hk, ↓reduceIte, List.lookup_cons, hne, ih]

/-- Assign one after another. -/
def assignAll (m : List (κ × α)) (kvs : List (κ × α)) : List (κ × α) :=
  kvs.foldl (fun m kv => assign kv.1 kv.2 m) m

theorem map_assign (f : α → β) (k : κ) (v : α) (m : List (κ × α)) :
    (assign k v m).map (fun kv => (kv.1, f kv.2)) =
      assign k (f v) (m.map fun kv => (kv.1, f kv.2)) := by
  induction m with
  | nil => rfl
  | cons kv m ih =>
    by_cases hk : kv.1 = k
    · simp only [assign, List.map_cons, hk, ↓reduceIte]
    · simp only [assign, List.map_cons, hk, ↓reduceIte, ih]

theorem mem_assign {k : κ} {v : α} {m : List (κ × α)} {kv : κ × α} (h : kv ∈ assign k v m) :
    kv = (k, v) ∨ kv ∈ m := by
  induction m with
  | nil => exact .inl (List.mem_singleton.mp h)
  | cons kv' m ih =>
    simp only [assign] at h
    split at h
    · exact (List.mem_cons.mp h).imp_right (List.mem_cons_of_mem _)
    · rcases List.mem_cons.mp h with rfl | h
      · exact .inr List.mem_cons_self
      · exact (ih h).imp_right (List.mem_cons_of_mem _)

end Maps

namespace Json

mutual

/-- Keep the last of the members that have the same key, in every object. -/
def collapse : Json → Json
  | .null => .null
  | .bool b => .bool b
  | .num literal => .num literal
  | .str s => .str s
  | .arr vs => .arr (collapseElems vs)
  | .obj ms => .obj (assignAll [] (collapseMembers ms))

def collapseElems : List Json → List Json
  | [] => []
  | v :: vs => collapse v :: collapseElems vs

def collapseMembers : List (Bytes × Json) → List (Bytes × Json)
  | [] => []
  | (k, v) :: ms => (k, collapse v) :: collapseMembers ms

end

end Json

end Zap.Data
