import Mathlib.Logic.Function.Basic

/-!
# Pools

Objects of one type, by reference, some of which lie in a pool. `get` may take any object out of
the pool, as it was when it was put there, or make a new one; which it does is its argument
`pick`, an index into the pool.
-/

set_option autoImplicit false

namespace Zap.Data

/-- Objects by reference. References from `next` on are unused; those in `free` lie in the
pool. -/
structure Pool (α : Type) where
  next : Nat
  object : Nat → α
  free : List Nat

namespace Pool

variable {α : Type}

/-- Change an object. -/
def set (p : Pool α) (r : Nat) (a : α) : Pool α :=
  { p with object := Function.update p.object r a }

/-- Take an object out of the pool, or make a new one. -/
def get (p : Pool α) (pick : Nat) (new : α) : Nat × Pool α :=
  match p.free[pick]? with
  | some r => (r, { p with free := p.free.eraseIdx pick })
  | none => (p.next, { p with next := p.next + 1, object := Function.update p.object p.next new })

/-- Make a new object, whatever lies in the pool. -/
def alloc (p : Pool α) (a : α) : Nat × Pool α :=
  (p.next, { p with next := p.next + 1, object := Function.update p.object p.next a })

/-- Put an object into the pool. -/
def put (p : Pool α) (r : Nat) : Pool α := { p with free := r :: p.free }

@[simp]
theorem object_set_self (p : Pool α) (r : Nat) (a : α) : (p.set r a).object r = a := by
  simp only [set, Function.update_self]

theorem object_set_of_ne (p : Pool α) {r x : Nat} (a : α) (hx : x ≠ r) :
    (p.set r a).object x = p.object x := by
  simp only [set, Function.update_of_ne hx]

@[simp]
theorem object_alloc_self (p : Pool α) (a : α) : (p.alloc a).2.object (p.alloc a).1 = a := by
  simp only [alloc, Function.update_self]

theorem object_alloc_of_ne (p : Pool α) {x : Nat} (a : α) (hx : x ≠ p.next) :
    (p.alloc a).2.object x = p.object x := by
  simp only [alloc, Function.update_of_ne hx]

/-- `get` takes an object out of the pool or makes a new one. -/
theorem get_cases (p : Pool α) (pick : Nat) (new : α) :
    (∃ r, p.free[pick]? = some r ∧ p.get pick new = (r, { p with free := p.free.eraseIdx pick })) ∨
      p.get pick new = p.alloc new := by
  unfold get
  split
  next r hr => exact .inl ⟨r, hr, rfl⟩
  next => exact .inr rfl

@[simp]
theorem object_put (p : Pool α) (r : Nat) : (p.put r).object = p.object := rfl

end Pool

end Zap.Data
