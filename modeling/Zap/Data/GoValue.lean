import Zap.Data.Ieee

/-!
# Go values and the two ways to compare them

A value has a type and is a tree up to its references: pointers, slices and maps refer to the heap,
where there may be cycles. `Value.eq` is the operator `==`, which panics when it meets two interfaces
with the same dynamic type, if that type is not comparable. `DeepEqual` is `reflect.DeepEqual`: values
are deeply equal if they agree up to references, and references do if they are the same or refer to
things that are deeply equal again. On a cycle the comparison would come back to a pair it has under
way, which then counts as equal, so deep equality is the largest relation of this kind: some relation
between references that is kept by going through them (`Bisimulation`).
-/

set_option autoImplicit false

namespace Zap.Data.Go

/-! ## Types and values -/

/-- A type, up to references. `id` tells types of one kind apart. The fields of a struct are `unit`,
or a `field` and more of them; an array is laid out likewise. -/
inductive Ty where
  | int (id : Nat)
  | string (id : Nat)
  | float64 (id : Nat)
  | float32 (id : Nat)
  | complex128 (id : Nat)
  | complex64 (id : Nat)
  | pointer (id : Nat)
  | slice (id : Nat)
  | map (id : Nat)
  | func (id : Nat)
  | interface
  | unit
  | field (t rest : Ty)
  | struct (id : Nat) (fields : Ty)
  | array (id : Nat) (elem elems : Ty)
  deriving DecidableEq

/-- Is `==` defined on the type? -/
def Ty.comparable : Ty → Bool
  | .int _ => true
  | .string _ => true
  | .float64 _ => true
  | .float32 _ => true
  | .complex128 _ => true
  | .complex64 _ => true
  | .pointer _ => true
  | .slice _ => false
  | .map _ => false
  | .func _ => false
  | .interface => true
  | .unit => true
  | .field t rest => t.comparable && rest.comparable
  | .struct _ fields => fields.comparable
  | .array _ elem elems => elem.comparable && elems.comparable

/-- A value. Booleans, integers and channels are all `int`; a reference is `none` if it is nil. -/
inductive Value : Ty → Type where
  | int {id : Nat} (i : Int) : Value (.int id)
  | string {id : Nat} (s : Bytes) : Value (.string id)
  | float64 {id : Nat} (f : Binary64) : Value (.float64 id)
  | float32 {id : Nat} (f : Binary32) : Value (.float32 id)
  | complex128 {id : Nat} (re im : Binary64) : Value (.complex128 id)
  | complex64 {id : Nat} (re im : Binary32) : Value (.complex64 id)
  | pointer {id : Nat} (ref : Option Nat) : Value (.pointer id)
  | slice {id : Nat} (ref : Option Nat) : Value (.slice id)
  | map {id : Nat} (ref : Option Nat) : Value (.map id)
  | func {id : Nat} (ref : Option Nat) : Value (.func id)
  | nil : Value .interface
  | boxed {t : Ty} (v : Value t) : Value .interface
  | unit : Value .unit
  | field {t rest : Ty} (v : Value t) (vs : Value rest) : Value (.field t rest)
  | struct {id : Nat} {fields : Ty} (vs : Value fields) : Value (.struct id fields)
  | array {id : Nat} {elem elems : Ty} (vs : Value elems) : Value (.array id elem elems)

def isNaN : FloatValue → Bool
  | .nan => true
  | _ => false

def isZero : FloatValue → Bool
  | .finite _ 0 _ => true
  | _ => false

/-- `==` on floats: NaN is not equal to itself, and the zeros are equal. -/
def floatEq (flt : FloatInfo) (a b : Nat) : Bool :=
  !(isNaN (flt.decode a) || isNaN (flt.decode b)) &&
    (a == b || (isZero (flt.decode a) && isZero (flt.decode b)))

def float64Eq (a b : Binary64) : Bool := floatEq float64info a.toNat b.toNat

def float32Eq (a b : Binary32) : Bool := floatEq float32info a.toNat b.toNat

/-- The operator `==`; `none` is its panic. The fields of structs are compared until two differ. -/
def Value.eq : {t : Ty} → Value t → Value t → Option Bool
  | _, .int a, .int b => some (a == b)
  | _, .string a, .string b => some (a == b)
  | _, .float64 a, .float64 b => some (float64Eq a b)
  | _, .float32 a, .float32 b => some (float32Eq a b)
  | _, .complex128 a b, .complex128 c d => some (float64Eq a c && float64Eq b d)
  | _, .complex64 a b, .complex64 c d => some (float32Eq a c && float32Eq b d)
  | _, .pointer a, .pointer b => some (a == b)
  | _, .slice _, .slice _ => none
  | _, .map _, .map _ => none
  | _, .func _, .func _ => none
  | _, .nil, .nil => some true
  | _, .nil, .boxed _ => some false
  | _, .boxed _, .nil => some false
  | _, @Value.boxed t v, @Value.boxed u w =>
    if h : u = t then
      if t.comparable then v.eq (h ▸ w) else none
    else some false
  | _, .unit, .unit => some true
  | _, .field v vs, .field w ws =>
    match v.eq w with
    | some true => vs.eq ws
    | r => r
  | _, .struct vs, .struct ws => vs.eq ws
  | _, .array vs, .array ws => vs.eq ws

namespace Value

/-- No dynamic type inside is one that `==` panics on. -/
def Comparable : {t : Ty} → Value t → Prop
  | _, @Value.boxed t v => t.comparable = true ∧ v.Comparable
  | _, .field v vs => v.Comparable ∧ vs.Comparable
  | _, .struct vs => vs.Comparable
  | _, .array vs => vs.Comparable
  | _, _ => True

theorem boxed_eq {t u : Ty} {v : Value t} {w : Value u} (h : boxed v = boxed w) :
    ∃ h : u = t, v = h ▸ w := by
  cases h
  exact ⟨rfl, rfl⟩

theorem floatEq_comm (flt : FloatInfo) (a b : Nat) : floatEq flt a b = floatEq flt b a := by
  rw [floatEq, floatEq, Bool.or_comm (isNaN _), BEq.comm (a := a), Bool.and_comm (isZero _)]

theorem float64Eq_comm (a b : Binary64) : float64Eq a b = float64Eq b a := floatEq_comm _ _ _

theorem float32Eq_comm (a b : Binary32) : float32Eq a b = float32Eq b a := floatEq_comm _ _ _

theorem eq_comm {t : Ty} (v w : Value t) : v.eq w = w.eq v := by
  induction v with
  | int a => cases w; simp only [eq, BEq.comm]
  | string a => cases w; simp only [eq, BEq.comm]
  | float64 a => cases w; simp only [eq, float64Eq_comm]
  | float32 a => cases w; simp only [eq, float32Eq_comm]
  | complex128 a b =>
    cases w with | complex128 c d => simp only [eq, float64Eq_comm a, float64Eq_comm b]
  | complex64 a b =>
    cases w with | complex64 c d => simp only [eq, float32Eq_comm a, float32Eq_comm b]
  | pointer a => cases w; simp only [eq, BEq.comm]
  | slice a => cases w; rfl
  | map a => cases w; rfl
  | func a => cases w; rfl
  | nil => cases w <;> rfl
  | @boxed t v ih =>
    cases w with
    | nil => rfl
    | @boxed u w =>
      by_cases h : u = t
      · subst h
        simp only [eq, ↓reduceDIte, ih]
      · simp only [eq, h, Ne.symm h, ↓reduceDIte]
  | unit => cases w; rfl
  | field v vs ihv ihvs => cases w with | field w ws => simp only [eq, ihv, ihvs]
  | struct vs ih => cases w with | struct ws => exact ih ws
  | array vs ih => cases w with | array ws => exact ih ws

/-- Comparing a value with others never panics if there is nothing in it to panic on. -/
theorem isSome_eq {t : Ty} {v : Value t} (hv : v.Comparable) (ht : t.comparable = true)
    (w : Value t) : (v.eq w).isSome := by
  induction v with
  | int a => cases w; rfl
  | string a => cases w; rfl
  | float64 a => cases w; rfl
  | float32 a => cases w; rfl
  | complex128 a b => cases w; rfl
  | complex64 a b => cases w; rfl
  | pointer a => cases w; rfl
  | slice a => cases ht
  | map a => cases ht
  | func a => cases ht
  | nil => cases w <;> rfl
  | @boxed t v ih =>
    cases w with
    | nil => rfl
    | @boxed u w =>
      by_cases h : u = t
      · subst h
        simp only [eq, ↓reduceDIte, hv.1, ↓reduceIte]
        exact ih hv.2 hv.1 w
      · simp only [eq, h, ↓reduceDIte, Option.isSome_some]
  | unit => cases w; rfl
  | field v vs ihv ihvs =>
    cases w with
    | field w ws =>
      obtain ⟨hfirst, hrest⟩ := Bool.and_eq_true_iff.mp ht
      simp only [eq]
      split
      · exact ihvs hv.2 hrest ws
      · exact ihv hv.1 hfirst w
  | struct vs ih => cases w with | struct ws => exact ih hv ht ws
  | array vs ih => cases w with | array ws => exact ih hv (Bool.and_eq_true_iff.mp ht).2 ws

/-- A value that was found equal to itself is comparable. -/
theorem comparable_of_eq {t : Ty} {v : Value t} (h : v.eq v = some true) : v.Comparable := by
  induction v with
  | @boxed t v ih =>
    simp only [eq, ↓reduceDIte] at h
    split at h
    · next ht => exact ⟨ht, ih h⟩
    · cases h
  | field v vs ihv ihvs =>
    simp only [eq] at h
    split at h
    · next hv => exact ⟨ihv hv, ihvs h⟩
    · next hv => exact absurd h hv
  | struct vs ih => exact ih h
  | array vs ih => exact ih h
  | _ => trivial

/-! ## Deep equality -/

/-- References that are both nil, the same or related. -/
def related (R : Nat → Nat → Prop) : Option Nat → Option Nat → Prop
  | none, none => True
  | some x, some y => x = y ∨ R x y
  | _, _ => False

/-- Deep equality of values whose references count as deeply equal if they are related. Functions
are deeply equal if both are nil. -/
def deep (R : Nat → Nat → Prop) : {t : Ty} → Value t → Value t → Prop
  | _, .int a, .int b => a = b
  | _, .string a, .string b => a = b
  | _, .float64 a, .float64 b => float64Eq a b = true
  | _, .float32 a, .float32 b => float32Eq a b = true
  | _, .complex128 a b, .complex128 c d => float64Eq a c = true ∧ float64Eq b d = true
  | _, .complex64 a b, .complex64 c d => float32Eq a c = true ∧ float32Eq b d = true
  | _, .pointer a, .pointer b => related R a b
  | _, .slice a, .slice b => related R a b
  | _, .map a, .map b => related R a b
  | _, .func a, .func b => a = none ∧ b = none
  | _, .nil, .nil => True
  | _, .nil, .boxed _ => False
  | _, .boxed _, .nil => False
  | _, @Value.boxed t v, @Value.boxed u w => ∃ h : u = t, v.deep R (h ▸ w)
  | _, .unit, .unit => True
  | _, .field v vs, .field w ws => v.deep R w ∧ vs.deep R ws
  | _, .struct vs, .struct ws => vs.deep R ws
  | _, .array vs, .array ws => vs.deep R ws

theorem related_self (R : Nat → Nat → Prop) (a : Option Nat) : related R a a := by
  cases a with
  | none => trivial
  | some x => exact Or.inl rfl

theorem related_symm {R : Nat → Nat → Prop} {a b : Option Nat} (h : related R a b) :
    related (fun x y => R y x) b a := by
  cases a with
  | none => cases b with
    | none => trivial
    | some y => exact h
  | some x => cases b with
    | none => exact h
    | some y => exact h.imp Eq.symm id

theorem deep_symm {R : Nat → Nat → Prop} {t : Ty} {v w : Value t} (h : v.deep R w) :
    w.deep (fun x y => R y x) v := by
  induction v with
  | int a => cases w; exact Eq.symm h
  | string a => cases w; exact Eq.symm h
  | float64 a => cases w; exact (float64Eq_comm _ _).trans h
  | float32 a => cases w; exact (float32Eq_comm _ _).trans h
  | complex128 a b =>
    cases w
    exact ⟨(float64Eq_comm _ _).trans h.1, (float64Eq_comm _ _).trans h.2⟩
  | complex64 a b =>
    cases w
    exact ⟨(float32Eq_comm _ _).trans h.1, (float32Eq_comm _ _).trans h.2⟩
  | pointer a => cases w; exact related_symm h
  | slice a => cases w; exact related_symm h
  | map a => cases w; exact related_symm h
  | func a => cases w; exact And.symm h
  | nil => cases w with
    | nil => trivial
    | boxed w => exact h
  | boxed v ih => cases w with
    | nil => exact h
    | boxed w =>
      obtain ⟨rfl, hdeep⟩ := h
      exact ⟨rfl, ih hdeep⟩
  | unit => cases w; trivial
  | field v vs ihv ihvs => cases w with | field w ws => exact ⟨ihv h.1, ihvs h.2⟩
  | struct vs ih => cases w with | struct ws => exact ih h
  | array vs ih => cases w with | array ws => exact ih h

/-- A comparable value that is deeply equal to itself is equal to itself. -/
theorem eq_self {R : Nat → Nat → Prop} {t : Ty} {v : Value t} (hv : v.Comparable)
    (ht : t.comparable = true) (h : v.deep R v) : v.eq v = some true := by
  induction v with
  | int a => simp only [eq, BEq.rfl]
  | string a => simp only [eq, BEq.rfl]
  | float64 a => exact congrArg some h
  | float32 a => exact congrArg some h
  | complex128 a b => simp only [eq, h.1, h.2, Bool.and_self]
  | complex64 a b => simp only [eq, h.1, h.2, Bool.and_self]
  | pointer a => simp only [eq, BEq.rfl]
  | slice a => cases ht
  | map a => cases ht
  | func a => cases ht
  | nil => rfl
  | boxed v ih =>
    obtain ⟨_, hdeep⟩ := h
    simp only [eq, ↓reduceDIte, hv.1, ↓reduceIte]
    exact ih hv.2 hv.1 hdeep
  | unit => rfl
  | field v vs ihv ihvs =>
    obtain ⟨hfirst, hrest⟩ := Bool.and_eq_true_iff.mp ht
    simp only [eq, ihv hv.1 hfirst h.1, ihvs hv.2 hrest h.2]
  | struct vs ih => exact ih hv ht h
  | array vs ih => exact ih hv (Bool.and_eq_true_iff.mp ht).2 h

end Value

/-- What a reference refers to: the value behind a pointer, the elements of a slice, or the entries
of a map, each with its dynamic type. -/
inductive Object where
  | cell (v : Value .interface)
  | elems (vs : List (Value .interface))
  | entries (es : List (Value .interface × Value .interface))

/-- Entries of two maps correspond: the keys are equal, the values deeply equal. -/
def correspond (R : Nat → Nat → Prop) (e e' : Value .interface × Value .interface) : Prop :=
  e.1.eq e'.1 = some true ∧ e.2.deep R e'.2

def Object.deep (R : Nat → Nat → Prop) : Object → Object → Prop
  | .cell v, .cell w => v.deep R w
  | .elems vs, .elems ws => List.Forall₂ (Value.deep R) vs ws
  | .entries es, .entries es' =>
    es.length = es'.length ∧ (∀ e ∈ es, ∃ e' ∈ es', correspond R e e') ∧
      ∀ e' ∈ es', ∃ e ∈ es, correspond R e e'
  | _, _ => False

/-- A relation between references that is kept by going through them. -/
def Bisimulation (heap : Nat → Object) (R : Nat → Nat → Prop) : Prop :=
  ∀ x y, R x y → (heap x).deep R (heap y)

/-- `reflect.DeepEqual`. -/
def DeepEqual (heap : Nat → Object) {t : Ty} (v w : Value t) : Prop :=
  ∃ R, Bisimulation heap R ∧ v.deep R w

theorem correspond_symm {R : Nat → Nat → Prop} {e e' : Value .interface × Value .interface}
    (h : correspond R e e') : correspond (fun x y => R y x) e' e :=
  ⟨(Value.eq_comm _ _).trans h.1, Value.deep_symm h.2⟩

theorem Object.deep_symm {R : Nat → Nat → Prop} {a b : Object} (h : a.deep R b) :
    b.deep (fun x y => R y x) a := by
  cases a with
  | cell v => cases b with
    | cell w => exact Value.deep_symm h
    | elems ws => exact h
    | entries es => exact h
  | elems vs => cases b with
    | cell w => exact h
    | elems ws => exact (List.Forall₂.imp (fun _ _ => Value.deep_symm) h).flip
    | entries es => exact h
  | entries es => cases b with
    | cell w => exact h
    | elems ws => exact h
    | entries es' =>
      refine ⟨h.1.symm, fun e he => ?_, fun e he => ?_⟩
      · obtain ⟨e', he', hc⟩ := h.2.2 e he
        exact ⟨e', he', correspond_symm hc⟩
      · obtain ⟨e', he', hc⟩ := h.2.1 e he
        exact ⟨e', he', correspond_symm hc⟩

theorem DeepEqual.boxed {heap : Nat → Object} {t : Ty} {v w : Value t} (h : DeepEqual heap v w) :
    DeepEqual heap (Value.boxed v) (Value.boxed w) := by
  obtain ⟨R, hR, hdeep⟩ := h
  exact ⟨R, hR, rfl, hdeep⟩

theorem DeepEqual.symm {heap : Nat → Object} {t : Ty} {v w : Value t} (h : DeepEqual heap v w) :
    DeepEqual heap w v := by
  obtain ⟨R, hR, hdeep⟩ := h
  exact ⟨_, fun x y hxy => Object.deep_symm (hR y x hxy), Value.deep_symm hdeep⟩

end Zap.Data.Go
