import Zap.FieldArgument

/-!
# Equality of fields is an equality, up to `==`

`Field.Equals` compares bytes, uses `reflect.DeepEqual`, or compares the structs with `==`. The last
is used for inlined objects and for Stringers, where `==` may panic and does not look behind pointers,
for floats, which are compared by their bits, and for times, whose locations are pointers.
`wellBehaved_iff` says for which arguments equality is as it should be all the same.
-/

set_option autoImplicit false

namespace Zap.Zapcore

open Data

/-! ## The three comparisons -/

/-- How `Equals` compares two fields of one type with one key. -/
inductive Comparison where
  | bytes
  | deep
  | plain

def FieldType.comparison : FieldType → Comparison
  | .binary => .bytes
  | .byteString => .bytes
  | .arrayMarshaler => .deep
  | .objectMarshaler => .deep
  | .error => .deep
  | .reflect => .deep
  | _ => .plain

namespace StoredField

variable {rt : Runtime} {f g : StoredField}

/-- `Equals` of fields with the same key, by what is compared. -/
def compare (rt : Runtime) : Comparison → StoredField → StoredField → Option Bool
  | .bytes, f, g => (assertBytes rt.heap f.interface).bind fun a =>
      (assertBytes rt.heap g.interface).bind fun b => some (a == b)
  | .deep, f, g => some (rt.deepEqual f.interface g.interface)
  | .plain, f, g => f.eq g

theorem equals_compare (ht : f.type = g.type) (hk : f.key = g.key) :
    f.equals rt g = compare rt f.type.comparison f g := by
  obtain ⟨key, type, i, s, v⟩ := f
  obtain ⟨key', type', i', s', v'⟩ := g
  obtain rfl : type = type' := ht
  obtain rfl : key = key' := hk
  simp only [equals, ne_eq, not_true_eq_false, ↓reduceIte]
  cases type <;> rfl

theorem equals_bytes (ht : f.type = g.type) (hk : f.key = g.key)
    (hc : f.type.comparison = .bytes) :
    f.equals rt g = (assertBytes rt.heap f.interface).bind fun a =>
      (assertBytes rt.heap g.interface).bind fun b => some (a == b) := by
  rw [equals_compare ht hk, hc, compare]

theorem equals_deep (ht : f.type = g.type) (hk : f.key = g.key) (hc : f.type.comparison = .deep) :
    f.equals rt g = some (rt.deepEqual f.interface g.interface) := by
  rw [equals_compare ht hk, hc, compare]

theorem equals_plain (ht : f.type = g.type) (hk : f.key = g.key)
    (hc : f.type.comparison = .plain) : f.equals rt g = f.eq g := by
  rw [equals_compare ht hk, hc, compare]

theorem equals_differ (h : f.type ≠ g.type ∨ f.key ≠ g.key) : f.equals rt g = some false := by
  unfold equals
  split
  · rfl
  · next ht => rw [if_pos (h.resolve_left ht)]

theorem eq_comm (f g : StoredField) : f.eq g = g.eq f := by
  simp only [StoredField.eq, ne_eq, Eq.comm (a := f.key), Eq.comm (a := f.type),
    Eq.comm (a := f.integer), Eq.comm (a := f.string), Go.Value.eq_comm f.interface]

theorem deepEqual_comm (rt : Runtime) (v w : Go.Value .interface) :
    rt.deepEqual v w = rt.deepEqual w v := by
  rw [Bool.eq_iff_iff, rt.deepEqual_iff, rt.deepEqual_iff]
  exact ⟨Go.DeepEqual.symm, Go.DeepEqual.symm⟩

/-- `Equals` is symmetric on all fields, panics included. -/
theorem equals_comm (rt : Runtime) (f g : StoredField) : f.equals rt g = g.equals rt f := by
  by_cases h : f.type = g.type ∧ f.key = g.key
  · obtain ⟨ht, hk⟩ := h
    cases hc : f.type.comparison with
    | bytes =>
      rw [equals_bytes ht hk hc, equals_bytes ht.symm hk.symm (ht ▸ hc)]
      cases assertBytes rt.heap f.interface with
      | none => cases assertBytes rt.heap g.interface <;> rfl
      | some a =>
        cases assertBytes rt.heap g.interface with
        | none => rfl
        | some b => exact congrArg some BEq.comm
    | deep =>
      rw [equals_deep ht hk hc, equals_deep ht.symm hk.symm (ht ▸ hc), deepEqual_comm]
    | plain => rw [equals_plain ht hk hc, equals_plain ht.symm hk.symm (ht ▸ hc), eq_comm]
  · rw [equals_differ (Decidable.not_and_iff_or_not.mp h), equals_differ]
    exact (Decidable.not_and_iff_or_not.mp h).imp Ne.symm Ne.symm

/-- No panic is possible: the bytes are there where bytes are compared, and nothing is in the
interface of one field that `==` panics on. -/
theorem isSome_equals (hf : f.type.comparison = .bytes → (assertBytes rt.heap f.interface).isSome)
    (hg : g.type.comparison = .bytes → (assertBytes rt.heap g.interface).isSome)
    (hplain : f.type.comparison = .plain → f.interface.Comparable) : (f.equals rt g).isSome := by
  by_cases h : f.type = g.type ∧ f.key = g.key
  · obtain ⟨ht, hk⟩ := h
    cases hc : f.type.comparison with
    | bytes =>
      obtain ⟨a, ha⟩ := Option.isSome_iff_exists.mp (hf hc)
      obtain ⟨b, hb⟩ := Option.isSome_iff_exists.mp (hg (ht ▸ hc))
      rw [equals_bytes ht hk hc, ha, hb]
      rfl
    | deep =>
      rw [equals_deep ht hk hc]
      rfl
    | plain =>
      rw [equals_plain ht hk hc, StoredField.eq]
      repeat' split
      all_goals first | rfl | exact Go.Value.isSome_eq (hplain hc) rfl _
  · rw [equals_differ (Decidable.not_and_iff_or_not.mp h)]
    rfl

theorem eq_iff : f.eq g = some true ↔
    f.key = g.key ∧ f.type = g.type ∧ f.integer = g.integer ∧ f.string = g.string ∧
      f.interface.eq g.interface = some true := by
  unfold StoredField.eq
  repeat' split
  all_goals simp_all only [ne_eq, not_not, Option.some.injEq, Bool.false_eq_true,
    false_and, and_false, true_and]

theorem equals_plain_iff (ht : f.type = g.type) (hk : f.key = g.key)
    (hc : f.type.comparison = .plain) : f.equals rt g = some true ↔
      f.integer = g.integer ∧ f.string = g.string ∧ f.interface.eq g.interface = some true := by
  rw [equals_plain ht hk hc, eq_iff]
  simp only [ht, hk, true_and]

theorem equals_deep_iff (ht : f.type = g.type) (hk : f.key = g.key)
    (hc : f.type.comparison = .deep) :
    f.equals rt g = some true ↔ Go.DeepEqual rt.heap f.interface g.interface := by
  rw [equals_deep ht hk hc, Option.some_inj, rt.deepEqual_iff]

end StoredField

end Zap.Zapcore

namespace Zap

open Data Zapcore

/-! ## Primitive values -/

/-- The types of primitive values. -/
inductive AtomKind where
  | bool
  | int (kind : IntKind)
  | uint (kind : UintKind)
  | float64
  | float32
  | complex128
  | complex64
  | string
  | duration
  | time

/-- The kind that a dynamic type is the type of. -/
def AtomKind.ofType : Go.Ty → Option AtomKind
  | .int id =>
    [.uint .uint8, .int .int, .int .int64, .int .int32, .int .int16, .int .int8, .uint .uint,
      .uint .uint64, .uint .uint32, .uint .uint16, .uint .uintptr, .bool, .duration][id]?
  | .float64 _ => some .float64
  | .float32 _ => some .float32
  | .complex128 _ => some .complex128
  | .complex64 _ => some .complex64
  | .string _ => some .string
  | .struct _ _ => some .time
  | _ => none

namespace Atom

def kind : Atom → AtomKind
  | .bool _ => .bool
  | .int kind _ => .int kind
  | .uint kind _ => .uint kind
  | .float64 _ => .float64
  | .float32 _ => .float32
  | .complex128 _ _ => .complex128
  | .complex64 _ _ => .complex64
  | .string _ => .string
  | .duration _ => .duration
  | .time _ => .time

theorem ofType_type (a : Atom) : AtomKind.ofType a.type = some a.kind := by
  cases a with
  | int kind i => cases kind <;> rfl
  | uint kind u => cases kind <;> rfl
  | _ => rfl

/-- No two kinds have one type. -/
theorem kind_eq {a b : Atom} (h : b.type = a.type) : b.kind = a.kind :=
  Option.some.inj ((ofType_type b).symm.trans (h ▸ ofType_type a))

/-- Values of one kind that differ, if at all, in their floats and in the location. -/
inductive Alike (R : Nat → Nat → Prop) : Atom → Atom → Prop where
  | bool (b : Bool) : Alike R (.bool b) (.bool b)
  | int (kind : IntKind) (i : Int64) : Alike R (.int kind i) (.int kind i)
  | uint (kind : UintKind) (u : UInt64) : Alike R (.uint kind u) (.uint kind u)
  | float64 (f g : Binary64) : Alike R (.float64 f) (.float64 g)
  | float32 (f g : Binary32) : Alike R (.float32 f) (.float32 g)
  | complex128 (re im re' im' : Binary64) : Alike R (.complex128 re im) (.complex128 re' im')
  | complex64 (re im re' im' : Binary32) : Alike R (.complex64 re im) (.complex64 re' im')
  | string (s : Bytes) : Alike R (.string s) (.string s)
  | duration (d : Duration) : Alike R (.duration d) (.duration d)
  | time {t u : ClockTime} (hsec : t.time.sec = u.time.sec) (hnsec : t.time.nsec = u.time.nsec)
      (hmono : t.monotonic = u.monotonic) (hloc : Go.Value.related R t.loc u.loc) :
      Alike R (.time t) (.time u)

/-- The clock reading is known from its presence and its amount. -/
theorem reading_eq {m n : Option Int}
    (hp : (if m.isSome then (1 : Int) else 0) = if n.isSome then 1 else 0)
    (ha : m.getD 0 = n.getD 0) : m = n := by
  cases m with
  | none => cases n with
    | none => rfl
    | some y => cases hp
  | some x => cases n with
    | none => cases hp
    | some y => exact congrArg some ha

def floating : Atom → Bool
  | .float64 _ => true
  | .float32 _ => true
  | .complex128 _ _ => true
  | .complex64 _ _ => true
  | _ => false

theorem alike {R : Nat → Nat → Prop} {a b : Atom} (ht : b.type = a.type)
    (hdeep : a.floating = false → a.typed.deep R (ht ▸ b.typed)) : Alike R a b := by
  have hk := kind_eq ht
  cases a with
  | bool x => cases b with
    | bool y => cases x <;> cases y <;> first | exact .bool _ | cases hdeep rfl
    | _ => cases hk
  | int kind i => cases b with
    | int kind' j =>
      cases hk
      obtain rfl := Int64.toInt_inj.mp (hdeep rfl)
      exact .int _ _
    | _ => cases hk
  | uint kind u => cases b with
    | uint kind' v =>
      cases hk
      obtain rfl := UInt64.toNat_inj.mp (Int.ofNat.inj (hdeep rfl))
      exact .uint _ _
    | _ => cases hk
  | float64 f => cases b with
    | float64 g => exact .float64 f g
    | _ => cases hk
  | float32 f => cases b with
    | float32 g => exact .float32 f g
    | _ => cases hk
  | complex128 re im => cases b with
    | complex128 re' im' => exact .complex128 re im re' im'
    | _ => cases hk
  | complex64 re im => cases b with
    | complex64 re' im' => exact .complex64 re im re' im'
    | _ => cases hk
  | string s => cases b with
    | string s' =>
      obtain rfl : s = s' := hdeep rfl
      exact .string s
    | _ => cases hk
  | duration d => cases b with
    | duration d' =>
      obtain rfl := Int64.toInt_inj.mp (hdeep rfl)
      exact .duration _
    | _ => cases hk
  | time t => cases b with
    | time u =>
      obtain ⟨hsec, hnsec, hpresent, hamount, hloc, _⟩ := hdeep rfl
      exact .time hsec (Int.ofNat.inj hnsec) (reading_eq hpresent hamount) hloc
    | _ => cases hk

theorem alike_of_deep {R : Nat → Nat → Prop} {a b : Atom} (h : a.value.deep R b.value) :
    Alike R a b := by
  obtain ⟨ht, hdeep⟩ := h
  exact alike ht fun _ => hdeep

theorem deep_self (R : Nat → Nat → Prop) {a : Atom} (h : a.floating = false) :
    a.typed.deep R a.typed := by
  cases a with
  | float64 f => cases h
  | float32 f => cases h
  | complex128 re im => cases h
  | complex64 re im => cases h
  | time t => exact ⟨rfl, rfl, rfl, rfl, Go.Value.related_self R t.loc, trivial⟩
  | _ => exact rfl

/-- One value, and perhaps a NaN. -/
theorem alike_of_eq (R : Nat → Nat → Prop) {a b : Atom} (h : a.value = b.value) : Alike R a b := by
  obtain ⟨ht, heq⟩ := Go.Value.boxed_eq h
  exact alike ht fun hf => heq ▸ deep_self R hf

/-- What the fields of like values do not hide: floats are compared by their bits, complex numbers
with `==`, locations as pointers. -/
def Exact : Atom → Atom → Prop
  | .float64 f, .float64 g => f = g
  | .float32 f, .float32 g => f = g
  | .complex128 re im, .complex128 re' im' =>
    Go.float64Eq re re' = true ∧ Go.float64Eq im im' = true
  | .complex64 re im, .complex64 re' im' =>
    Go.float32Eq re re' = true ∧ Go.float32Eq im im' = true
  | .time t, .time u => t.loc = u.loc
  | _, _ => True

theorem comparison_field (a : Atom) (key : Bytes) : (a.field key).type.comparison = .plain := by
  cases a with
  | int kind i => cases kind <;> rfl
  | uint kind u => cases kind <;> rfl
  | time t =>
    simp only [field, scalar, scalarField, timeField]
    split <;> rfl
  | _ => rfl

theorem comparable_interface (a : Atom) : a.interface.Comparable := by
  cases a with
  | complex128 re im => exact ⟨rfl, trivial⟩
  | complex64 re im => exact ⟨rfl, trivial⟩
  | time t =>
    simp only [interface]
    split
    · exact ⟨rfl, trivial, trivial, trivial, trivial, trivial, trivial⟩
    · exact ⟨rfl, trivial⟩
  | _ => trivial

theorem outOfRange_eq {t u : ClockTime} (hsec : t.time.sec = u.time.sec)
    (hnsec : t.time.nsec = u.time.nsec) : t.outOfRange = u.outOfRange := by
  simp only [ClockTime.outOfRange, hsec, hnsec]

theorem field_time (t : ClockTime) (key : Bytes) :
    (Atom.time t).field key =
      if t.outOfRange then ⟨key, .timeFull, 0, [], .boxed t.value⟩
      else ⟨key, .time, t.time.unixNano, [], .boxed t.location⟩ := by
  simp only [field, scalar, scalarField, timeField, interface, ClockTime.outOfRange,
    decide_eq_true_eq]
  split <;> rfl

/-- Pointers that are related are the same location if `Location` returns the same pointer. -/
theorem location_eq {R : Nat → Nat → Prop} {t u : ClockTime} (h : Go.Value.related R t.loc u.loc) :
    t.location.eq u.location = some true ↔ t.loc = u.loc := by
  simp only [ClockTime.location, Go.Value.eq, Option.some_inj, beq_iff_eq]
  revert h
  cases t.loc with
  | none => cases u.loc with
    | none => exact fun _ => iff_of_true rfl rfl
    | some y => exact False.elim
  | some x => cases u.loc with
    | none => exact False.elim
    | some y => exact fun _ => Option.some_inj.symm

theorem value_eq {t u : ClockTime} (hsec : t.time.sec = u.time.sec)
    (hnsec : t.time.nsec = u.time.nsec) (hmono : t.monotonic = u.monotonic) :
    t.value.eq u.value = some true ↔ t.loc = u.loc := by
  dsimp only [ClockTime.value, timeType]
  simp only [Go.Value.eq, hsec, hnsec, hmono, BEq.rfl]
  by_cases h : t.loc = u.loc
  · simp only [h, BEq.rfl]
  · simp only [h, beq_eq_false_iff_ne.mpr h, Option.some_inj, Bool.false_eq_true]

theorem equals_time_iff (rt : Runtime) (key : Bytes) {R : Nat → Nat → Prop} {t u : ClockTime}
    (hsec : t.time.sec = u.time.sec) (hnsec : t.time.nsec = u.time.nsec)
    (hmono : t.monotonic = u.monotonic) (hloc : Go.Value.related R t.loc u.loc) :
    ((Atom.time t).field key).equals rt ((Atom.time u).field key) = some true ↔ t.loc = u.loc := by
  rw [field_time, field_time, outOfRange_eq hsec hnsec]
  have hnano : t.time.unixNano = u.time.unixNano := by
    simp only [Time.unixNano, hsec, hnsec]
  split
  · refine (StoredField.equals_plain_iff (by rfl) (by rfl) (by rfl)).trans ?_
    rw [← value_eq hsec hnsec hmono]
    exact ⟨fun h => h.2.2, fun h => ⟨rfl, rfl, h⟩⟩
  · refine (StoredField.equals_plain_iff (by rfl) (by rfl) (by rfl)).trans ?_
    rw [← location_eq hloc]
    exact ⟨fun h => h.2.2, fun h => ⟨hnano, rfl, h⟩⟩

/-- A field whose interface is nil equals itself. -/
theorem equals_self (rt : Runtime) (a : Atom) (key : Bytes) (h : a.interface = .nil) :
    (a.field key).equals rt (a.field key) = some true := by
  refine (StoredField.equals_plain_iff rfl rfl (comparison_field a key)).mpr ⟨rfl, rfl, ?_⟩
  change a.interface.eq a.interface = some true
  rw [h]
  rfl

/-- The fields of like values are equal if nothing tells them apart. -/
theorem equals_iff (rt : Runtime) (key : Bytes) {R : Nat → Nat → Prop} {a b : Atom}
    (h : Alike R a b) : (a.field key).equals rt (b.field key) = some true ↔ a.Exact b := by
  cases h with
  | bool b => exact iff_of_true (equals_self rt _ key rfl) trivial
  | int kind i => exact iff_of_true (equals_self rt _ key rfl) trivial
  | uint kind u => exact iff_of_true (equals_self rt _ key rfl) trivial
  | float64 f g =>
    refine (StoredField.equals_plain_iff (by rfl) (by rfl) (by rfl)).trans ?_
    exact ⟨fun h => congrArg Int64.toUInt64 h.1, fun h => ⟨congrArg UInt64.toInt64 h, rfl, rfl⟩⟩
  | float32 f g =>
    refine (StoredField.equals_plain_iff (by rfl) (by rfl) (by rfl)).trans ?_
    exact ⟨fun h => UInt32.toUInt64_inj.mp (congrArg Int64.toUInt64 h.1),
      fun h => ⟨congrArg (fun f => (UInt32.toUInt64 f).toInt64) h, rfl, rfl⟩⟩
  | complex128 re im re' im' =>
    refine (StoredField.equals_plain_iff (by rfl) (by rfl) (by rfl)).trans ?_
    refine ⟨fun h => Bool.and_eq_true_iff.mp (Option.some.inj h.2.2), fun h => ⟨rfl, rfl, ?_⟩⟩
    exact congrArg some (Bool.and_eq_true_iff.mpr h)
  | complex64 re im re' im' =>
    refine (StoredField.equals_plain_iff (by rfl) (by rfl) (by rfl)).trans ?_
    refine ⟨fun h => Bool.and_eq_true_iff.mp (Option.some.inj h.2.2), fun h => ⟨rfl, rfl, ?_⟩⟩
    exact congrArg some (Bool.and_eq_true_iff.mpr h)
  | string s => exact iff_of_true (equals_self rt _ key rfl) trivial
  | duration d => exact iff_of_true (equals_self rt _ key rfl) trivial
  | time hsec hnsec hmono hloc => exact equals_time_iff rt key hsec hnsec hmono hloc

/-- A value that is deeply equal to itself is not a complex number with NaNs. -/
theorem exact_self {R : Nat → Nat → Prop} {a : Atom} (h : a.value.deep R a.value) : a.Exact a := by
  obtain ⟨_, hdeep⟩ := h
  cases a with
  | complex128 re im => exact hdeep
  | complex64 re im => exact hdeep
  | float64 f => exact rfl
  | float32 f => exact rfl
  | time t => exact rfl
  | _ => trivial

end Atom

/-! ## Bytes -/

theorem byteOf_byteValue (b : UInt8) : byteOf (byteValue b) = some b := by
  simp only [byteValue, byteOf, Int.toNat_natCast, UInt8.ofNat_toNat]

theorem mapM_byteOf (bs : Bytes) : (bs.map byteValue).mapM byteOf = some bs := by
  induction bs with
  | nil => rfl
  | cons b bs ih =>
    rw [List.map_cons, List.mapM_cons, byteOf_byteValue, ih]
    rfl

theorem eq_of_deep_byteValue {R : Nat → Nat → Prop} {a b : UInt8}
    (h : (byteValue a).deep R (byteValue b)) : a = b := by
  obtain ⟨_, hdeep⟩ := h
  exact UInt8.toNat_inj.mp (Int.ofNat.inj hdeep)

namespace ByteSlice

variable {heap : Nat → Go.Object} {v w : ByteSlice heap}

def value (v : ByteSlice heap) : Go.Value (.slice byteSlice) := .slice v.ref

theorem assertBytes_value (v : ByteSlice heap) : assertBytes heap (.boxed v.value) = some v.bytes := by
  obtain ⟨ref, bytes, empty, stored⟩ := v
  cases ref with
  | none => exact congrArg some (empty rfl).symm
  | some r =>
    simp only [value, assertBytes, ↓reduceIte, stored r rfl]
    exact mapM_byteOf bytes

theorem bytes_eq (h : Go.DeepEqual heap v.value w.value) : v.bytes = w.bytes := by
  obtain ⟨R, hR, hrel⟩ := h
  obtain ⟨ref, bytes, empty, stored⟩ := v
  obtain ⟨ref', bytes', empty', stored'⟩ := w
  cases ref with
  | none => cases ref' with
    | none => exact (empty rfl).trans (empty' rfl).symm
    | some y => cases hrel
  | some x => cases ref' with
    | none => cases hrel
    | some y =>
      cases hrel with
      | inl hxy =>
        have hmap : bytes.map byteValue = bytes'.map byteValue :=
          Go.Object.elems.inj ((stored x rfl).symm.trans (hxy ▸ stored' y rfl))
        have hsome : some bytes = some bytes' := by
          rw [← mapM_byteOf bytes, hmap, mapM_byteOf]
        exact Option.some.inj hsome
      | inr hxy =>
        have hdeep := hR x y hxy
        rw [stored x rfl, stored' y rfl] at hdeep
        have hall : List.Forall₂ (· = ·) bytes bytes' :=
          (List.forall₂_map_left_iff.mp (List.forall₂_map_right_iff.mp hdeep)).imp
            fun _ _ => eq_of_deep_byteValue
        exact List.forall₂_eq_eq_eq ▸ hall

end ByteSlice

/-! ## Arguments -/

section Arguments

variable {heap : Nat → Go.Object}

def pointerTo (type : Nat) (p : Option (AtomPointer heap)) : Go.Value (.pointer type) :=
  .pointer (p.map (·.ref))

def sliceOf (type : Nat) (val : Option Nat) : Go.Value (.slice type) := .slice val

namespace Argument

/-- The same constructor with the same key, and arguments that are deeply equal. -/
inductive Same : Argument heap → Argument heap → Prop where
  | skip : Same .skip .skip
  | openNamespace (key : Bytes) : Same (.openNamespace key) (.openNamespace key)
  | stack (key trace : Bytes) : Same (.stack key trace) (.stack key trace)
  | atom (key : Bytes) {a b : Atom} (h : Go.DeepEqual heap a.value b.value) :
    Same (.atom key a) (.atom key b)
  | atomp (key : Bytes) (type : Nat) {p q : Option (AtomPointer heap)}
    (h : Go.DeepEqual heap (pointerTo type p) (pointerTo type q)) :
    Same (.atomp key type p) (.atomp key type q)
  | binary (key : Bytes) {v w : ByteSlice heap} (h : Go.DeepEqual heap v.value w.value) :
    Same (.binary key v) (.binary key w)
  | byteString (key : Bytes) {v w : ByteSlice heap} (h : Go.DeepEqual heap v.value w.value) :
    Same (.byteString key v) (.byteString key w)
  | reflect (key : Bytes) {v w : Go.Value .interface} (h : Go.DeepEqual heap v w) :
    Same (.reflect key v) (.reflect key w)
  | stringer (key : Bytes) {v w : Go.Value .interface} (h : Go.DeepEqual heap v w) :
    Same (.stringer key v) (.stringer key w)
  | array (key : Bytes) {v w : Go.Value .interface} (h : Go.DeepEqual heap v w) :
    Same (.array key v) (.array key w)
  | slice (key : Bytes) (type : Nat) {v w : Option Nat}
    (h : Go.DeepEqual heap (sliceOf type v) (sliceOf type w)) :
    Same (.slice key type v) (.slice key type w)
  | object (key : Bytes) {v w : Go.Value .interface} (h : Go.DeepEqual heap v w) :
    Same (.object key v) (.object key w)
  | inline {v w : Go.Value .interface} (h : Go.DeepEqual heap v w) : Same (.inline v) (.inline w)
  | dict (key : Bytes) {v w : Option Nat}
    (h : Go.DeepEqual heap (sliceOf dictObject v) (sliceOf dictObject w)) :
    Same (.dict key v) (.dict key w)
  | namedError (key : Bytes) {v w : Go.Value .interface} (h : Go.DeepEqual heap v w) :
    Same (.namedError key v) (.namedError key w)

/-- Nothing inside a Stringer or an inlined object is of a type that `==` panics on, and a complex
number behind a pointer has no NaN in it. -/
def Regular : Argument heap → Prop
  | .atomp _ _ (some p) => p.atom.Exact p.atom
  | .stringer _ v => v.Comparable
  | .inline v => v.Comparable
  | _ => True

/-- Where fields are compared with `==`, nothing that it sees tells the arguments apart. -/
def Exact : Argument heap → Argument heap → Prop
  | .atom _ a, .atom _ b => a.Exact b
  | .atomp _ _ (some p), .atomp _ _ (some q) => p.atom.Exact q.atom
  | .stringer _ v, .stringer _ w => v.eq w = some true
  | .inline v, .inline w => v.eq w = some true
  | _, _ => True

end Argument

theorem AtomPointer.alike {p q : AtomPointer heap} {R : Nat → Nat → Prop}
    (hR : Go.Bisimulation heap R) (h : Go.Value.related R (some p.ref) (some q.ref)) :
    p.atom.Alike R q.atom := by
  cases h with
  | inl heq =>
    refine Atom.alike_of_eq R (Go.Object.cell.inj ?_)
    rw [← p.stored, heq, q.stored]
  | inr hxy =>
    have hdeep := hR p.ref q.ref hxy
    rw [p.stored, q.stored] at hdeep
    exact Atom.alike_of_deep hdeep

end Arguments

namespace Argument

variable {rt : Runtime} {a b : Argument rt.heap}

theorem equals_bytes_of_deepEqual (type : FieldType) (hc : type.comparison = .bytes) (key : Bytes)
    {v w : ByteSlice rt.heap} (h : Go.DeepEqual rt.heap v.value w.value) :
    StoredField.equals rt ⟨key, type, 0, [], .boxed v.value⟩ ⟨key, type, 0, [], .boxed w.value⟩ =
      some true := by
  rw [StoredField.equals_bytes (by rfl) (by rfl) hc, v.assertBytes_value, w.assertBytes_value, v.bytes_eq h]
  exact congrArg some BEq.rfl

theorem equals_of_deepEqual (type : FieldType) (hc : type.comparison = .deep) (key : Bytes)
    {v w : Go.Value .interface} (h : Go.DeepEqual rt.heap v w) :
    StoredField.equals rt ⟨key, type, 0, [], v⟩ ⟨key, type, 0, [], w⟩ = some true :=
  (StoredField.equals_deep_iff (by rfl) (by rfl) hc).mpr h

theorem equals_iff_eq (type : FieldType) (hc : type.comparison = .plain) (key : Bytes)
    {v w : Go.Value .interface} :
    StoredField.equals rt ⟨key, type, 0, [], v⟩ ⟨key, type, 0, [], w⟩ = some true ↔
      v.eq w = some true := by
  rw [StoredField.equals_plain_iff (by rfl) (by rfl) hc]
  exact ⟨fun h => h.2.2, fun h => ⟨rfl, rfl, h⟩⟩

theorem equals_atomp_iff (key : Bytes) (type : Nat) {p q : Option (AtomPointer rt.heap)}
    (h : Go.DeepEqual rt.heap (pointerTo type p) (pointerTo type q)) :
    (Argument.atomp key type p).field.equals rt (Argument.atomp key type q).field = some true ↔
      (Argument.atomp key type p).Exact (.atomp key type q) := by
  obtain ⟨R, hR, hrel⟩ := h
  cases p with
  | none => cases q with
    | none => exact iff_of_true (equals_of_deepEqual _ rfl key ⟨R, hR, trivial⟩) trivial
    | some q => cases hrel
  | some p => cases q with
    | none => cases hrel
    | some q => exact Atom.equals_iff rt key (AtomPointer.alike hR hrel)

theorem equals_object (key : Bytes) {v w : Go.Value .interface} (h : Go.DeepEqual rt.heap v w) :
    (objectStored key v).equals rt (objectStored key w) = some true := by
  cases v with
  | nil => cases w with
    | nil => exact equals_of_deepEqual _ rfl key h
    | boxed w => exact h.choose_spec.2.elim
  | boxed v => cases w with
    | nil => exact h.choose_spec.2.elim
    | boxed w => exact equals_of_deepEqual _ rfl key h

theorem equals_namedError (key : Bytes) {v w : Go.Value .interface} (h : Go.DeepEqual rt.heap v w) :
    (namedErrorStored key v).equals rt (namedErrorStored key w) = some true := by
  cases v with
  | nil => cases w with
    | nil => exact (equals_iff_eq .skip rfl []).mpr rfl
    | boxed w => exact h.choose_spec.2.elim
  | boxed v => cases w with
    | nil => exact h.choose_spec.2.elim
    | boxed w => exact equals_of_deepEqual _ rfl key h

/-- Fields of one constructor from deeply equal arguments are equal if nothing tells them apart. -/
theorem equals_iff (h : a.Same b) : a.field.equals rt b.field = some true ↔ a.Exact b := by
  cases h with
  | skip => exact iff_of_true ((equals_iff_eq .skip rfl []).mpr rfl) trivial
  | openNamespace key => exact iff_of_true ((equals_iff_eq .namespace rfl key).mpr rfl) trivial
  | stack key trace => exact iff_of_true (Atom.equals_self rt _ key rfl) trivial
  | atom key h =>
    obtain ⟨R, _, hdeep⟩ := h
    exact Atom.equals_iff rt key (Atom.alike_of_deep hdeep)
  | atomp key type h => exact equals_atomp_iff key type h
  | binary key h => exact iff_of_true (equals_bytes_of_deepEqual _ rfl key h) trivial
  | byteString key h => exact iff_of_true (equals_bytes_of_deepEqual _ rfl key h) trivial
  | reflect key h => exact iff_of_true (equals_of_deepEqual _ rfl key h) trivial
  | stringer key h => exact equals_iff_eq .stringer rfl key
  | array key h => exact iff_of_true (equals_of_deepEqual _ rfl key h) trivial
  | slice key type h => exact iff_of_true (equals_of_deepEqual _ rfl key h.boxed) trivial
  | object key h => exact iff_of_true (equals_object key h) trivial
  | inline h => exact equals_iff_eq .inlineMarshaler rfl []
  | dict key h => exact iff_of_true (equals_object key h.boxed) trivial
  | namedError key h => exact iff_of_true (equals_namedError key h) trivial

theorem exact_self_iff (h : a.Same a) : a.Exact a ↔ a.Regular := by
  cases a with
  | atom key a =>
    cases h with
    | atom _ h =>
      obtain ⟨R, _, hdeep⟩ := h
      exact iff_of_true (Atom.exact_self hdeep) trivial
  | atomp key type p =>
    cases p with
    | none => exact Iff.rfl
    | some p => exact Iff.rfl
  | stringer key v =>
    cases h with
    | stringer _ h =>
      obtain ⟨R, _, hdeep⟩ := h
      exact ⟨Go.Value.comparable_of_eq, fun hv => Go.Value.eq_self hv rfl hdeep⟩
  | inline v =>
    cases h with
    | inline h =>
      obtain ⟨R, _, hdeep⟩ := h
      exact ⟨Go.Value.comparable_of_eq, fun hv => Go.Value.eq_self hv rfl hdeep⟩
  | _ => exact Iff.rfl

/-- `Binary` and `ByteString` hold a `[]byte`. -/
theorem isSome_assertBytes (a : Argument rt.heap) (hc : a.field.type.comparison = .bytes) :
    (assertBytes rt.heap a.field.interface).isSome := by
  cases a with
  | stack key trace => cases hc
  | atom key a => exact absurd (hc.symm.trans (a.comparison_field key)) (fun h => by cases h)
  | atomp key type p =>
    cases p with
    | none => cases hc
    | some p => exact absurd (hc.symm.trans (p.atom.comparison_field key)) (fun h => by cases h)
  | binary key v =>
    refine Option.isSome_iff_exists.mpr ⟨v.bytes, v.assertBytes_value⟩
  | byteString key v =>
    refine Option.isSome_iff_exists.mpr ⟨v.bytes, v.assertBytes_value⟩
  | object key v => cases v <;> cases hc
  | namedError key err => cases err <;> cases hc
  | _ => cases hc

theorem comparable_interface (h : a.Regular) (hc : a.field.type.comparison = .plain) :
    a.field.interface.Comparable := by
  cases a with
  | atom key a => exact a.comparable_interface
  | atomp key type p =>
    cases p with
    | none => cases hc
    | some p => exact p.atom.comparable_interface
  | stringer key v => exact h
  | inline v => exact h
  | object key v => cases v <;> cases hc
  | namedError key err =>
    cases err with
    | nil => trivial
    | boxed v => cases hc
  | skip => trivial
  | openNamespace key => trivial
  | stack key trace => trivial
  | _ => cases hc

theorem isSome_equals (h : a.Regular) : (a.field.equals rt b.field).isSome :=
  StoredField.isSome_equals a.isSome_assertBytes b.isSome_assertBytes (comparable_interface h)

end Argument

/-! ## Fields that were made -/

namespace Made

section Made

variable {heap : Nat → Go.Object}

/-- The same constructor from deeply equal arguments. Those of `Any` have one dynamic type, so that
it calls the same constructor for them. -/
inductive Same : Made heap → Made heap → Prop where
  | direct {a b : Argument heap} (h : a.Same b) : Same (.direct a) (.direct b)
  | any (key : Bytes) {a b : AnyOperand heap} (h : (a.argument key).Same (b.argument key)) :
    Same (.any key a) (.any key b)

theorem Same.argument {a b : Made heap} (h : a.Same b) : a.argument.Same b.argument := by
  cases h with
  | direct h => exact h
  | any key h => exact h

def Regular (a : Made heap) : Prop := a.argument.Regular

def Exact (a b : Made heap) : Prop := a.argument.Exact b.argument

end Made

/-- `Equals` is an equality as far as two fields can tell. -/
structure WellBehaved (rt : Runtime) (a b : Made rt.heap) : Prop where
  returns : (a.field.equals rt b.field).isSome
  refl_left : a.field.equals rt a.field = some true
  refl_right : b.field.equals rt b.field = some true
  symm : a.field.equals rt b.field = b.field.equals rt a.field
  congr : a.Same b → a.field.equals rt b.field = some true

variable {rt : Runtime} {a b : Made rt.heap}

theorem equals_self_iff (h : a.Same a) : a.field.equals rt a.field = some true ↔ a.Regular :=
  (Argument.equals_iff h.argument).trans (Argument.exact_self_iff h.argument)

/-- `Equals` behaves on fields from arguments that are deeply equal to themselves just if it can
compare them at all, and `==` tells none apart that are deeply equal to each other. -/
theorem wellBehaved_iff (rt : Runtime) {a b : Made rt.heap} (ha : a.Same a) (hb : b.Same b) :
    WellBehaved rt a b ↔ a.Regular ∧ b.Regular ∧ (a.Same b → a.Exact b) := by
  constructor
  · intro h
    refine ⟨(equals_self_iff ha).mp h.refl_left, (equals_self_iff hb).mp h.refl_right, fun hab => ?_⟩
    exact (Argument.equals_iff hab.argument).mp (h.congr hab)
  · rintro ⟨hra, hrb, hexact⟩
    exact {
      returns := Argument.isSome_equals hra
      refl_left := (equals_self_iff ha).mpr hra
      refl_right := (equals_self_iff hb).mpr hrb
      symm := StoredField.equals_comm rt _ _
      congr := fun hab => (Argument.equals_iff hab.argument).mpr (hexact hab) }

end Made

open Classical in
/-- A runtime with a given memory. -/
noncomputable def runtimeOf (heap : Nat → Go.Object) : Runtime where
  heap := heap
  deepEqual v w := decide (Go.DeepEqual heap v w)
  deepEqual_iff _ _ := decide_eq_true_iff

/-- A memory in which all slices are empty. -/
noncomputable def emptySlices : Runtime := runtimeOf fun _ => .elems []

/-- `Stringer(key, val)` of a value whose type is a kind of string. -/
def stringerOfString (key val : Bytes) : Made emptySlices.heap :=
  .direct (.stringer key (.boxed (t := .string 1) (.string val)))

theorem same_stringerOfString (key val : Bytes) :
    (stringerOfString key val).Same (stringerOfString key val) :=
  .direct (.stringer key ⟨fun _ _ => False, fun _ _ h => h.elim, rfl, rfl⟩)

theorem stringerOfString_wellBehaved :
    Made.WellBehaved emptySlices (stringerOfString [] []) (stringerOfString [] []) :=
  (Made.wellBehaved_iff emptySlices (same_stringerOfString [] []) (same_stringerOfString [] [])).mpr
    ⟨⟨rfl, trivial⟩, ⟨rfl, trivial⟩, fun _ => rfl⟩

/-- `Inline(DictObject(val...))`. -/
def inlineDict (val : Option Nat) : Made emptySlices.heap :=
  .direct (.inline (.boxed (sliceOf dictObject val)))

/-- `Stringer(key, val)` of a slice. -/
def stringerOfSlice (key : Bytes) (val : Option Nat) : Made emptySlices.heap :=
  .direct (.stringer key (.boxed (sliceOf 2 val)))

theorem deepEqual_sliceOf (heap : Nat → Go.Object) (type : Nat) (val : Option Nat) :
    Go.DeepEqual heap (sliceOf type val) (sliceOf type val) :=
  ⟨fun _ _ => False, fun _ _ h => h.elim, Go.Value.related_self _ val⟩

/-- Comparing a field with itself panics, if it inlines a dictionary or has a slice for a Stringer. -/
theorem equals_slice_panics :
    (inlineDict none).Same (inlineDict none) ∧
      (inlineDict none).field.equals emptySlices (inlineDict none).field = none ∧
      (stringerOfSlice [] (some 0)).Same (stringerOfSlice [] (some 0)) ∧
      (stringerOfSlice [] (some 0)).field.equals emptySlices (stringerOfSlice [] (some 0)).field =
        none :=
  ⟨.direct (.inline (deepEqual_sliceOf _ _ _).boxed), rfl,
    .direct (.stringer _ (deepEqual_sliceOf _ _ _).boxed), rfl⟩

end Zap
