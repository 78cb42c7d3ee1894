import Zap.Laws.ErrorArray
import Zap.Laws.FieldMembers
import Zap.Laws.Primitive
import Zap.Zapslog.Handler

/-!
# The values of attributes

What an attribute of each kind of `slog` is in the output, said without `convertAttrToField` and
without the constructors of fields: a value under its key, for an argument of `Any` what its type
stands for. `convertValue_items` says that the field of an attribute is written as just this. Groups
and values that are still to be resolved have no value of their own.
-/

set_option autoImplicit false

namespace Zap.Zapslog

open Data Zapcore

/-! ## Scalars -/

/-- The bits of a signed integer. -/
def intBits : IntKind → Nat
  | .int => 64
  | .int64 => 64
  | .int32 => 32
  | .int16 => 16
  | .int8 => 8

/-- The bits of an unsigned integer. -/
def uintBits : UintKind → Nat
  | .uint => 64
  | .uint64 => 64
  | .uint32 => 32
  | .uint16 => 16
  | .uint8 => 8
  | .uintptr => 64

/-- The value of a scalar, in which an integer has the bits of its type. -/
def scalarJson (cfg : EncoderConfig) : Scalar → Json
  | .prim (.int kind i) => .num (intDecimal (i.toInt.bmod (2 ^ intBits kind)))
  | .prim (.uint kind u) => .num (natDecimal (u.toNat % 2 ^ uintBits kind))
  | .prim p => p.json
  | .duration d => cfg.durationJson d
  | .time t => cfg.timeJson t

/-! ## Kinds of values -/

/-- One value under a key. -/
def valueItem (key : Bytes) (v : Json) : List Json.Item := [.member (sanitize key) v]

/-- The members of an error, and the report of a panic in one of its methods. -/
def errorItems (key : Bytes) (err : GoError) : List Json.Item :=
  Json.members (errorMembers key err).1 ++ failure key (errorMembers key err).2

/-- An error of a list, if it is not nil. -/
def errorJson : GoError → Option Json
  | .nil => none
  | err => some (.obj (Json.nest (errorItems (utf8 "error") err)))

/-- What an argument of `Any` is written as. -/
def anyItems [Host] (cfg : EncoderConfig) (key : Bytes) : AnyValue → Option (List Json.Item)
  | .nil => some (valueItem key .null)
  | .objectMarshaler m =>
    (denote cfg m).map fun r => valueItem key (.obj (Json.nest r.1)) ++ failure key r.2
  | .arrayMarshaler m =>
    (denote cfg m).map fun r => valueItem key (.arr (Json.elements r.1)) ++ failure key r.2
  | .fields fs =>
    (fs.mapM (Field.items cfg)).map fun iss => valueItem key (.obj (Json.nest iss.flatten))
  | .scalar s => some (valueItem key (scalarJson cfg s))
  | .pointer none => some (valueItem key .null)
  | .pointer (some s) => some (valueItem key (scalarJson cfg s))
  | .slice ss =>
    some (valueItem key (.arr (ss.scalars.map fun s => callsJson (scalarCalls cfg s))))
  | .bytes bs => some (valueItem key (.str (base64 bs)))
  | .error err _ => some (errorItems key err)
  | .errors errs => some (valueItem key (.arr (errs.filterMap errorJson)))
  | .stringer np text =>
    let ms := spoken np key text fun _ => ([], none)
    some (Json.members ms.1 ++ failure key ms.2)
  | .other v =>
    (reflectedJson cfg (some v)).map fun r =>
      match r with
      | .ok j => valueItem key j
      | .error msg => failure key (some msg)

/-- What an attribute is written as that is not a group. There is nothing if a marshaler in it panics,
or a reflected value has no meaning. -/
def Value.items [Host] (cfg : EncoderConfig) (key : Bytes) : Value → Option (List Json.Item)
  | .bool b => some (valueItem key (.bool b))
  | .duration d => some (valueItem key (cfg.durationJson d))
  | .float64 f => some (valueItem key (floatJson f false))
  | .int64 i => some (valueItem key (.num (intDecimal i.toInt)))
  | .string s => some (valueItem key (.str (sanitize s)))
  | .time t => some (valueItem key (cfg.timeJson t))
  | .uint64 u => some (valueItem key (.num (natDecimal u.toNat)))
  | .group _ => none
  | .logValuer _ => none
  | .any v => anyItems cfg key v

/-- An attribute that is not a group, after resolution. -/
def Value.isLeaf : Value → Bool
  | .group _ => false
  | .logValuer _ => false
  | _ => true

/-! ## The fields of the values -/

theorem denote_scalars (cfg : EncoderConfig) (ss : List Scalar) :
    denote cfg (scalars ss) =
      some ((ss.map fun s => callsJson (scalarCalls cfg s)).map .elem, none) := by
  induction ss with
  | nil => rfl
  | cons s ss ih => simp only [scalars, denote, ih, Option.bind_eq_bind, Option.bind_some, List.map_cons]

section

variable [Host] (cfg : EncoderConfig) (key : Bytes)

theorem items_timeField (t : Time) :
    (timeField key t).items cfg = some (valueItem key (cfg.timeJson t)) := by
  rw [timeField]
  split
  · rfl
  · next hin =>
    -- in range the nanoseconds give the time back
    have hsame : Time.ofUnixNano t.unixNano.toInt t.loc = t := by
      obtain ⟨hsec, hnsec⟩ := ofUnixNano_unixNano (t := t) (by omega) (by omega)
      cases t with
      | mk sec nsec loc nsec_lt =>
        simp only [Time.ofUnixNano] at hsec hnsec ⊢
        simp only [hsec, hnsec]
    show some [Json.Item.member (sanitize key)
      (cfg.timeJson (.ofUnixNano t.unixNano.toInt t.loc))] = _
    rw [hsame]
    rfl

theorem items_primField (p : Prim) :
    (primField key p).items cfg = some (valueItem key (scalarJson cfg (.prim p))) := by
  cases p with
  | bool b => cases b <;> rfl
  | int kind i => cases kind <;> rfl
  | uint kind u =>
    have hunsigned : ∀ {bits : Nat}, bits ∈ [8, 16, 32, 64] →
        some [Json.Item.member (sanitize key) (unsignedJson bits u.toInt64)] =
          some [.member (sanitize key) (.num (natDecimal (u.toNat % 2 ^ bits)))] := by
      intro bits hbits
      rw [← unsignedJson_eq hbits]
      rfl
    cases kind <;> exact hunsigned (by decide)
  | float32 f =>
    show some [Json.Item.member (sanitize key)
      (floatJson (Binary64.ofBinary32 (UInt32.toUInt64 f).toInt64.toUInt64.toUInt32) true)] = _
    simp
    rfl
  | _ => rfl

theorem items_scalarField (s : Scalar) :
    (scalarField key s).items cfg = some (valueItem key (scalarJson cfg s)) := by
  cases s with
  | prim p => exact items_primField cfg key p
  | duration d => rfl
  | time t => exact items_timeField cfg key t

/-- Fields mean the items of each. -/
theorem denote_addFields_mapM (fs : List Zapcore.Field) :
    denote cfg (addFields fs) = (fs.mapM (Field.items cfg)).map fun iss => (iss.flatten, none) := by
  induction fs with
  | nil => rfl
  | cons f fs ih =>
    rw [addFields, denote_andThen, List.mapM_cons, ← Field.items_eq, ih]
    cases denote cfg f.addTo with
    | none => rfl
    | some r => cases fs.mapM (Field.items cfg) <;> rfl

theorem items_namedErrorField {err : GoError} (hnil : err ≠ .nil) :
    (namedErrorField key err).items cfg = some (errorItems key err) := by
  cases err with
  | nil => exact absurd rfl hnil
  | _ => rfl

theorem denote_errorsArray (errs : List GoError) :
    denote cfg (errorsArray errs) = some ((errs.filterMap errorJson).map .elem, none) := by
  induction errs with
  | nil => rfl
  | cons err errs ih =>
    by_cases hnil : err = .nil
    · subst hnil
      exact ih
    · have hjson : errorJson err = some (.obj (Json.nest (errorItems (utf8 "error") err))) := by
        cases err with
        | nil => exact absurd rfl hnil
        | _ => rfl
      have hobject : denote cfg (((encodeError (utf8 "error") err).andThen
          (reportError (utf8 "error"))).andThen fun _ => .done none) =
            some (errorItems (utf8 "error") err, none) := by
        rw [denote_andThen, denote_andThen, denote_encodeError]
        simp only [Option.bind_some, denote_reportError, denote, List.append_nil]
        rfl
      rw [errorsArray_cons hnil, List.filterMap_cons, hjson]
      simp only [denote, hobject, ih, Option.elim_none, Option.bind_eq_bind, Option.bind_some,
        List.map_cons]

theorem items_anyField (v : AnyValue) : (anyField key v).items cfg = anyItems cfg key v := by
  cases v with
  | nil => rfl
  | objectMarshaler m => rfl
  | arrayMarshaler m => rfl
  | fields fs =>
    show (denote cfg (addFields fs)).map _ = _
    rw [denote_addFields_mapM, Option.map_map]
    rfl
  | scalar s => exact items_scalarField cfg key s
  | pointer s =>
    cases s with
    | none => rfl
    | some s =>
      rw [anyField, scalarpField_some]
      exact items_scalarField cfg key s
  | slice ss =>
    rw [anyField, scalarsField_eq]
    show (denote cfg (scalars ss.scalars)).map _ = _
    rw [denote_scalars, Option.map_some, Json.elements_elem]
    rfl
  | bytes bs => rfl
  | error err not_nil => exact items_namedErrorField cfg key not_nil
  | errors errs =>
    show (denote cfg (errorsArray errs)).map _ = _
    rw [denote_errorsArray, Option.map_some, Json.elements_elem]
    rfl
  | stringer np text => rfl
  | other v => rfl

/-- The field of an attribute is written as what the attribute stands for. -/
theorem convertValue_items {value : Value} (h : value.isLeaf = true)
    (hzero : ¬ (key = [] ∧ value.isZero = true)) :
    (convertValue key value).items cfg = value.items cfg key := by
  rw [convertValue.eq_def, if_neg hzero]
  cases value with
  | bool b => exact items_primField cfg key (.bool b)
  | duration d => rfl
  | float64 f => rfl
  | int64 i =>
    refine (items_primField cfg key (.int .int64 i)).trans ?_
    show some (valueItem key (.num (intDecimal (i.toInt.bmod (2 ^ 64))))) = _
    simp
    rfl
  | string s => rfl
  | time t => exact items_timeField cfg key t
  | uint64 u =>
    refine (items_primField cfg key (.uint .uint64 u)).trans ?_
    show some (valueItem key (.num (natDecimal (u.toNat % 2 ^ 64)))) = _
    rw [Nat.mod_eq_of_lt u.toNat_lt]
    rfl
  | group attrs => cases h
  | logValuer resolved => cases h
  | any v => exact items_anyField cfg key v

end

end Zap.Zapslog
