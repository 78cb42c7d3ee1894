import Zap.Laws.EncodeEntry
import Zap.Laws.IoCore
import Zap.Laws.Transcript
import Zap.Laws.Unwinding

/-!
# Fields that no encoder panics on

The JSON and the console encoder panic where a marshaler does, and the JSON encoder also where it is
to write callers and has no function for them. So on fields whose marshalers return they are steady.
-/

set_option autoImplicit false

namespace Zap.Zapcore

open Data

variable [Host]

/-- The field's marshaler returns, whatever errors the encoder answers it. -/
def Field.Fine (f : Field) : Prop := ∀ refl, Returns refl f.addTo

theorem JsonEncoder.addFields_fine {fields : List Field} (h : ∀ f ∈ fields, f.Fine)
    (enc : JsonEncoder) : ∃ full, enc.addFields fields = some full ∧ full.cfg = enc.cfg := by
  obtain ⟨full, err, hrun⟩ := addFields_returns
    (fun refl => (returns_addFields_iff fields).mpr fun f hf => h f hf refl) enc
  have hadd : enc.addFields fields = some full := by
    simp only [addFields, hrun, Option.bind_eq_bind, Option.bind_some]
  exact ⟨full, hadd, (enc.addFields_cfg hadd).1⟩

/-- The JSON encoder, with a function for callers if it has a key for them. -/
theorem steady_json :
    Steady (fun enc : Option JsonEncoder => ∃ e, enc = some e ∧
      (e.cfg.callerKey ≠ [] → e.cfg.encodeCaller ≠ none)) Field.Fine where
  addFields := by
    rintro _ fields ⟨enc, rfl, hcaller⟩ hfields
    obtain ⟨full, hadd, hcfg⟩ := enc.addFields_fine hfields
    have hnone : FieldEncoder.addFields enc fields = some full := hadd
    refine ⟨?_, full, hadd, hcfg ▸ hcaller⟩
    simp only [Panics.addFields, Option.any_some, hnone, Option.isNone_some]
  encodeEntry := by
    rintro _ fields ⟨enc, rfl, hcaller⟩ hfields ent
    obtain ⟨ms, hms⟩ := metadata_isSome hcaller ent
    obtain ⟨full, hadd, _⟩ := enc.addFields_fine hfields
    have hsome : FieldEncoder.encodeEntry enc ent fields =
        some ((full.behind (JsonEncoder.metadataText enc.cfg enc.spaced ms)).finish ent) := by
      refine (enc.encodeEntry_eq ent fields).trans ?_
      rw [hms, Option.bind_some, JsonEncoder.addFields_behind, hadd]
      rfl
    simp only [Panics.encodeEntry, Option.any_some, hsome, Option.isNone_some]

/-- The console encoder. -/
theorem steady_console :
    Steady (fun enc : Option ConsoleEncoder => ∃ c, enc = some c) Field.Fine where
  addFields := by
    rintro _ fields ⟨c, rfl⟩ hfields
    obtain ⟨full, hadd, _⟩ := c.json.addFields_fine hfields
    have hsome : FieldEncoder.addFields c fields = some ⟨full⟩ := by
      simp only [FieldEncoder.addFields, ConsoleEncoder.addFields, hadd, Option.bind_eq_bind,
        Option.bind_some]
    refine ⟨?_, ⟨full⟩, hsome⟩
    simp only [Panics.addFields, Option.any_some, hsome, Option.isNone_some]
  encodeEntry := by
    rintro _ fields ⟨c, rfl⟩ hfields ent
    obtain ⟨line, hsome⟩ := Option.isSome_iff_exists.mp (c.encodeEntry_returns
      (fun refl => (returns_addFields_iff fields).mpr fun f hf => hfields f hf refl) ent)
    have hsome : FieldEncoder.encodeEntry c ent fields = some line := hsome
    simp only [Panics.encodeEntry, Option.any_some, hsome, Option.isNone_some]

end Zap.Zapcore
