import Zap.Laws.Transcript

/-!
# Log lines cannot be forged

Everything an entry carries, from its message to the keys of nested objects, goes through the
escaping of strings, so no control character reaches the output but the newline that ends it.
`lines_unforgeable` is the consequence for a whole log: cutting the stream at its newlines gives
back the encoded entries, one by one.
-/

set_option autoImplicit false

namespace Zap.Zapcore

open Data

/-- The time encoders of the package with a fixed layout. -/
def builtinTimeEncoders : List TimeEncoder :=
  [epochTimeEncoder, epochMillisTimeEncoder, epochNanosTimeEncoder, iso8601TimeEncoder,
    rfc3339TimeEncoder, rfc3339NanoTimeEncoder]

/-- Each of them makes one call, and its text is plain. -/
theorem builtinTimeEncoders_plain {e : TimeEncoder} (h : e ∈ builtinTimeEncoders) (t : Time) :
    ∃ c, e t = [c] ∧ c.plain = true := by
  simp only [builtinTimeEncoders, List.mem_cons, List.not_mem_nil, or_false] at h
  rcases h with rfl | rfl | rfl | rfl | rfl | rfl
  · exact ⟨_, rfl, rfl⟩
  · exact ⟨_, rfl, rfl⟩
  · exact ⟨_, rfl, rfl⟩
  · exact ⟨_, rfl, (by decide : Time.plainLayout Time.iso8601 = true)⟩
  · exact ⟨_, rfl, (by decide : Time.plainLayout Time.rfc3339 = true)⟩
  · exact ⟨_, rfl, (by decide : Time.plainLayout Time.rfc3339Nano = true)⟩

/-- No byte below `0x20`. -/
def Printable (t : Bytes) : Prop := ∀ b ∈ t, 0x20 ≤ b

instance (t : Bytes) : Decidable (Printable t) := inferInstanceAs (Decidable (∀ b ∈ t, _))

theorem printable_comma (spaced : Bool) : Printable (Json.comma spaced) := by
  cases spaced <;> decide

theorem printable_keyText (spaced : Bool) (key : Bytes) :
    Printable (Json.keyText spaced (escape key)) := by
  have hend : ∀ b ∈ 0x22 :: 0x3A :: Json.space spaced, (0x20 : UInt8) ≤ b := by
    cases spaced <;> decide
  exact List.forall_mem_cons.mpr ⟨by decide, List.forall_mem_append.mpr ⟨escape_ge key, hend⟩⟩

/-- The printable texts are a class when the configured functions keep to it. -/
theorem textClass_printable {cfg : EncoderConfig}
    (htime : ∀ e, cfg.encodeTime = some e → e ∈ builtinTimeEncoders)
    (hreflect : ∀ v bs, cfg.reflectedEncoder v = .ok bs → Printable (JsonEncoder.trimNewline bs)) :
    TextClass cfg Printable where
  nil := fun _ hb => absurd hb List.not_mem_nil
  append hx hy := List.forall_mem_append.mpr ⟨hx, hy⟩
  comma := printable_comma
  bracket := by decide
  key := printable_keyText
  prim := primText_ge
  time := by
    intro t c hc
    unfold EncoderConfig.timeCalls at hc
    split at hc
    · next e he =>
      obtain ⟨c', hcalls, hplain⟩ := builtinTimeEncoders_plain (htime e he) t
      rw [hcalls, List.mem_singleton] at hc
      exact callText_ge (hc ▸ hplain)
    · exact absurd hc List.not_mem_nil
  reflected := hreflect
  null := by decide

/-! ## Whole logs -/

/-- One call of a logger: the fields it was given before, the entry, and the fields of the
call. -/
structure Logged where
  context : List Field
  entry : Entry
  fields : List Field

/-- The line that `NewJSONEncoder` and its clones make of a call; `none` if a marshaler
panics. -/
def encodeLogged [Host] (cfg : EncoderConfig) (l : Logged) : Option Bytes := do
  let enc ← (newJSONEncoder cfg false).addFields l.context
  enc.encodeEntry l.entry l.fields

/-- Nobody panics while the call is encoded: no field's marshaler, and a caller that is to be written
has a function to write it. -/
structure Logged.Returns [Host] (cfg : EncoderConfig) (l : Logged) : Prop where
  fields : ∀ f ∈ l.context ++ l.fields, Zapcore.Returns cfg.reflectError f.addTo
  caller : l.entry.caller.defined = true → cfg.callerKey ≠ [] → cfg.encodeCaller ≠ none

/-- A call has a line unless somebody panics. -/
theorem encodeLogged_isSome_iff [Host] (cfg : EncoderConfig) (l : Logged) :
    (encodeLogged cfg l).isSome = true ↔ l.Returns cfg := by
  have hline : encodeLogged cfg l =
      (newJSONEncoder cfg false).encodeEntry l.entry (l.context ++ l.fields) :=
    (newJSONEncoder cfg false).encodeEntry_addFields l.entry l.context l.fields
  -- What stands in front of the fields makes no difference to whether they panic.
  have hfields (p : Bytes) :
      (((newJSONEncoder cfg false).behind p).addFields (l.context ++ l.fields)).isSome = true ↔
        ∀ f ∈ l.context ++ l.fields, Zapcore.Returns cfg.reflectError f.addTo := by
    have hrun := JsonEncoder.isSome_run (addFields (l.context ++ l.fields)) (newJSONEncoder cfg false)
    rw [returns_addFields_iff] at hrun
    rw [JsonEncoder.addFields_behind, Option.isSome_map, JsonEncoder.addFields]
    refine Iff.trans ?_ hrun
    cases JsonEncoder.run (addFields (l.context ++ l.fields)) (newJSONEncoder cfg false) <;> exact Iff.rfl
  have hmeta := metadata_isSome_iff (newJSONEncoder cfg false).cfg l.entry
  rw [hline, JsonEncoder.encodeEntry_eq]
  cases hms : metadata (newJSONEncoder cfg false).cfg l.entry with
  | none =>
    rw [hms] at hmeta
    exact ⟨fun h => (by cases h), fun h => hmeta.mpr h.caller⟩
  | some ms =>
    rw [Option.bind_some, Option.isSome_map, hfields]
    exact ⟨fun h => ⟨h, hmeta.mp (by rw [hms]; rfl)⟩, Logged.Returns.fields⟩

/-- What a constructed encoder encodes, with its context, is a text of the class and the line
ending. -/
theorem encodeLogged_text [Host] {cfg : EncoderConfig} {T : Bytes → Prop}
    (h : TextClass (newJSONEncoder cfg false).cfg T) {l : Logged} {out : Bytes}
    (henc : encodeLogged cfg l = some out) : ∃ t, out = t ++ cfg.effectiveLineEnding ∧ T t := by
  obtain ⟨enc, hctx, hout⟩ := Option.bind_eq_some_iff.mp henc
  obtain ⟨⟨enc', err⟩, hrun, hsame⟩ := Option.bind_eq_some_iff.mp hctx
  cases hsame
  have hext := run_extends h _ rfl hrun
  obtain ⟨t, ht, hT⟩ := hext.buf
  have hbuf : T enc.buf := by
    rw [ht]
    exact hT
  have hclass : TextClass enc.cfg T := hext.cfg ▸ h
  obtain ⟨u, hu, hU⟩ := encodeEntry_text hclass hbuf hout
  refine ⟨u, ?_, hU⟩
  rw [hu, hext.cfg]
  rfl

/-- There is a line for every call of a log in which nobody panics. -/
theorem length_lines [Host] {cfg : EncoderConfig} {log : List Logged}
    (h : ∀ l ∈ log, l.Returns cfg) : (log.filterMap (encodeLogged cfg)).length = log.length := by
  rw [List.length_filterMap_eq_countP, List.countP_eq_length]
  intro l hl
  exact (encodeLogged_isSome_iff cfg l).mpr (h l hl)

/-- With the default line ending, every encoded entry is one line: no byte below `0x20` but the
newline at its end. A log is the sequence of these lines, one for each entry unless somebody panics,
and cutting it at its newlines gives them back. -/
theorem lines_unforgeable [Host] (cfg : EncoderConfig)
    (hline : cfg.effectiveLineEnding = EncoderConfig.defaultLineEnding)
    (htime : ∀ e, cfg.encodeTime = some e → e ∈ builtinTimeEncoders)
    (hreflect : ∀ v bs, cfg.reflectedEncoder v = .ok bs →
      Printable (JsonEncoder.trimNewline bs)) (log : List Logged) :
    let lines := log.filterMap (encodeLogged cfg)
    (∀ l ∈ lines, ∃ body, l = body ++ [0x0A] ∧ Printable body) ∧
      lines.flatten.count 0x0A = lines.length ∧
      (∀ b ∈ lines.flatten, b < 0x20 → b = 0x0A) ∧
      splitLines [] lines.flatten = lines ∧
      (∀ l ∈ log, (encodeLogged cfg l).isSome = true ↔ l.Returns cfg) ∧
      ((∀ l ∈ log, l.Returns cfg) → lines.length = log.length) := by
  intro lines
  have hlines : ∀ l ∈ lines, ∃ body, l = body ++ [0x0A] ∧ Printable body := by
    intro l hl
    obtain ⟨call, _, hcall⟩ := List.mem_filterMap.mp hl
    obtain ⟨t, ht, hT⟩ := encodeLogged_text (textClass_printable htime hreflect) hcall
    exact ⟨t, ht.trans (congrArg (t ++ ·) hline), hT⟩
  have hisLine : ∀ l ∈ lines, IsLine l := by
    intro l hl
    obtain ⟨body, rfl, hbody⟩ := hlines l hl
    exact ⟨body, rfl, fun hmem => absurd (hbody _ hmem) (by decide)⟩
  refine ⟨hlines, count_newline_flatten hisLine, ?_, splitLines_flatten hisLine,
    fun l _ => encodeLogged_isSome_iff cfg l, fun hreturns => ?_⟩
  · intro b hb hlow
    obtain ⟨l, hl, hbl⟩ := List.mem_flatten.mp hb
    obtain ⟨body, rfl, hbody⟩ := hlines l hl
    rcases List.mem_append.mp hbl with hmem | hmem
    · exact absurd (hbody b hmem) (UInt8.not_le.mpr hlow)
    · exact List.mem_singleton.mp hmem
  · exact length_lines hreturns

/-- What the standard library's encoder writes is printable up to its newline. -/
theorem printable_defaultReflected (v : Reflected) {bs : Bytes}
    (h : defaultReflectedEncoder v = .ok bs) : Printable (JsonEncoder.trimNewline bs) := by
  obtain ⟨t, j, rfl, _, hge⟩ := v.json_line bs h
  have htrim : JsonEncoder.trimNewline (t ++ [0x0A]) = t := by simp [JsonEncoder.trimNewline]
  rw [htrim]
  exact hge

/-- A message that carries a forged line, logged under the development configuration. -/
def forged : Logged where
  context := [⟨utf8 "a\nb", .namespace, 0, [], .nil⟩]
  entry :=
    { level := Level.info, time := Time.ofUnixNano 0 Location.utc, loggerName := [],
      message := utf8 "ok\n\x7b\"L\":\"ERROR\"\x7d\n", caller := ⟨false, [], 0, []⟩, stack := [] }
  fields := [⟨utf8 "\r", .string, 0, utf8 "\x01\n", .nil⟩]

theorem forged_returns [Host] : forged.Returns newDevelopmentEncoderConfig := by
  refine ⟨?_, nofun⟩
  show ∀ f ∈ [_, _], _
  simp only [List.forall_mem_cons]
  exact ⟨rfl, rfl, fun _ hmem => absurd hmem List.not_mem_nil⟩

theorem lines_unforgeable_forged :
    let _ : Host := ⟨Location.utc⟩
    let lines := [forged, forged].filterMap (encodeLogged newDevelopmentEncoderConfig)
    lines.length = 2 ∧ lines.flatten.count 0x0A = 2 ∧ splitLines [] lines.flatten = lines := by
  intro host lines
  have h := lines_unforgeable newDevelopmentEncoderConfig rfl
    (fun e he => by cases he; simp [builtinTimeEncoders])
    (fun v bs hbs => printable_defaultReflected v hbs) [forged, forged]
  have hreturns : forged.Returns newDevelopmentEncoderConfig := forged_returns
  have hlen : lines.length = 2 := h.2.2.2.2.2 (by simp [hreturns])
  exact ⟨hlen, h.2.1.trans hlen, h.2.2.2.1⟩

end Zap.Zapcore
