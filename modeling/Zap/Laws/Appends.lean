import Zap.Laws.Metadata

/-!
# The encoder only appends, and only certain texts

Whatever a marshaler does, the encoder's buffer only grows, and what it grows by is put together
from the texts of `Zap.Laws.JsonText`. A `TextClass` is a set of byte strings that holds all of
these and is closed under concatenation; `run_extends` says that every run, complete or cut short
by an error, appends a text of the class. The class of all texts and the class of texts without
control characters are the two that matter.
-/

set_option autoImplicit false

namespace Zap.Zapcore

open Data

/-- A class of texts that holds everything a method writes under a configuration. -/
structure TextClass (cfg : EncoderConfig) (T : Bytes → Prop) : Prop where
  nil : T []
  append : ∀ {x y : Bytes}, T x → T y → T (x ++ y)
  comma : ∀ spaced, T (Json.comma spaced)
  bracket : ∀ b ∈ [0x5B, 0x5D, 0x7B, 0x7D], T [b]
  key : ∀ spaced key, T (Json.keyText spaced (escape key))
  prim : ∀ p, T (primText p)
  time : ∀ t, ∀ c ∈ cfg.timeCalls t, T (callText c)
  reflected : ∀ v bs, cfg.reflectedEncoder v = .ok bs → T (JsonEncoder.trimNewline bs)
  null : T (utf8 "null")

namespace TextClass

variable {cfg : EncoderConfig} {T : Bytes → Prop} (h : TextClass cfg T)
include h

theorem separator (spaced : Bool) (t : Bytes) : T (Json.separator spaced t) := by
  unfold Json.separator
  split
  · exact h.nil
  · split
    · exact h.nil
    · exact h.comma spaced

theorem effectiveCalls {calls : List AppendCall} (hcalls : ∀ c ∈ calls, T (callText c))
    (fallback : Prim) : ∀ c ∈ effectiveCalls calls fallback, T (callText c) :=
  effectiveCalls_forall h.prim hcalls fallback

theorem primCalls (ps : List Prim) : ∀ c ∈ ps.map AppendCall.prim, T (callText c) :=
  primCalls_forall h.prim ps

theorem scalarCalls (s : Scalar) : ∀ c ∈ scalarCalls cfg s, T (callText c) :=
  scalarCalls_forall h.prim h.time s

theorem replicate (n : Nat) : T (List.replicate n 0x7D) := by
  induction n with
  | zero => exact h.nil
  | succ n ih => exact h.append (x := [0x7D]) (h.bracket _ (by decide)) ih

end TextClass

/-- `enc'` is `enc` with a text of the class appended; the count of namespaces is not looked
at. -/
structure Extends (T : Bytes → Prop) (enc enc' : JsonEncoder) : Prop where
  cfg : enc'.cfg = enc.cfg
  spaced : enc'.spaced = enc.spaced
  buf : ∃ t, enc'.buf = enc.buf ++ t ∧ T t

namespace Extends

variable {cfg : EncoderConfig} {T : Bytes → Prop}

theorem steady {enc enc' : JsonEncoder} (h : Extends T enc enc') :
    enc'.cfg = enc.cfg ∧ enc'.spaced = enc.spaced :=
  ⟨h.cfg, h.spaced⟩

theorem trans (h : TextClass cfg T) {e₁ e₂ e₃ : JsonEncoder} (h₁ : Extends T e₁ e₂)
    (h₂ : Extends T e₂ e₃) : Extends T e₁ e₃ := by
  obtain ⟨t, ht, hT⟩ := h₁.buf
  obtain ⟨u, hu, hU⟩ := h₂.buf
  refine ⟨h₂.cfg.trans h₁.cfg, h₂.spaced.trans h₁.spaced, t ++ u, ?_, h.append hT hU⟩
  rw [hu, ht, List.append_assoc]

theorem refl (h : TextClass cfg T) (enc : JsonEncoder) : Extends T enc enc :=
  ⟨rfl, rfl, [], (List.append_nil _).symm, h.nil⟩

theorem write (enc : JsonEncoder) {x : Bytes} (hx : T x) : Extends T enc (enc.write x) :=
  ⟨rfl, rfl, x, rfl, hx⟩

theorem put (h : TextClass cfg T) (enc : JsonEncoder) {x : Bytes} (hx : T x) :
    Extends T enc (enc.put x) := write enc (h.append (h.separator _ _) hx)

theorem namespaces {enc enc' : JsonEncoder} (h : Extends T enc enc') (m n : Nat) :
    Extends T { enc with openNamespaces := m } { enc' with openNamespaces := n } :=
  ⟨h.cfg, h.spaced, h.buf⟩

theorem calls (h : TextClass cfg T) {calls : List AppendCall}
    (hcalls : ∀ c ∈ calls, T (callText c)) (enc : JsonEncoder) :
    Extends T enc (calls.foldl JsonEncoder.appendCall enc) := by
  induction calls generalizing enc with
  | nil => exact refl h enc
  | cons c calls ih =>
    obtain ⟨hc, hrest⟩ := List.forall_mem_cons.mp hcalls
    have hput := put h enc hc
    rw [← enc.appendCall_eq] at hput
    exact hput.trans h (ih hrest (enc.appendCall c))

theorem addKey (h : TextClass cfg T) (enc : JsonEncoder) (key : Bytes) :
    Extends T enc (enc.addKey key) := by
  rw [enc.addKey_eq]
  exact put h enc (h.key _ _)

theorem appendString (h : TextClass cfg T) (enc : JsonEncoder) (s : Bytes) :
    Extends T enc (enc.appendString s) := by
  rw [enc.appendString_eq]
  exact put h enc (h.prim (.string s))

theorem appendScalar (h : TextClass cfg T) {enc : JsonEncoder} (hcfg : enc.cfg = cfg) (s : Scalar) :
    Extends T enc (enc.appendScalar s) := by
  rw [enc.appendScalar_eq, hcfg]
  exact Extends.calls h (h.scalarCalls s) enc

theorem reflected (h : TextClass cfg T) {enc : JsonEncoder} (hcfg : enc.cfg = cfg)
    {v : Option Reflected} {bs : Bytes} (hv : enc.encodeReflected v = .ok bs) : T bs := by
  cases v with
  | none => cases hv; exact h.null
  | some v =>
    simp only [JsonEncoder.encodeReflected, hcfg] at hv
    split at hv
    · cases hv
    · next hbs => cases hv; exact h.reflected v _ hbs

theorem openNamespace (h : TextClass cfg T) (enc : JsonEncoder) (key : Bytes) :
    Extends T enc (enc.openNamespace key) :=
  ((addKey h enc key).trans h (write _ (h.bracket 0x7B (by decide)))).namespaces _ _

theorem closeOpenNamespaces (h : TextClass cfg T) (enc : JsonEncoder) :
    Extends T enc enc.closeOpenNamespaces :=
  ⟨rfl, rfl, _, rfl, h.replicate enc.openNamespaces⟩

/-- Does a marshaling method keep to the class? -/
def Keeps (T : Bytes → Prop) (cfg : EncoderConfig) (marshal : JsonEncoder → JsonEncoder.Result) :
    Prop :=
  ∀ {enc enc' : JsonEncoder} {err : Option Bytes}, enc.cfg = cfg →
    marshal enc = some (enc', err) → Extends T enc enc'

theorem appendArray (h : TextClass cfg T) {enc enc' : JsonEncoder} {err : Option Bytes}
    {marshal : JsonEncoder → JsonEncoder.Result} (hcfg : enc.cfg = cfg) (hm : Keeps T cfg marshal)
    (hrun : enc.appendArray marshal = some (enc', err)) : Extends T enc enc' := by
  obtain ⟨⟨inner, e⟩, hinner, hans⟩ := Option.bind_eq_some_iff.mp hrun
  cases hans
  rw [enc.addElementSeparator_write] at hinner
  exact ((put h enc (h.bracket 0x5B (by decide))).trans h (hm hcfg hinner)).trans h
    (write inner (h.bracket 0x5D (by decide)))

theorem appendObject (h : TextClass cfg T) {enc enc' : JsonEncoder} {err : Option Bytes}
    {marshal : JsonEncoder → JsonEncoder.Result} (hcfg : enc.cfg = cfg) (hm : Keeps T cfg marshal)
    (hrun : enc.appendObject marshal = some (enc', err)) : Extends T enc enc' := by
  obtain ⟨⟨inner, e⟩, hinner, hans⟩ := Option.bind_eq_some_iff.mp hrun
  cases hans
  rw [JsonEncoder.addElementSeparator_write] at hinner
  have hopen := (put h { enc with openNamespaces := 0 } (h.bracket 0x7B (by decide))).trans h
    (hm hcfg hinner)
  have hclose := (hopen.trans h (write inner (h.bracket 0x7D (by decide)))).trans h
    (closeOpenNamespaces h _)
  exact hclose.namespaces enc.openNamespaces enc.openNamespaces

end Extends

open JsonEncoder in
/-- Every run appends a text of the class. -/
theorem run_extends {cfg : EncoderConfig} {T : Bytes → Prop} (h : TextClass cfg T)
    {i : Interface} (m : Marshaler i) : Extends.Keeps T cfg (run m) := by
  induction m with
  | done err => intro _ _ _ _ hrun; cases hrun; exact .refl h _
  | panic => intro _ _ _ _ hrun; cases hrun
  | add key s next ih =>
    intro enc _ _ hcfg hrun
    have hkey := Extends.addKey h enc key
    have hval := Extends.appendScalar h (hkey.cfg.trans hcfg) s
    exact (hkey.trans h hval).trans h (ih (hval.cfg.trans (hkey.cfg.trans hcfg)) hrun)
  | addBinary key val next ih =>
    intro enc _ _ hcfg hrun
    have hkey := Extends.addKey h enc key
    have hval := Extends.appendString h (enc.addKey key) (base64 val)
    exact (hkey.trans h hval).trans h (ih (hval.cfg.trans (hkey.cfg.trans hcfg)) hrun)
  | addReflected key val next ih =>
    intro enc _ _ hcfg hrun
    simp only [run] at hrun
    split at hrun
    · exact ih _ hcfg hrun
    · next bs hbs =>
      have hkey := Extends.addKey h enc key
      have hval := Extends.write (enc.addKey key) (Extends.reflected h hcfg hbs)
      exact (hkey.trans h hval).trans h (ih _ (hkey.cfg.trans hcfg) hrun)
  | addArray key arr next iharr ih =>
    intro enc _ _ hcfg hrun
    obtain ⟨⟨mid, e⟩, harr, hrest⟩ := Option.bind_eq_some_iff.mp hrun
    have hkey := Extends.addKey h enc key
    have hval := Extends.appendArray h (hkey.cfg.trans hcfg) iharr harr
    exact (hkey.trans h hval).trans h (ih _ (hval.cfg.trans (hkey.cfg.trans hcfg)) hrest)
  | addObject key obj next ihobj ih =>
    intro enc _ _ hcfg hrun
    obtain ⟨⟨mid, e⟩, hobj, hrest⟩ := Option.bind_eq_some_iff.mp hrun
    have hkey := Extends.addKey h enc key
    have hval := Extends.appendObject h (hkey.cfg.trans hcfg) ihobj hobj
    exact (hkey.trans h hval).trans h (ih _ (hval.cfg.trans (hkey.cfg.trans hcfg)) hrest)
  | openNamespace key next ih =>
    intro enc _ _ hcfg hrun
    have hns := Extends.openNamespace h enc key
    exact hns.trans h (ih (hns.cfg.trans hcfg) hrun)
  | append s next ih =>
    intro enc _ _ hcfg hrun
    have hval := Extends.appendScalar h hcfg s
    exact hval.trans h (ih (hval.cfg.trans hcfg) hrun)
  | appendReflected val next ih =>
    intro enc _ _ hcfg hrun
    simp only [run] at hrun
    split at hrun
    · exact ih _ hcfg hrun
    · next bs hbs =>
      rw [enc.addElementSeparator_write] at hrun
      exact (Extends.put h enc (Extends.reflected h hcfg hbs)).trans h (ih _ hcfg hrun)
  | appendArray arr next iharr ih =>
    intro enc _ _ hcfg hrun
    obtain ⟨⟨mid, e⟩, harr, hrest⟩ := Option.bind_eq_some_iff.mp hrun
    have hval := Extends.appendArray h hcfg iharr harr
    exact hval.trans h (ih _ (hval.cfg.trans hcfg) hrest)
  | appendObject obj next ihobj ih =>
    intro enc _ _ hcfg hrun
    obtain ⟨⟨mid, e⟩, hobj, hrest⟩ := Option.bind_eq_some_iff.mp hrun
    have hval := Extends.appendObject h hcfg ihobj hobj
    exact hval.trans h (ih _ (hval.cfg.trans hcfg) hrest)

/-! ## Entries -/

namespace Extends

variable {cfg : EncoderConfig} {T : Bytes → Prop}

theorem addMembers (h : TextClass cfg T) {ms : List Member}
    (hms : ∀ m ∈ ms, ∀ c ∈ m.2, T (callText c)) (enc : JsonEncoder) :
    Extends T enc (enc.addMembers ms) := by
  induction ms generalizing enc with
  | nil => exact refl h enc
  | cons m ms ih =>
    obtain ⟨hm, hrest⟩ := List.forall_mem_cons.mp hms
    exact ((addKey h enc m.1).trans h (calls h hm _)).trans h (ih hrest (enc.addMember m))

end Extends

namespace TextClass

variable {cfg : EncoderConfig} {T : Bytes → Prop} (h : TextClass cfg T)
include h

/-- The values of the metadata are written with texts of the class. -/
theorem metadata {ent : Entry} {ms : List Member} (hms : metadata cfg ent = some ms) :
    ∀ m ∈ ms, ∀ c ∈ m.2, T (callText c) :=
  metadata_forall (P := fun cs => ∀ c ∈ cs, T (callText c)) hms
    (fun _ _ _ => h.effectiveCalls (h.primCalls _) _) (h.scalarCalls _)
    (fun _ => h.effectiveCalls (h.primCalls _) _)
    (fun _ _ _ => h.effectiveCalls (h.primCalls _) _)
    fun s => h.primCalls [.string s]

end TextClass

theorem Extends.spliceContext {cfg : EncoderConfig} {T : Bytes → Prop} (h : TextClass cfg T)
    (final : JsonEncoder) {context : Bytes} (hctx : T context) :
    Extends T final (final.spliceContext context) := by
  unfold JsonEncoder.spliceContext
  split
  · rw [final.addElementSeparator_write]
    exact put h final hctx
  · exact refl h final

/-- An encoded entry is a text of the class and the line ending. -/
theorem encodeEntry_text [Host] {T : Bytes → Prop} {enc : JsonEncoder}
    (h : TextClass enc.cfg T) (hctx : T enc.buf) {ent : Entry} {fields : List Field} {out : Bytes}
    (henc : enc.encodeEntry ent fields = some out) :
    ∃ t, out = t ++ enc.cfg.lineEnding ∧ T t := by
  obtain ⟨final, hmeta, hrest⟩ := Option.bind_eq_some_iff.mp henc
  obtain ⟨full, hfields, hans⟩ := Option.bind_eq_some_iff.mp hrest
  obtain ⟨⟨full', err⟩, hrun, hsame⟩ := Option.bind_eq_some_iff.mp hfields
  cases hsame
  rw [enc.encodeMetadata_eq] at hmeta
  obtain ⟨ms, hms, hfinal⟩ := Option.map_eq_some_iff.mp hmeta
  have hmembers := Extends.addMembers h (h.metadata hms) (enc.clone.write [0x7B])
  rw [hfinal] at hmembers
  have hcontext := ((Extends.write enc.clone (h.bracket 0x7B (by decide))).trans h hmembers).trans h
    (Extends.spliceContext h final hctx)
  have hfull := (hcontext.trans h (run_extends h _ hcontext.cfg hrun)).trans h
    (Extends.closeOpenNamespaces h full)
  have hmember : Extends T full.closeOpenNamespaces (full.closeOpenNamespaces.encodeStack ent) := by
    rw [JsonEncoder.encodeStack_eq]
    exact Extends.addMembers h (stringMember_forall
      (P := fun cs => ∀ c ∈ cs, T (callText c)) (fun s => h.primCalls [.string s]) _ _ _) _
  have hstack := hfull.trans h hmember
  obtain ⟨t, ht, hT⟩ := hstack.buf
  have hline := congrArg EncoderConfig.lineEnding hstack.cfg
  cases hans
  refine ⟨t ++ [0x7D], ?_, h.append hT (h.bracket _ (by decide))⟩
  simp only [JsonEncoder.write, ht, hline, JsonEncoder.clone, List.nil_append, List.append_assoc]

/-- All texts. -/
theorem textClass_univ (cfg : EncoderConfig) : TextClass cfg fun _ => True where
  nil := trivial
  append _ _ := trivial
  comma _ := trivial
  bracket _ _ := trivial
  key _ _ := trivial
  prim _ := trivial
  time _ _ _ := trivial
  reflected _ _ _ := trivial
  null := trivial

theorem Extends.ne_nil {T : Bytes → Prop} {enc enc' : JsonEncoder} (h : Extends T enc enc')
    (hne : enc.buf ≠ []) : enc'.buf ≠ [] := by
  obtain ⟨t, ht, _⟩ := h.buf
  rw [ht]
  exact List.append_ne_nil_of_left_ne_nil hne t

/-- A buffer that holds something is never emptied. -/
theorem run_ne_nil {i : Interface} (m : Marshaler i) {enc enc' : JsonEncoder} {err : Option Bytes}
    (hne : enc.buf ≠ []) (hrun : JsonEncoder.run m enc = some (enc', err)) : enc'.buf ≠ [] :=
  (run_extends (textClass_univ enc.cfg) m rfl hrun).ne_nil hne

end Zap.Zapcore
