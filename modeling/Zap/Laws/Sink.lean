import Zap.Sink

/-!
# Schemes and the registry of sinks

A scheme is put into the lower case of Unicode before its bytes are looked at. So a scheme of
RFC 3986 is accepted in either case, and so is a text that is not ASCII but folds to one
(`Confusable`). Nothing else is.

A call of `RegisterSink` fails when its scheme has no normal form or one that is taken. Whether the
registry keeps to schemes up to ASCII case therefore depends on what was registered: it does as long
as everything that was is a scheme (`registers_iff`), that is, as long as the ASCII form of a confusable
scheme was there first (`allSchemes_iff`).
-/

set_option autoImplicit false

namespace Zap

open Data Zapcore

/-- Is the byte an ASCII letter? -/
def isLetter (b : UInt8) : Bool := (0x41 ≤ b && b ≤ 0x5A) || (0x61 ≤ b && b ≤ 0x7A)

/-- A scheme of RFC 3986: a letter, then letters, digits, `+`, `-` and `.`. -/
def isScheme : Bytes → Bool
  | [] => false
  | c :: rest =>
    isLetter c && rest.all fun b => isLetter b || isDigit b || b == 0x2B || b == 0x2D || b == 0x2E

/-- A scheme in lower case. -/
def lowerScheme : Bytes → Bool
  | [] => false
  | c :: rest => (0x61 ≤ c && c ≤ 0x7A) && rest.all schemeByte

/-- Two schemes are the same up to the case of ASCII letters. -/
def SameScheme (s s' : Bytes) : Prop := s.map asciiLower = s'.map asciiLower

/-- Not ASCII, but a scheme in lower case. -/
def Confusable (s : Bytes) : Prop :=
  (∃ b ∈ s, 0x80 ≤ b) ∧ ∃ t, Folds s t ∧ lowerScheme t = true

/-! ## Normal forms -/

theorem isScheme_lower (s : Bytes) : isScheme s = lowerScheme (s.map asciiLower) := by
  have hletter : ∀ b : UInt8, isLetter b = (0x61 ≤ asciiLower b && asciiLower b ≤ 0x7A) := by
    intro b
    apply forall_byte_lt ?_ (UInt8.toNat_lt b)
    decide +kernel
  have hbyte : ∀ b : UInt8, (isLetter b || isDigit b || b == 0x2B || b == 0x2D || b == 0x2E) =
      schemeByte (asciiLower b) := by
    intro b
    apply forall_byte_lt ?_ (UInt8.toNat_lt b)
    decide +kernel
  cases s with
  | nil => rfl
  | cons c rest =>
    simp only [isScheme, lowerScheme, List.map_cons, List.all_map, hletter c, Function.comp_def,
      hbyte]

theorem lowerScheme_isAscii {t : Bytes} (h : lowerScheme t = true) : ∀ b ∈ t, b < 0x80 := by
  have hbyte : ∀ b : UInt8, schemeByte b = true → b < 0x80 := by
    intro b
    apply forall_byte_lt (p := fun b => schemeByte b = true → b < 0x80) ?_ (UInt8.toNat_lt b)
    decide +kernel
  cases t with
  | nil => cases h
  | cons c rest =>
    simp only [lowerScheme, Bool.and_eq_true, decide_eq_true_eq, List.all_eq_true] at h
    obtain ⟨⟨-, hc⟩, hrest⟩ := h
    exact List.forall_mem_cons.mpr ⟨UInt8.lt_of_le_of_lt hc (by decide), fun b hb => hbyte b (hrest b hb)⟩

theorem isScheme_isAscii {s : Bytes} (h : isScheme s = true) : ∀ b ∈ s, b < 0x80 := by
  rw [isScheme_lower] at h
  intro b hb
  exact asciiLower_lt.mp (lowerScheme_isAscii h _ (List.mem_map_of_mem hb))

theorem Confusable.not_isScheme {s : Bytes} (h : Confusable s) : isScheme s ≠ true := by
  obtain ⟨⟨b, hb, hhigh⟩, -⟩ := h
  exact fun hs => absurd (isScheme_isAscii hs b hb) (UInt8.not_lt.mpr hhigh)

theorem isScheme_file : isScheme schemeFile = true := by decide

theorem checkScheme_eq_none [Platform] {rest : Bytes} : checkScheme rest = none ↔ rest.all schemeByte = true := by
  induction rest with
  | nil => exact iff_of_true rfl rfl
  | cons c rest ih =>
    rw [checkScheme, List.all_cons, Bool.and_eq_true]
    split
    · next hc => rw [ih, hc, eq_self, true_and]
    · next hc => exact iff_of_false (fun h => (by cases h)) fun h => hc h.1

section

variable [Casing] [Platform]

/-- A scheme is accepted iff its lower case is one, and comes out in lower case. -/
theorem normalizeScheme_ok_iff {s t : Bytes} (hs : s ≠ []) :
    normalizeScheme s hs = .ok t ↔ toLower s = t ∧ lowerScheme (toLower s) = true := by
  obtain ⟨first, rest, hlow⟩ := List.exists_cons_of_ne_nil (toLower_ne_nil hs)
  simp only [normalizeScheme, hlow, List.head_cons, List.tail_cons, lowerScheme, Bool.and_eq_true,
    decide_eq_true_eq, ← checkScheme_eq_none]
  split
  · next hfirst =>
    refine iff_of_false (fun h => (by cases h)) fun h => ?_
    rcases hfirst with hlt | hlt
    · exact absurd h.2.1.1 (UInt8.not_le.mpr hlt)
    · exact absurd h.2.1.2 (UInt8.not_le.mpr hlt)
  · next hfirst =>
    rw [not_or, UInt8.not_lt, UInt8.not_lt] at hfirst
    cases checkScheme rest with
    | some err => exact iff_of_false (fun h => (by cases h)) fun h => (by cases h.2.2)
    | none => simp [hfirst]

/-- The normal form of a scheme, if it has one. -/
def normalized (s : Bytes) : Option Bytes :=
  if h : s = [] then none else (normalizeScheme s h).toOption

theorem normalized_eq {s t : Bytes} (hs : s ≠ []) :
    normalizeScheme s hs = .ok t ↔ normalized s = some t := by
  rw [normalized, dif_neg hs]
  cases normalizeScheme s hs with
  | error err => exact iff_of_false (fun h => (by cases h)) fun h => (by cases h)
  | ok u => exact ⟨fun h => congrArg _ (Except.ok.inj h), fun h => congrArg _ (Option.some.inj h)⟩

theorem normalized_eq_some {s t : Bytes} :
    normalized s = some t ↔ Folds s t ∧ lowerScheme t = true := by
  have hfolds : toLower s = t ∧ lowerScheme (toLower s) = true ↔ Folds s t ∧ lowerScheme t = true := by
    constructor
    · rintro ⟨rfl, h⟩
      exact ⟨(toLower_eq_iff (lowerScheme_isAscii h)).mp rfl, h⟩
    · rintro ⟨hfold, h⟩
      obtain rfl := (toLower_eq_iff (lowerScheme_isAscii h)).mpr hfold
      exact ⟨rfl, h⟩
  rw [← hfolds, normalized]
  split
  · next hs =>
    subst hs
    exact iff_of_false (fun h => (by cases h)) fun h => (by cases h.2)
  · next hs =>
    rw [← normalizeScheme_ok_iff hs, normalized_eq hs, normalized, dif_neg hs]

/-- A scheme of RFC 3986 has its lower case as normal form. -/
theorem normalized_isScheme {s : Bytes} (h : isScheme s = true) :
    normalized s = some (s.map asciiLower) := by
  have hascii := isScheme_isAscii h
  rw [isScheme_lower] at h
  rw [normalized_eq_some, ← toLower_eq_iff (lowerScheme_isAscii h)]
  exact ⟨toLower_ascii hascii, h⟩

/-- What has a normal form and is no scheme is confusable. -/
theorem normalized_confusable {s t : Bytes} (h : normalized s = some t) (hs : isScheme s ≠ true) :
    Confusable s := by
  obtain ⟨hfold, hlow⟩ := normalized_eq_some.mp h
  refine ⟨?_, t, hfold, hlow⟩
  by_contra hall
  have hascii : ∀ b ∈ s, b < 0x80 := fun b hb => UInt8.not_le.mp fun hle => hall ⟨b, hb, hle⟩
  rw [← toLower_eq_iff (lowerScheme_isAscii hlow), toLower_ascii hascii] at hfold
  rw [isScheme_lower, hfold] at hs
  exact hs hlow

/-- `normalizeScheme` accepts the schemes of RFC 3986 and gives them in lower case. -/
def NormalizesSchemes (s : Bytes) (hs : s ≠ []) : Prop :=
  ∀ t, normalizeScheme s hs = .ok t ↔ isScheme s = true ∧ t = s.map asciiLower

theorem normalizesSchemes_iff {s : Bytes} (hs : s ≠ []) :
    NormalizesSchemes s hs ↔ ¬Confusable s := by
  constructor
  · rintro h hconf
    obtain ⟨-, t, ht⟩ := id hconf
    have hok := (normalized_eq hs).mpr (normalized_eq_some.mpr ht)
    exact hconf.not_isScheme ((h t).mp hok).1
  · intro h t
    rw [normalized_eq]
    constructor
    · intro ht
      have hscheme : isScheme s = true := by
        by_contra hno
        exact h (normalized_confusable ht hno)
      rw [normalized_isScheme hscheme] at ht
      exact ⟨hscheme, (Option.some.inj ht).symm⟩
    · rintro ⟨hscheme, rfl⟩
      exact normalized_isScheme hscheme

/-! ## Runs of the registry -/

/-- A call of `RegisterSink`. -/
structure Registration where
  scheme : Bytes
  factory : Factory

namespace SinkRegistry

/-- What a call does: it fails and nothing changes, as its scheme has no normal form or one that is
taken, or the factory is there from now on. -/
theorem registerSink_cases (sr : SinkRegistry) (s : Bytes) (f : Factory) :
    (∃ err, sr.registerSink s f = (some err, sr) ∧
        ∀ t, normalized s = some t → (sr.factories t).isSome = true) ∨
      ∃ t, normalized s = some t ∧ sr.factories t = none ∧
        sr.registerSink s f = (none, ⟨Function.update sr.factories t (some f)⟩) := by
  rw [registerSink, normalized]
  split
  · exact .inl ⟨_, rfl, fun t ht => (by cases ht)⟩
  · next hs =>
    cases normalizeScheme s hs with
    | error err => exact .inl ⟨_, rfl, fun t ht => (by cases ht)⟩
    | ok u =>
      simp only
      split
      · next htaken =>
        refine .inl ⟨_, rfl, fun t ht => ?_⟩
        obtain rfl := Option.some.inj ht
        exact htaken
      · next hfree => exact .inr ⟨u, rfl, Option.not_isSome_iff_eq_none.mp hfree, rfl⟩

/-- Calls of `RegisterSink`, one after the other. -/
def registerAll (sr : SinkRegistry) (calls : List Registration) : SinkRegistry :=
  calls.foldl (fun sr c => (sr.registerSink c.scheme c.factory).2) sr

/-- The calls that succeeded. -/
def registered (sr : SinkRegistry) : List Registration → List Registration
  | [] => []
  | c :: calls =>
    match sr.registerSink c.scheme c.factory with
    | (none, sr) => c :: sr.registered calls
    | (some _, sr) => sr.registered calls

/-- A registry holds the factories of `regs`, which have different normal forms. -/
structure Tracks (sr : SinkRegistry) (regs : List Registration) : Prop where
  factories : ∀ t f, sr.factories t = some f ↔
    ∃ c ∈ regs, normalized c.scheme = some t ∧ c.factory = f
  distinct : regs.Pairwise fun c c' => normalized c.scheme ≠ normalized c'.scheme

section

variable {sr : SinkRegistry} {regs : List Registration}

/-- The normal form of a scheme is taken. -/
theorem Tracks.isSome_iff (h : Tracks sr regs) (t : Bytes) :
    (sr.factories t).isSome = true ↔ ∃ c ∈ regs, normalized c.scheme = some t := by
  rw [Option.isSome_iff_exists]
  constructor
  · rintro ⟨f, hf⟩
    obtain ⟨c, hc, hnorm, -⟩ := (h.factories t f).mp hf
    exact ⟨c, hc, hnorm⟩
  · rintro ⟨c, hc, hnorm⟩
    exact ⟨c.factory, (h.factories t c.factory).mpr ⟨c, hc, hnorm, rfl⟩⟩

theorem Tracks.step (h : Tracks sr regs) {c : Registration} {t : Bytes}
    (ht : normalized c.scheme = some t) (hfree : sr.factories t = none) :
    Tracks ⟨Function.update sr.factories t (some c.factory)⟩ (regs ++ [c]) := by
  have hnew : ∀ c' ∈ regs, normalized c'.scheme ≠ some t := by
    intro c' hc' hnorm
    have hsome := (h.isSome_iff t).mpr ⟨c', hc', hnorm⟩
    rw [hfree] at hsome
    cases hsome
  refine ⟨fun t' f => ?_, List.pairwise_append.mpr ⟨h.distinct, List.pairwise_singleton _ c, ?_⟩⟩
  · simp only [List.mem_append, List.mem_singleton, or_and_right, exists_or, exists_eq_left, ht]
    by_cases heq : t' = t
    · subst heq
      rw [Function.update_self]
      constructor
      · intro hf
        exact .inr ⟨rfl, Option.some.inj hf⟩
      · rintro (⟨c', hc', hnorm, -⟩ | ⟨-, rfl⟩)
        · exact absurd hnorm (hnew c' hc')
        · rfl
    · rw [Function.update_of_ne heq, h.factories]
      exact ⟨.inl, fun hor => hor.resolve_right fun h' => heq (Option.some.inj h'.1).symm⟩
  · intro c' hc' d hd
    rw [List.mem_singleton.mp hd, ht]
    exact hnew c' hc'

theorem Tracks.run (h : Tracks sr regs) (calls : List Registration) :
    Tracks (sr.registerAll calls) (regs ++ sr.registered calls) := by
  induction calls generalizing sr regs with
  | nil =>
    rw [registered, List.append_nil]
    exact h
  | cons c calls ih =>
    rw [registerAll, List.foldl_cons, ← registerAll, registered]
    rcases sr.registerSink_cases c.scheme c.factory with ⟨err, hcall, -⟩ | ⟨t, ht, hfree, hcall⟩
    · rw [hcall]
      exact ih h
    · rw [hcall, List.append_cons]
      exact ih (h.step ht hfree)

/-- A call fails, and changes nothing, iff its normal form, if any, is taken. -/
theorem Tracks.fails_iff (h : Tracks sr regs) (c : Registration) :
    (sr.registerSink c.scheme c.factory).1 ≠ none ∧
        (sr.registerSink c.scheme c.factory).2 = sr ↔
      ∀ t, normalized c.scheme = some t → ∃ c' ∈ regs, normalized c'.scheme = some t := by
  rcases sr.registerSink_cases c.scheme c.factory with ⟨err, hcall, htaken⟩ | ⟨t, ht, hfree, hcall⟩
  · rw [hcall]
    exact iff_of_true ⟨fun hnone => (by cases hnone), rfl⟩ fun t ht => (h.isSome_iff t).mp (htaken t ht)
  · rw [hcall]
    refine iff_of_false (fun hfail => hfail.1 rfl) fun hall => ?_
    have hsome := (h.isSome_iff t).mpr (hall t ht)
    rw [hfree] at hsome
    cases hsome

theorem registered_append (before after : List Registration) :
    sr.registered (before ++ after) =
      sr.registered before ++ (sr.registerAll before).registered after := by
  induction before generalizing sr with
  | nil => rfl
  | cons c before ih =>
    rw [List.cons_append, registered, registered, registerAll, List.foldl_cons, ← registerAll]
    rcases sr.registerSink_cases c.scheme c.factory with ⟨err, hcall, -⟩ | ⟨t, -, -, hcall⟩
    · rw [hcall]
      exact ih
    · rw [hcall]
      exact congrArg (c :: ·) ih

/-- A call that did not fail is among those that succeeded. -/
theorem mem_registered {calls before after : List Registration} {c : Registration}
    (hcalls : calls = before ++ c :: after)
    (h : ((sr.registerAll before).registerSink c.scheme c.factory).1 = none) :
    c ∈ sr.registered calls := by
  rw [hcalls, registered_append, registered]
  refine List.mem_append_right _ ?_
  rcases (sr.registerAll before).registerSink_cases c.scheme c.factory with
    ⟨err, hcall, -⟩ | ⟨t, -, -, hcall⟩
  · rw [hcall] at h
    cases h
  · rw [hcall]
    exact List.mem_cons_self

/-- A call that succeeded did so after the calls before it. -/
theorem exists_of_mem_registered {calls : List Registration} {c : Registration}
    (h : c ∈ sr.registered calls) :
    ∃ before after, calls = before ++ c :: after ∧
      ((sr.registerAll before).registerSink c.scheme c.factory).1 = none := by
  induction calls generalizing sr with
  | nil => exact absurd h List.not_mem_nil
  | cons d calls ih =>
    have hlater : ∀ {sr'}, (sr.registerSink d.scheme d.factory).2 = sr' → c ∈ sr'.registered calls →
        ∃ before after, d :: calls = before ++ c :: after ∧
          ((sr.registerAll before).registerSink c.scheme c.factory).1 = none := by
      rintro _ rfl hmem
      obtain ⟨before, after, rfl, hok⟩ := ih hmem
      exact ⟨d :: before, after, rfl, hok⟩
    rw [registered] at h
    rcases sr.registerSink_cases d.scheme d.factory with ⟨err, hcall, -⟩ | ⟨t, -, -, hcall⟩
    · rw [hcall] at h hlater
      exact hlater rfl h
    · rw [hcall] at h hlater
      rcases List.mem_cons.mp h with rfl | hmem
      · exact ⟨[], calls, rfl, by rw [registerAll, List.foldl_nil, hcall]⟩
      · exact hlater rfl hmem

/-- After a call, its normal form is taken. -/
theorem Tracks.taken (h : Tracks sr regs) {calls : List Registration} {c : Registration}
    (hc : c ∈ calls) {t : Bytes} (ht : normalized c.scheme = some t) :
    ∃ c' ∈ regs ++ sr.registered calls, normalized c'.scheme = some t := by
  obtain ⟨before, after, hcalls⟩ := List.append_of_mem hc
  by_cases hok : ((sr.registerAll before).registerSink c.scheme c.factory).1 = none
  · exact ⟨c, List.mem_append_right _ (mem_registered hcalls hok), ht⟩
  · have hunchanged : ((sr.registerAll before).registerSink c.scheme c.factory).2 =
        sr.registerAll before := by
      rcases (sr.registerAll before).registerSink_cases c.scheme c.factory with
        ⟨err, hcall, -⟩ | ⟨t, -, -, hcall⟩
      · rw [hcall]
      · rw [hcall] at hok
        exact absurd rfl hok
    obtain ⟨c', hc', hnorm⟩ := ((h.run before).fails_iff c).mp ⟨hok, hunchanged⟩ t ht
    refine ⟨c', ?_, hnorm⟩
    rw [hcalls, registered_append, ← List.append_assoc]
    exact List.mem_append_left _ hc'

end

end SinkRegistry

open SinkRegistry

/-- What `newSinkRegistry` registers. -/
def fileRegistration : Registration := ⟨schemeFile, newFileSinkFromURL⟩

/-- What is registered after calls on a new registry. -/
def registrations (calls : List Registration) : List Registration :=
  fileRegistration :: SinkRegistry.new.registered calls

/-- The registry goes by schemes up to ASCII case. A call fails, and changes nothing, iff its scheme
is empty, is no scheme or is registered; no scheme is registered twice; and a URL with a scheme that
is registered is opened by its factory. -/
structure RegistersSchemes (calls : List Registration) : Prop where
  fails : ∀ before c after, calls = before ++ c :: after →
    let sr := SinkRegistry.new.registerAll before
    ((sr.registerSink c.scheme c.factory).1 ≠ none ∧
        (sr.registerSink c.scheme c.factory).2 = sr ↔
      c.scheme = [] ∨ isScheme c.scheme ≠ true ∨
        ∃ c' ∈ registrations before, SameScheme c'.scheme c.scheme)
  once : (registrations calls).Pairwise fun c c' => ¬SameScheme c.scheme c'.scheme
  routes : ∀ c ∈ registrations calls, ∀ tr rawURL u, Platform.isAbs rawURL = false →
    Platform.parse rawURL = .ok u → u.scheme = u.scheme.map asciiLower →
    SameScheme u.scheme c.scheme →
      (SinkRegistry.new.registerAll calls).newSink tr rawURL = c.factory tr u

theorem tracks_new : Tracks SinkRegistry.new [fileRegistration] := by
  have hempty : Tracks ⟨fun _ => none⟩ [] :=
    ⟨fun t f => iff_of_false (fun h => (by cases h)) fun ⟨c, hc, _⟩ => absurd hc List.not_mem_nil,
      List.Pairwise.nil⟩
  have hrun := hempty.run [fileRegistration]
  have hnorm := normalized_isScheme isScheme_file
  rw [SinkRegistry.registered] at hrun
  rcases SinkRegistry.registerSink_cases ⟨fun _ => none⟩ schemeFile newFileSinkFromURL with
    ⟨err, -, htaken⟩ | ⟨t, -, -, hcall⟩
  · exact absurd (htaken _ hnorm) (by simp)
  · rw [show fileRegistration.scheme = schemeFile from rfl,
      show fileRegistration.factory = newFileSinkFromURL from rfl, hcall] at hrun
    exact hrun

theorem tracks_registrations (calls : List Registration) :
    Tracks (SinkRegistry.new.registerAll calls) (registrations calls) := tracks_new.run calls

theorem registrations_subset {calls before after : List Registration}
    (h : calls = before ++ after) : registrations before ⊆ registrations calls := by
  rw [h, registrations, registrations, registered_append, ← List.cons_append]
  exact List.subset_append_left _ _

/-- All that is registered has a scheme of RFC 3986. -/
def AllSchemes (calls : List Registration) : Prop :=
  ∀ c ∈ registrations calls, isScheme c.scheme = true

/-- A scheme is the same as a registered one iff their normal forms are. -/
theorem sameScheme_iff {s s' : Bytes} (hs : isScheme s = true) (hs' : isScheme s' = true) :
    SameScheme s s' ↔ normalized s = normalized s' := by
  rw [normalized_isScheme hs, normalized_isScheme hs', Option.some_inj]
  rfl

theorem registersSchemes_of_all {calls : List Registration} (h : AllSchemes calls) :
    RegistersSchemes calls := by
  refine ⟨fun before c after hcalls => ?_, ?_, fun c hc tr rawURL u habs hparse hlow hsame => ?_⟩
  · have hbefore : ∀ c' ∈ registrations before, isScheme c'.scheme = true := fun c' hc' =>
      h c' (registrations_subset hcalls hc')
    have htracks := tracks_registrations before
    intro sr
    rw [htracks.fails_iff]
    by_cases hc : isScheme c.scheme = true
    · have hne : c.scheme ≠ [] := fun hnil => (by rw [hnil] at hc; cases hc)
      simp only [hne, hc, ne_eq, not_true_eq_false, false_or, normalized_isScheme hc,
        Option.some.injEq, forall_eq']
      refine exists_congr fun c' => and_congr_right fun hc' => ?_
      rw [sameScheme_iff (hbefore c' hc') hc, normalized_isScheme hc]
    · refine iff_of_true ((htracks.fails_iff c).mp ?_) (.inr (.inl hc))
      rcases sr.registerSink_cases c.scheme c.factory with ⟨err, hcall, -⟩ | ⟨t, -, -, hcall⟩
      · rw [hcall]
        exact ⟨fun hnone => (by cases hnone), rfl⟩
      · have hmem := mem_registered hcalls (congrArg Prod.fst hcall)
        exact absurd (h c (List.mem_cons_of_mem _ hmem)) hc
  · refine (tracks_registrations calls).distinct.imp_of_mem fun hc hc' hne hsame => ?_
    exact hne ((sameScheme_iff (h _ hc) (h _ hc')).mp hsame)
  · have hscheme := h c hc
    have hu : u.scheme = c.scheme.map asciiLower := hlow.trans hsame
    have hne : u.scheme ≠ [] := by
      intro hnil
      rw [isScheme_lower, ← hu, hnil] at hscheme
      cases hscheme
    have hfactory := ((tracks_registrations calls).factories u.scheme c.factory).mpr
      ⟨c, hc, by rw [hu]; exact normalized_isScheme hscheme, rfl⟩
    simp only [newSink, habs, Bool.false_eq_true, ↓reduceIte, hparse, if_neg hne, hfactory]

theorem allSchemes_of_registers {calls : List Registration} (h : RegistersSchemes calls) :
    AllSchemes calls := by
  intro c hc
  rcases List.mem_cons.mp hc with rfl | hc
  · exact isScheme_file
  · obtain ⟨before, after, hcalls, hok⟩ := exists_of_mem_registered hc
    by_contra hno
    exact ((h.fails before c after hcalls).mpr (.inr (.inl hno))).1 hok

/-- The registry goes by schemes iff all that is registered is one. -/
theorem registers_iff (calls : List Registration) : RegistersSchemes calls ↔ AllSchemes calls :=
  ⟨allSchemes_of_registers, registersSchemes_of_all⟩

/-- Before each scheme that is confusable there was a call for the ASCII scheme that it folds to, or
it folds to `file`. -/
def AsciiFirst (calls : List Registration) : Prop :=
  ∀ before c after, calls = before ++ c :: after → Confusable c.scheme → ∀ t, Folds c.scheme t →
    ∃ c' ∈ fileRegistration :: before, c'.scheme.map asciiLower = t

theorem allSchemes_iff (calls : List Registration) : AllSchemes calls ↔ AsciiFirst calls := by
  constructor
  · intro h before c after hcalls hconf t hfold
    have hnorm : normalized c.scheme = some t := by
      obtain ⟨-, t', hfold', hlow⟩ := hconf
      obtain rfl : t' = t := by
        rw [← toLower_eq_iff hfold'.isAscii] at hfold'
        rw [← toLower_eq_iff hfold.isAscii] at hfold
        exact hfold'.symm.trans hfold
      exact normalized_eq_some.mpr ⟨hfold', hlow⟩
    have hfails := ((registers_iff calls).mpr h).fails before c after hcalls
    obtain ⟨c', hc', hnorm'⟩ := ((tracks_registrations before).fails_iff c).mp
      (hfails.mpr (.inr (.inl hconf.not_isScheme))) t hnorm
    rw [normalized_isScheme (h c' (registrations_subset hcalls hc'))] at hnorm'
    refine ⟨c', ?_, Option.some.inj hnorm'⟩
    rcases List.mem_cons.mp hc' with rfl | hc'
    · exact List.mem_cons_self
    · obtain ⟨b, a, rfl, -⟩ := exists_of_mem_registered hc'
      simp
  · intro h c hc
    rcases List.mem_cons.mp hc with rfl | hc
    · exact isScheme_file
    by_contra hno
    obtain ⟨before, after, hcalls, hok⟩ := exists_of_mem_registered hc
    rcases (SinkRegistry.new.registerAll before).registerSink_cases c.scheme c.factory with
      ⟨err, hcall, -⟩ | ⟨t, hnorm, hfree, -⟩
    · rw [hcall] at hok
      cases hok
    · -- the ASCII form was there before, so that the call cannot have succeeded
      obtain ⟨hfold, hlow⟩ := normalized_eq_some.mp hnorm
      obtain ⟨c', hc', rfl⟩ := h before c after hcalls (normalized_confusable hnorm hno) t hfold
      rw [← isScheme_lower] at hlow
      have htaken : ∃ c'' ∈ registrations before,
          normalized c''.scheme = some (c'.scheme.map asciiLower) := by
        rcases List.mem_cons.mp hc' with rfl | hc'
        · exact ⟨_, List.mem_cons_self, normalized_isScheme hlow⟩
        · exact tracks_new.taken hc' (normalized_isScheme hlow)
      have hsome := ((tracks_registrations before).isSome_iff _).mpr htaken
      rw [hfree] at hsome
      cases hsome

/-- A scheme is normalized as RFC 3986 has it iff it is not confusable, and the registry goes by
schemes iff the ASCII form of each confusable one was asked for before. -/
theorem schemes_iff :
    (∀ (s : Bytes) (hs : s ≠ []), NormalizesSchemes s hs ↔ ¬Confusable s) ∧
      ∀ calls, RegistersSchemes calls ↔ AsciiFirst calls :=
  ⟨fun _ => normalizesSchemes_iff, fun calls => (registers_iff calls).trans (allSchemes_iff calls)⟩

end

/-- A platform without files, where the scheme of a URL is what stands before the colon. -/
abbrev Platform.small : Platform where
  parse raw := .ok ⟨(raw.takeWhile (· != 0x3A)).map asciiLower, none, [], [], [], [], raw, raw⟩
  isAbs raw := raw.head? == some 0x2F
  openFile _ _ _ _ := .error (utf8 "no such file or directory")
  stdout := 1
  stderr := 2
  quote := id
  quoteByte c := [c]

theorem schemes_iff_http :
    let _ := Casing.two
    let _ := Platform.small
    NormalizesSchemes (utf8 "HTTP") (by decide) ∧
      RegistersSchemes [⟨utf8 "HTTP", fun _ _ => .ok 7⟩, ⟨utf8 "http", fun _ _ => .ok 8⟩] := by
  let _ := Casing.two
  let _ := Platform.small
  have hascii : ∀ {s : Bytes}, (∀ b ∈ s, b < 0x80) → ¬Confusable s := fun h ⟨⟨b, hb, hhigh⟩, _⟩ =>
    absurd (h b hb) (UInt8.not_lt.mpr hhigh)
  refine ⟨(schemes_iff.1 _ _).mpr (hascii (by decide)), (schemes_iff.2 _).mpr ?_⟩
  intro before c after hcalls hconf
  have hmem : c ∈ before ++ c :: after := List.mem_append_right _ List.mem_cons_self
  rw [← hcalls] at hmem
  rcases List.mem_pair.mp hmem with rfl | rfl
  · exact absurd hconf (hascii (by decide))
  · exact absurd hconf (hascii (by decide))

/-- The Kelvin sign is registered as a scheme, so that the scheme `k` is taken and a URL with it
goes to the factory of the Kelvin sign. -/
theorem kelvin_registered :
    let _ := Casing.two
    let _ := Platform.small
    let kelvin : Registration := ⟨utf8 "\u212A", fun _ _ => .ok 7⟩
    let sr := SinkRegistry.new.registerAll [kelvin]
    isScheme kelvin.scheme = false ∧ normalizeScheme kelvin.scheme (by decide) = .ok (utf8 "k") ∧
      (sr.registerSink (utf8 "k") fun _ _ => .ok 8).1.isSome = true ∧
      sr.newSink [] (utf8 "k://host") = .ok 7 := by
  decide +kernel

end Zap
