import Zap.Laws.LevelOf
import Zap.Zapcore.LevelText

/-!
# Which texts are levels

`UnmarshalText` compares a text with the names of the levels and, when that fails, its lower case.
The names are ASCII, but lower case is that of Unicode, and U+0130 has the letter i as its own. So
each name with an i in it has one more spelling than documented. On every other text the parser
does what it should (`levelText_iff`).
-/

set_option autoImplicit false

namespace Zap.Zapcore.Level

open Data

/-- The names of the levels. The empty text stands for the zero value. -/
def names : List (Bytes × Level) :=
  [(utf8 "debug", debug), (utf8 "info", info), (utf8 "", info), (utf8 "warn", warn),
    (utf8 "warning", warn), (utf8 "error", error), (utf8 "dpanic", dpanic), (utf8 "panic", panic),
    (utf8 "fatal", fatal)]

/-- Up to the case of ASCII letters, `text` is a name of `l`. -/
def Names (text : Bytes) (l : Level) : Prop := (text.map asciiLower, l) ∈ names

/-- The names that have an i, with U+0130 in its place. -/
def dottedNames : List Bytes :=
  [utf8 "İnfo", utf8 "warnİng", utf8 "dpanİc", utf8 "panİc"]

/-- `UnmarshalText` does what is documented: it succeeds on the names and on nothing else, sets the
level that is named, and changes nothing when it fails. -/
structure ReadsNames [Casing] (l : Level) (text : Bytes) : Prop where
  succeeds : (unmarshalText (some l) text).1 = none ↔ ∃ l', Names text l'
  level : ∀ l', Names text l' → (unmarshalText (some l) text).2 = some l'
  unchanged : (unmarshalText (some l) text).1 ≠ none → (unmarshalText (some l) text).2 = some l

/-! ## What is accepted -/

/-- The comparison with the names. -/
theorem tryUnmarshalText_cases (l : Level) (text : Bytes) :
    (∃ l', (text, l') ∈ names ∧ l.tryUnmarshalText text = (true, l')) ∨
      (∀ l', (text, l') ∉ names) ∧ l.tryUnmarshalText text = (false, l) := by
  by_cases hdebug : text = utf8 "debug"
  · exact .inl ⟨debug, by subst hdebug; decide, if_pos hdebug⟩
  by_cases hinfo : text = utf8 "info" ∨ text = utf8 ""
  · exact .inl ⟨info, by rcases hinfo with rfl | rfl <;> decide,
      by rw [tryUnmarshalText, if_neg hdebug, if_pos hinfo]⟩
  by_cases hwarn : text = utf8 "warn" ∨ text = utf8 "warning"
  · exact .inl ⟨warn, by rcases hwarn with rfl | rfl <;> decide,
      by rw [tryUnmarshalText, if_neg hdebug, if_neg hinfo, if_pos hwarn]⟩
  by_cases herror : text = utf8 "error"
  · exact .inl ⟨error, by subst herror; decide,
      by rw [tryUnmarshalText, if_neg hdebug, if_neg hinfo, if_neg hwarn, if_pos herror]⟩
  by_cases hdpanic : text = utf8 "dpanic"
  · exact .inl ⟨dpanic, by subst hdpanic; decide,
      by rw [tryUnmarshalText, if_neg hdebug, if_neg hinfo, if_neg hwarn, if_neg herror,
        if_pos hdpanic]⟩
  by_cases hpanic : text = utf8 "panic"
  · exact .inl ⟨panic, by subst hpanic; decide,
      by rw [tryUnmarshalText, if_neg hdebug, if_neg hinfo, if_neg hwarn, if_neg herror,
        if_neg hdpanic, if_pos hpanic]⟩
  by_cases hfatal : text = utf8 "fatal"
  · exact .inl ⟨fatal, by subst hfatal; decide,
      by rw [tryUnmarshalText, if_neg hdebug, if_neg hinfo, if_neg hwarn, if_neg herror,
        if_neg hdpanic, if_neg hpanic, if_pos hfatal]⟩
  have hne : ∀ n ∈ names, text ≠ n.1 := by
    simp only [names, List.forall_mem_cons]
    exact ⟨hdebug, (not_or.mp hinfo).1, (not_or.mp hinfo).2, (not_or.mp hwarn).1, (not_or.mp hwarn).2,
      herror, hdpanic, hpanic, hfatal, List.forall_mem_nil _⟩
  exact .inr ⟨fun l' hmem => hne (text, l') hmem rfl,
    by rw [tryUnmarshalText, if_neg hdebug, if_neg hinfo, if_neg hwarn, if_neg herror,
      if_neg hdpanic, if_neg hpanic, if_neg hfatal]⟩

/-- The names in every spelling that folds to them. -/
def spelled : List (Bytes × Level) := names.flatMap fun n => (spellings n.1).map (·, n.2)

theorem names_isAscii : ∀ n ∈ names, ∀ b ∈ n.1, b < 0x80 := by decide

theorem mem_names_toLower [Casing] {text : Bytes} {l : Level} :
    (toLower text, l) ∈ names ↔ (text.map asciiLower, l) ∈ spelled := by
  simp only [spelled, List.mem_flatMap, List.mem_map, Prod.mk.injEq, Prod.exists]
  constructor
  · intro hmem
    have hfold := (toLower_eq_iff (names_isAscii _ hmem)).mp rfl
    exact ⟨_, l, hmem, _, hfold.mem_spellings, rfl, rfl⟩
  · rintro ⟨name, l, hmem, _, hspell, rfl, rfl⟩
    have hascii := names_isAscii _ hmem
    rwa [(toLower_eq_iff hascii).mpr ((folds_iff_spellings hascii).mpr hspell)]

theorem names_lower : ∀ n ∈ names, n.1.map asciiLower = n.1 := by decide

theorem names_spelled : ∀ n ∈ names, n ∈ spelled := by decide

/-- `UnmarshalText` accepts the spellings and nothing else. -/
theorem unmarshalText_cases [Casing] (l : Level) (text : Bytes) :
    (∃ l', (text.map asciiLower, l') ∈ spelled ∧ unmarshalText (some l) text = (none, some l')) ∨
      (∀ l', (text.map asciiLower, l') ∉ spelled) ∧
        unmarshalText (some l) text = (some (.unrecognized text), some l) := by
  rw [unmarshalText]
  rcases tryUnmarshalText_cases l text with ⟨l', hmem, htry⟩ | ⟨-, htry⟩
  · rw [htry]
    refine .inl ⟨l', ?_, rfl⟩
    rw [names_lower _ hmem]
    exact names_spelled _ hmem
  · rw [htry]
    rcases tryUnmarshalText_cases l (toLower text) with ⟨l', hmem, hlow⟩ | ⟨hmem, hlow⟩
    · refine .inl ⟨l', mem_names_toLower.mp hmem, ?_⟩
      simp only [hlow]
    · refine .inr ⟨fun l' h => hmem l' (mem_names_toLower.mpr h), ?_⟩
      simp only [hlow]

/-! ## The documented names -/

theorem spelled_cases : ∀ n ∈ spelled, n.1 ∈ dottedNames ∨ n ∈ names := by decide

theorem dotted_spelled : ∀ t ∈ dottedNames, ∃ n ∈ spelled, n.1 = t := by decide

theorem dotted_not_named : ∀ t ∈ dottedNames, ∀ n ∈ names, n.1 ≠ t := by decide

/-- A spelling belongs to one level. -/
theorem spelled_unique : ∀ n ∈ spelled, ∀ m ∈ spelled, n.1 = m.1 → n.2 = m.2 := by decide

theorem readsNames_iff [Casing] (l : Level) (text : Bytes) :
    ReadsNames l text ↔ text.map asciiLower ∉ dottedNames := by
  constructor
  · intro h hdot
    obtain ⟨n, hn, hkey⟩ := dotted_spelled _ hdot
    rcases unmarshalText_cases l text with ⟨l', -, hout⟩ | ⟨hnone, -⟩
    · obtain ⟨l'', hnamed⟩ := h.succeeds.mp (by rw [hout])
      exact dotted_not_named _ hdot _ hnamed rfl
    · exact hnone n.2 (hkey ▸ hn)
  · intro hdot
    have hnames : ∀ l', (text.map asciiLower, l') ∈ spelled ↔ Names text l' := fun l' =>
      ⟨fun h => (spelled_cases _ h).resolve_left hdot, names_spelled _⟩
    rcases unmarshalText_cases l text with ⟨l', hmem, hout⟩ | ⟨hnone, hout⟩
    · refine ⟨?_, fun l'' h'' => ?_, fun hne => ?_⟩
      · rw [hout]
        exact iff_of_true rfl ⟨l', (hnames l').mp hmem⟩
      · rw [hout]
        exact congrArg some (spelled_unique _ hmem _ ((hnames l'').mpr h'') rfl)
      · rw [hout] at hne
        exact absurd rfl hne
    · have hnot : ∀ l', ¬Names text l' := fun l' h => hnone l' ((hnames l').mpr h)
      refine ⟨?_, fun l' h => absurd h (hnot l'), fun _ => by rw [hout]⟩
      rw [hout]
      exact iff_of_false (fun h => (by cases h)) fun ⟨l', h⟩ => hnot l' h

/-- A supported level is read back from either form of its name. -/
theorem parseLevel_spelled [Casing] {l : Level} {text : Bytes}
    (h : (text.map asciiLower, l) ∈ spelled) : parseLevel text = (l, none) := by
  rw [parseLevel]
  rcases unmarshalText_cases 0 text with ⟨l', hmem, hout⟩ | ⟨hnone, -⟩
  · rw [hout]
    exact congrArg (·, none) (spelled_unique _ hmem _ h rfl)
  · exact absurd h (hnone l)

theorem supported_spelled : ∀ l ∈ supported, (l.string.map asciiLower, l) ∈ spelled ∧
    (l.capitalString.map asciiLower, l) ∈ spelled := by
  decide +kernel

/-- The parser reads a text as documented unless it is, up to ASCII case, one of four names with
U+0130 for i. In any case a failure leaves the level alone, and a supported level is what both forms
of its name are parsed to. -/
theorem levelText_iff [Casing] :
    (∀ l text, ReadsNames l text ↔ text.map asciiLower ∉ dottedNames) ∧
      (∀ l text, (unmarshalText (some l) text).1 ≠ none →
        (unmarshalText (some l) text).2 = some l) ∧
      ∀ l, Supported l →
        parseLevel l.string = (l, none) ∧ parseLevel l.capitalString = (l, none) := by
  refine ⟨readsNames_iff, fun l text hne => ?_, fun l hl => ?_⟩
  · rcases unmarshalText_cases l text with ⟨l', -, hout⟩ | ⟨-, hout⟩
    · rw [hout] at hne
      exact absurd rfl hne
    · rw [hout]
  · obtain ⟨hstring, hcapital⟩ := supported_spelled l (mem_supported.mpr hl)
    exact ⟨parseLevel_spelled hstring, parseLevel_spelled hcapital⟩

theorem levelText_iff_warn :
    let _ := Casing.two
    ReadsNames fatal (utf8 "WarNing") ∧ Supported warn ∧ parseLevel (utf8 "WARN") = (warn, none) := by
  let _ := Casing.two
  have hwarn : Supported warn := ⟨by decide, by decide⟩
  exact ⟨(levelText_iff.1 fatal _).mpr (by decide), hwarn, (levelText_iff.2.2 warn hwarn).2⟩

/-- `İnfo`, which is not ASCII and no name, is taken for the info level. -/
theorem levelText_dotted :
    let _ := Casing.two
    parseLevel (utf8 "İnfo") = (info, none) ∧ ¬∃ l, Names (utf8 "İnfo") l := by
  have hdot : (utf8 "İnfo").map asciiLower ∈ dottedNames := by decide
  exact ⟨by decide, fun ⟨l, h⟩ => dotted_not_named _ hdot _ h rfl⟩

end Zap.Zapcore.Level
