import Zap.Data.JsonLaws

/-!
# What the JSON parser accepts

`parse_sound`: a text that `parse` accepts is a value of the grammar with white space around it,
and the value derived is the one answered. Leaves come first; the three mutual parsers are then
taken together, by induction on their fuel.
-/

set_option autoImplicit false

namespace Zap.Data.Json

theorem ws_takeWhile (s : Bytes) : Ws (s.takeWhile isWs) :=
  fun _ hb => List.all_eq_true.mp List.all_takeWhile _ hb

/-- White space that was skipped can be put back in front of what is left. -/
theorem ws_split (s : Bytes) : ∃ w, Ws w ∧ s = w ++ s.dropWhile isWs :=
  ⟨s.takeWhile isWs, ws_takeWhile s, List.takeWhile_append_dropWhile.symm⟩

theorem Ws.nil : Ws [] := fun _ hb => absurd hb List.not_mem_nil

theorem Ws.append {w₁ w₂ : Bytes} (h₁ : Ws w₁) (h₂ : Ws w₂) : Ws (w₁ ++ w₂) := by
  intro b hb
  rcases List.mem_append.mp hb with hb | hb
  · exact h₁ b hb
  · exact h₂ b hb

/-! ## Strings -/

theorem parseChars_sound {fuel : Nat} {s r : Bytes} {us : List CodeUnit}
    (h : parseChars fuel s = some (us, r)) : ∃ t, Chars t us ∧ s = t ++ 0x22 :: r := by
  induction fuel generalizing s us r with
  | zero => cases h
  | succ fuel ih =>
    cases s with
    | nil => cases h
    | cons b rest =>
      rw [parseChars.eq_def] at h
      simp only at h
      split at h
      · next hq => cases h; exact ⟨[], .nil, by rw [hq, List.nil_append]⟩
      · split at h
        · next hb =>
          subst hb
          split at h
          · next e rest =>
            split at h
            · next he =>
              subst he
              split at h
              · next a b c d rest =>
                obtain ⟨u, hu, h⟩ := Option.bind_eq_some_iff.mp h
                obtain ⟨⟨us', r'⟩, hrest, h⟩ := Option.bind_eq_some_iff.mp h
                cases h
                obtain ⟨t, ht, rfl⟩ := ih hrest
                exact ⟨_, .hex hu ht, rfl⟩
              · cases h
            · obtain ⟨x, hx, h⟩ := Option.bind_eq_some_iff.mp h
              obtain ⟨⟨us', r'⟩, hrest, h⟩ := Option.bind_eq_some_iff.mp h
              cases h
              obtain ⟨t, ht, rfl⟩ := ih hrest
              exact ⟨_, .escape hx ht, rfl⟩
          · cases h
        · split at h
          · split at h
            · next hp =>
              obtain ⟨⟨us', r'⟩, hrest, h⟩ := Option.bind_eq_some_iff.mp h
              cases h
              obtain ⟨t, ht, rfl⟩ := ih hrest
              exact ⟨_, .plain hp ht, rfl⟩
            · cases h
          · next hb =>
            split at h
            · cases h
            · next hrej =>
              obtain ⟨⟨us', r'⟩, hrest, h⟩ := Option.bind_eq_some_iff.mp h
              cases h
              obtain ⟨t, ht, hsplit⟩ := ih hrest
              have hrune := multiRune_take (UInt8.not_lt.mp hb) (Bool.eq_false_iff.mpr hrej)
              refine ⟨_, .rune hrune ht, ?_⟩
              rw [List.append_assoc, ← hsplit, List.take_append_drop]

/-! ## Numbers -/

theorem parseDigits_sound {s ds r : Bytes} (h : parseDigits s = some (ds, r)) :
    Digits ds ∧ s = ds ++ r := by
  simp only [parseDigits] at h
  split at h
  · cases h
  · next hne =>
    cases h
    exact ⟨⟨hne, fun _ hb => List.all_eq_true.mp List.all_takeWhile _ hb⟩, List.takeWhile_append_dropWhile.symm⟩

theorem parseOpt_sound {p : UInt8 → Bool} {s a r : Bytes} (h : parseOpt p s = (a, r)) :
    s = a ++ r ∧ (a = [] ∨ ∃ b, a = [b] ∧ p b = true) := by
  cases s with
  | nil => cases h; exact ⟨rfl, .inl rfl⟩
  | cons b rest =>
    rw [parseOpt] at h
    split at h
    · next hp => cases h; exact ⟨rfl, .inr ⟨b, rfl, hp⟩⟩
    · cases h; exact ⟨rfl, .inl rfl⟩

theorem parseInt_sound {s t r : Bytes} (h : parseInt s = some (t, r)) : IntPart t ∧ s = t ++ r := by
  obtain ⟨⟨ds, r'⟩, hds, hans⟩ := Option.bind_eq_some_iff.mp h
  obtain ⟨hdig, rfl⟩ := parseDigits_sound hds
  simp only at hans
  split at hans
  · cases hans
  · next hz =>
    cases hans
    refine ⟨⟨hdig, fun hhead => ?_⟩, rfl⟩
    by_contra hne
    exact hz ⟨hhead, hne⟩

theorem parseFrac_sound {s t r : Bytes} (h : parseFrac s = some (t, r)) : Frac t ∧ s = t ++ r := by
  unfold parseFrac at h
  split at h
  · obtain ⟨⟨ds, r'⟩, hds, hans⟩ := Option.bind_eq_some_iff.mp h
    obtain ⟨hdig, rfl⟩ := parseDigits_sound hds
    cases hans
    exact ⟨.inr ⟨ds, rfl, hdig⟩, rfl⟩
  · cases h; exact ⟨.inl rfl, rfl⟩

theorem parseExponent_sound {s t r : Bytes} (h : parseExponent s = some (t, r)) :
    Exponent t ∧ s = t ++ r := by
  unfold parseExponent at h
  split at h
  · cases h; exact ⟨.inl rfl, rfl⟩
  · next e rest hne hopt =>
    obtain ⟨rfl, he⟩ := parseOpt_sound hopt
    rcases he with rfl | ⟨e, rfl, hpe⟩
    · exact absurd rfl hne
    · cases hsign : parseOpt (fun b => b == 0x2B || b == 0x2D) rest with
      | mk sign rest' =>
        rw [hsign] at h
        obtain ⟨⟨ds, r'⟩, hds, hans⟩ := Option.bind_eq_some_iff.mp h
        obtain ⟨hdig, rfl⟩ := parseDigits_sound hds
        obtain ⟨rfl, hs⟩ := parseOpt_sound hsign
        cases hans
        refine ⟨.inr ⟨e, sign, ds, rfl, by simpa using hpe, ?_, hdig⟩, by simp⟩
        rcases hs with rfl | ⟨b, rfl, hb⟩
        · exact .inl rfl
        · exact .inr (by simpa using hb)

theorem parseNumber_sound {s t r : Bytes} (h : parseNumber s = some (t, r)) :
    Number t ∧ s = t ++ r := by
  unfold parseNumber at h
  cases hsign : parseOpt (· == 0x2D) s with
  | mk sign s' =>
    rw [hsign] at h
    obtain ⟨⟨int, s₁⟩, hint, h⟩ := Option.bind_eq_some_iff.mp h
    obtain ⟨⟨frac, s₂⟩, hfrac, h⟩ := Option.bind_eq_some_iff.mp h
    obtain ⟨⟨exp, s₃⟩, hexp, h⟩ := Option.bind_eq_some_iff.mp h
    cases h
    obtain ⟨rfl, hs⟩ := parseOpt_sound hsign
    obtain ⟨hi, rfl⟩ := parseInt_sound hint
    obtain ⟨hf, rfl⟩ := parseFrac_sound hfrac
    obtain ⟨he, rfl⟩ := parseExponent_sound hexp
    refine ⟨⟨sign, int, frac, exp, rfl, ?_, hi, hf, he⟩, by simp⟩
    rcases hs with rfl | ⟨b, rfl, hb⟩
    · exact .inl rfl
    · exact .inr (by simpa using hb)

/-! ## Values -/

theorem parseWord_sound {word s r : Bytes} {v w : Json} (h : parseWord word v s = some (w, r)) :
    w = v ∧ s = word ++ r := by
  unfold parseWord at h
  split at h
  · next hw =>
    cases h
    refine ⟨rfl, ?_⟩
    rw [← hw, List.length_take]
    have hlen : min word.length s.length = word.length := by
      rw [← List.length_take, hw]
    rw [hlen, List.take_append_drop]
  · cases h

/-- White space in front of the elements belongs to the first of them. -/
theorem Derives.elems_ws {w t : Bytes} {vs : List Json} (hw : Ws w)
    (h : Derives .elems t (.arr vs)) : Derives .elems (w ++ t) (.arr vs) := by
  cases h with
  | lastElem hw₁ ht hw₂ =>
    rw [← List.append_assoc]
    exact .lastElem (hw.append hw₁) ht hw₂
  | consElem hw₁ ht hw₂ he =>
    rw [← List.append_assoc]
    exact .consElem (hw.append hw₁) ht hw₂ he

/-- White space in front of the members belongs to the first of them. -/
theorem Derives.members_ws {w t : Bytes} {ms : List (Bytes × Json)} (hw : Ws w)
    (h : Derives .members t (.obj ms)) : Derives .members (w ++ t) (.obj ms) := by
  cases h with
  | lastMember hw₁ hk hw₂ hw₃ ht hw₄ =>
    rw [← List.append_assoc]
    exact .lastMember (hw.append hw₁) hk hw₂ hw₃ ht hw₄
  | consMember hw₁ hk hw₂ hw₃ ht hw₄ hm =>
    rw [← List.append_assoc]
    exact .consMember (hw.append hw₁) hk hw₂ hw₃ ht hw₄ hm

/-- What the three parsers accept with a given amount of fuel. -/
structure Sound (fuel : Nat) : Prop where
  value : ∀ {s r : Bytes} {v : Json}, parseValue fuel s = some (v, r) →
    ∃ t, Derives .value t v ∧ s = t ++ r
  elems : ∀ {s r : Bytes} {vs : List Json}, parseElems fuel s = some (vs, r) →
    ∃ t, Derives .elems t (.arr vs) ∧ s = t ++ 0x5D :: r
  members : ∀ {s r : Bytes} {ms : List (Bytes × Json)}, parseMembers fuel s = some (ms, r) →
    ∃ t, Derives .members t (.obj ms) ∧ s = t ++ 0x7D :: r

theorem value_sound {fuel : Nat} (ih : Sound fuel) {s r : Bytes} {v : Json}
    (h : parseValue (fuel + 1) s = some (v, r)) : ∃ t, Derives .value t v ∧ s = t ++ r := by
  cases s with
  | nil => cases h
  | cons b rest =>
    rw [parseValue] at h
    split at h
    · next hb =>
      obtain ⟨⟨us, r'⟩, hus, hans⟩ := Option.bind_eq_some_iff.mp h
      obtain ⟨t, ht, rfl⟩ := parseChars_sound hus
      cases hans
      exact ⟨_, .str ht, by simp [hb]⟩
    split at h
    · next hb =>
      obtain ⟨w, hw, hrest⟩ := ws_split rest
      split at h
      · next heq =>
        rw [heq] at hrest
        cases h
        exact ⟨_, .emptyArr hw, by simp [hb, hrest]⟩
      · obtain ⟨⟨vs, r'⟩, hvs, hans⟩ := Option.bind_eq_some_iff.mp h
        obtain ⟨t, ht, heq⟩ := ih.elems hvs
        rw [heq] at hrest
        cases hans
        exact ⟨_, .arr (.elems_ws hw ht), by simp [hb, hrest]⟩
    split at h
    · next hb =>
      obtain ⟨w, hw, hrest⟩ := ws_split rest
      split at h
      · next heq =>
        rw [heq] at hrest
        cases h
        exact ⟨_, .emptyObj hw, by simp [hb, hrest]⟩
      · obtain ⟨⟨ms, r'⟩, hms, hans⟩ := Option.bind_eq_some_iff.mp h
        obtain ⟨t, ht, heq⟩ := ih.members hms
        rw [heq] at hrest
        cases hans
        exact ⟨_, .obj (.members_ws hw ht), by simp [hb, hrest]⟩
    split at h
    · obtain ⟨rfl, heq⟩ := parseWord_sound h
      exact ⟨_, .null, heq⟩
    split at h
    · obtain ⟨rfl, heq⟩ := parseWord_sound h
      exact ⟨_, .trueWord, heq⟩
    split at h
    · obtain ⟨rfl, heq⟩ := parseWord_sound h
      exact ⟨_, .falseWord, heq⟩
    · obtain ⟨⟨t, r'⟩, ht, hans⟩ := Option.bind_eq_some_iff.mp h
      obtain ⟨hnum, heq⟩ := parseNumber_sound ht
      cases hans
      exact ⟨_, .num hnum, heq⟩

theorem elems_sound {fuel : Nat} (ih : Sound fuel) {s r : Bytes} {vs : List Json}
    (h : parseElems (fuel + 1) s = some (vs, r)) :
    ∃ t, Derives .elems t (.arr vs) ∧ s = t ++ 0x5D :: r := by
  rw [parseElems] at h
  obtain ⟨⟨v, r₁⟩, hv, hans⟩ := Option.bind_eq_some_iff.mp h
  obtain ⟨w₁, hw₁, hs⟩ := ws_split s
  obtain ⟨t, ht, heq⟩ := ih.value hv
  obtain ⟨w₂, hw₂, hr₁⟩ := ws_split r₁
  rw [heq] at hs
  simp only at hans
  split at hans
  · next hr =>
    rw [hr] at hr₁
    cases hans
    exact ⟨_, .lastElem hw₁ ht hw₂, by simp [hs, hr₁]⟩
  · next hr =>
    rw [hr] at hr₁
    obtain ⟨⟨vs', r₂⟩, hvs, hlist⟩ := Option.bind_eq_some_iff.mp hans
    obtain ⟨e, he, rfl⟩ := ih.elems hvs
    cases hlist
    exact ⟨_, .consElem hw₁ ht hw₂ he, by simp [hs, hr₁]⟩
  · cases hans

theorem members_sound {fuel : Nat} (ih : Sound fuel) {s r : Bytes} {ms : List (Bytes × Json)}
    (h : parseMembers (fuel + 1) s = some (ms, r)) :
    ∃ t, Derives .members t (.obj ms) ∧ s = t ++ 0x7D :: r := by
  rw [parseMembers] at h
  obtain ⟨w₁, hw₁, hs⟩ := ws_split s
  split at h
  · next s₁ hquote =>
    rw [hquote] at hs
    obtain ⟨⟨us, r₁⟩, hus, hans⟩ := Option.bind_eq_some_iff.mp h
    obtain ⟨k, hk, rfl⟩ := parseChars_sound hus
    obtain ⟨w₂, hw₂, hr₁⟩ := ws_split r₁
    simp only at hans
    split at hans
    · next r₂ hcolon =>
      rw [hcolon] at hr₁
      obtain ⟨⟨v, r₃⟩, hv, hans⟩ := Option.bind_eq_some_iff.mp hans
      obtain ⟨w₃, hw₃, hr₂⟩ := ws_split r₂
      obtain ⟨t, ht, heq⟩ := ih.value hv
      rw [heq] at hr₂
      obtain ⟨w₄, hw₄, hr₃⟩ := ws_split r₃
      simp only at hans
      split at hans
      · next hr =>
        rw [hr] at hr₃
        cases hans
        exact ⟨_, .lastMember hw₁ hk hw₂ hw₃ ht hw₄, by simp [hs, hr₁, hr₂, hr₃]⟩
      · next hr =>
        rw [hr] at hr₃
        obtain ⟨⟨ms', r₄⟩, hms, hlist⟩ := Option.bind_eq_some_iff.mp hans
        obtain ⟨m, hm, rfl⟩ := ih.members hms
        cases hlist
        exact ⟨_, .consMember hw₁ hk hw₂ hw₃ ht hw₄ hm, by simp [hs, hr₁, hr₂, hr₃]⟩
      · cases hans
    · cases hans
  · cases h

theorem sound (fuel : Nat) : Sound fuel := by
  induction fuel with
  | zero =>
    constructor
    · intro _ _ _ h; cases h
    · intro _ _ _ h; cases h
    · intro _ _ _ h; cases h
  | succ fuel ih => exact ⟨value_sound ih, elems_sound ih, members_sound ih⟩

/-- An accepted text is a value of the grammar between white space. -/
theorem parse_sound {s : Bytes} {v : Json} (h : parse s = some v) :
    ∃ w₁ t w₂, s = w₁ ++ (t ++ w₂) ∧ Ws w₁ ∧ Derives .value t v ∧ Ws w₂ := by
  obtain ⟨⟨v', r⟩, hv, hans⟩ := Option.bind_eq_some_iff.mp h
  obtain ⟨w₁, hw₁, hs⟩ := ws_split s
  obtain ⟨t, ht, heq⟩ := (sound _).value hv
  obtain ⟨w₂, hw₂, hr⟩ := ws_split r
  simp only at hans
  split at hans
  · next hnil =>
    cases hans
    rw [heq] at hs
    rw [hnil, List.append_nil] at hr
    exact ⟨w₁, t, w₂, by rw [hs, hr], hw₁, ht, hw₂⟩
  · cases hans

end Zap.Data.Json
