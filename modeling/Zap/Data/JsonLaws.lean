import Zap.Data.Json

/-!
# The JSON parser accepts what the grammar derives

`parse_of_derives` is the one law the rest of the development uses: a derivation of a text
determines what the parser answers on it. The induction is on the derivation; `Completes` is
its motive, one clause for each category. A number ends where its literal ends only because of
what follows it, so the clause for values asks that the rest of the text begins with no byte
that could continue a number (`Follow`).
-/

set_option autoImplicit false

namespace Zap.Data.Json

/-! ## Strings -/

theorem isPlain_ne {b : UInt8} (h : isPlain b = true) :
    b ≠ 0x22 ∧ b ≠ 0x5C ∧ b < 0x80 := by
  simp only [isPlain, Bool.and_eq_true, decide_eq_true_eq, bne_iff_ne, ne_eq] at h
  exact ⟨h.1.2, h.2, h.1.1.2⟩

theorem parseChars_complete {t : Bytes} {us : List CodeUnit} (h : Chars t us) :
    ∀ (r : Bytes) (fuel : Nat), t.length + 1 ≤ fuel →
      parseChars fuel (t ++ 0x22 :: r) = some (us, r) := by
  induction h with
  | nil =>
    intro r fuel hf
    obtain ⟨fuel, rfl⟩ := Nat.exists_eq_succ_of_ne_zero (by omega : fuel ≠ 0)
    simp [parseChars]
  | @plain b t us hb _ ih =>
    intro r fuel hf
    obtain ⟨fuel, rfl⟩ := Nat.exists_eq_succ_of_ne_zero (by omega : fuel ≠ 0)
    obtain ⟨hq, hs, hlt⟩ := isPlain_ne hb
    simp only [List.length_cons, Nat.succ_eq_add_one, Nat.add_le_add_iff_right] at hf
    simp only [List.cons_append, parseChars, if_neg hq, if_neg hs, if_pos hlt, if_pos hb, ih r fuel hf,
      Option.bind_eq_bind, Option.bind_some]
  | @rune c t us hc _ ih =>
    intro r fuel hf
    obtain ⟨fuel, rfl⟩ := Nat.exists_eq_succ_of_ne_zero (by omega : fuel ≠ 0)
    obtain ⟨hacc, hlen⟩ := hc.decode (t ++ 0x22 :: r)
    obtain ⟨⟨b, c', rfl, hb⟩, _, _⟩ := hc
    have hq : b ≠ 0x22 := fun h => absurd (h ▸ hb) (by decide)
    have hs : b ≠ 0x5C := fun h => absurd (h ▸ hb) (by decide)
    have hlt : ¬ b < 0x80 := UInt8.not_lt.mpr hb
    have hfuel : t.length + 1 ≤ fuel := by
      simp only [List.length_append, List.length_cons] at hf
      omega
    have hdrop : (b :: (c' ++ (t ++ 0x22 :: r))).drop (b :: c').length = t ++ 0x22 :: r :=
      List.drop_left
    have htake : (b :: (c' ++ (t ++ 0x22 :: r))).take (b :: c').length = b :: c' :=
      List.take_left
    rw [List.cons_append] at hacc hlen
    simp only [List.cons_append, List.append_assoc, parseChars, if_neg hq, if_neg hs, if_neg hlt,
      hacc, Bool.false_eq_true, ↓reduceIte, hlen, hdrop, htake, ih r fuel hfuel,
      Option.bind_eq_bind, Option.bind_some]
  | @escape e x t us he _ ih =>
    intro r fuel hf
    obtain ⟨fuel, rfl⟩ := Nat.exists_eq_succ_of_ne_zero (by omega : fuel ≠ 0)
    have hu : e ≠ 0x75 := by
      rintro rfl
      rw [show simpleEscape 0x75 = none by decide] at he
      cases he
    have hfuel : t.length + 1 ≤ fuel := by
      simp only [List.length_cons] at hf
      omega
    simp only [List.cons_append, parseChars, show ¬ (0x5C : UInt8) = 0x22 by decide, ↓reduceIte,
      if_neg hu, he, ih r fuel hfuel, Option.bind_eq_bind, Option.bind_some]
  | @hex a b c d u t us hu _ ih =>
    intro r fuel hf
    obtain ⟨fuel, rfl⟩ := Nat.exists_eq_succ_of_ne_zero (by omega : fuel ≠ 0)
    have hfuel : t.length + 1 ≤ fuel := by
      simp only [List.length_cons] at hf
      omega
    simp only [List.cons_append, parseChars, show ¬ (0x5C : UInt8) = 0x22 by decide, ↓reduceIte,
      hu, ih r fuel hfuel, Option.bind_eq_bind, Option.bind_some]

/-! ## Runs of one kind of byte -/

/-- The rest of a text does not continue a run of `p`. -/
def Stops (p : UInt8 → Bool) (r : Bytes) : Prop := ∀ b, r.head? = some b → p b = false

theorem takeWhile_run {p : UInt8 → Bool} {t r : Bytes} (ht : ∀ b ∈ t, p b = true)
    (hr : Stops p r) : (t ++ r).takeWhile p = t ∧ (t ++ r).dropWhile p = r := by
  induction t with
  | nil =>
    cases r with
    | nil => exact ⟨rfl, rfl⟩
    | cons b r =>
      have hb := hr b rfl
      simp [hb]
  | cons b t ih =>
    have hb := ht b List.mem_cons_self
    have ⟨h₁, h₂⟩ := ih (fun b' h' => ht b' (List.mem_cons_of_mem _ h'))
    simp only [List.cons_append, List.takeWhile, List.dropWhile, hb, h₁, h₂, and_self]

theorem dropWs {w r : Bytes} (hw : Ws w) (hr : Stops isWs r) : (w ++ r).dropWhile isWs = r :=
  (takeWhile_run hw hr).2

theorem dropWs_idem (s : Bytes) : (s.dropWhile isWs).dropWhile isWs = s.dropWhile isWs := by
  induction s with
  | nil => rfl
  | cons b s ih =>
    by_cases hb : isWs b = true
    · simp only [List.dropWhile, hb, ih]
    · simp only [List.dropWhile, Bool.not_eq_true] at hb ⊢
      simp only [hb, List.dropWhile]

theorem stops_cons {p : UInt8 → Bool} {b : UInt8} (h : p b = false) (r : Bytes) :
    Stops p (b :: r) := by
  intro b' hb'
  cases hb'
  exact h

/-! ## Numbers -/

/-- No byte that could continue a number literal. -/
def continuesNumber (b : UInt8) : Bool := isDigit b || b == 0x2E || b == 0x65 || b == 0x45

/-- The rest of a text that may follow a value. -/
def Follow (r : Bytes) : Prop := Stops continuesNumber r

theorem Follow.digit {r : Bytes} (h : Follow r) : Stops isDigit r := by
  intro b hb
  have := h b hb
  simp only [continuesNumber, Bool.or_eq_false_iff] at this
  exact this.1.1.1

theorem parseDigits_complete {t r : Bytes} (ht : Digits t) (hr : Stops isDigit r) :
    parseDigits (t ++ r) = some (t, r) := by
  obtain ⟨h₁, h₂⟩ := takeWhile_run ht.2 hr
  simp only [parseDigits, h₁, h₂, if_neg ht.1]

theorem parseInt_complete {t r : Bytes} (ht : IntPart t) (hr : Stops isDigit r) :
    parseInt (t ++ r) = some (t, r) := by
  simp only [parseInt, parseDigits_complete ht.1 hr, Option.bind_eq_bind, Option.bind_some]
  rw [if_neg]
  rintro ⟨hz, hne⟩
  exact hne (ht.2 hz)

theorem parseOpt_take {p : UInt8 → Bool} {b : UInt8} (h : p b = true) (r : Bytes) :
    parseOpt p (b :: r) = ([b], r) := by
  rw [parseOpt, if_pos h]

theorem parseOpt_skip {p : UInt8 → Bool} {r : Bytes} (h : Stops p r) :
    parseOpt p r = ([], r) := by
  cases r with
  | nil => rfl
  | cons b r => rw [parseOpt, if_neg (by rw [h b rfl]; exact Bool.false_ne_true)]

theorem Digits.head {t : Bytes} (h : Digits t) (r : Bytes) :
    ∃ b t', t ++ r = b :: t' ∧ isDigit b = true := by
  obtain ⟨b, t', rfl⟩ := List.exists_cons_of_ne_nil h.1
  exact ⟨b, t' ++ r, rfl, h.2 b List.mem_cons_self⟩

/-- No digit is one of a given set of other bytes. -/
theorem stops_of_digit {p : UInt8 → Bool} {t r : Bytes} (ht : Digits t)
    (hp : ∀ b, isDigit b = true → p b = false) : Stops p (t ++ r) := by
  obtain ⟨b, t', heq, hb⟩ := ht.head r
  rw [heq]
  exact stops_cons (hp b hb) t'

theorem digit_not_sign {b : UInt8} (h : isDigit b = true) : (b == 0x2B || b == 0x2D) = false := by
  rw [isDigit_iff] at h
  simp only [Bool.or_eq_false_iff, beq_eq_false_iff_ne, ne_eq]
  exact ⟨fun hb => by rw [hb] at h; exact absurd h.1 (by decide),
    fun hb => by rw [hb] at h; exact absurd h.1 (by decide)⟩

theorem parseExponent_complete {t r : Bytes} (ht : Exponent t) (hr : Follow r) :
    parseExponent (t ++ r) = some (t, r) := by
  rcases ht with rfl | ⟨e, sign, ds, rfl, he, hsign, hds⟩
  · have hskip : Stops (fun b => b == 0x65 || b == 0x45) r := by
      intro b hb
      have := hr b hb
      simp only [continuesNumber, Bool.or_eq_false_iff] at this
      simp only [this.1.2, this.2, Bool.or_false]
    simp only [List.nil_append, parseExponent, parseOpt_skip hskip]
  · have hepow : (e == 0x65 || e == 0x45) = true := by
      rcases he with rfl | rfl <;> rfl
    have hdig := parseDigits_complete hds hr.digit
    have hsig : parseOpt (fun b => b == 0x2B || b == 0x2D) (sign ++ (ds ++ r)) = (sign, ds ++ r) := by
      rcases hsign with rfl | rfl | rfl
      · rw [List.nil_append]
        exact parseOpt_skip (stops_of_digit hds fun b hb => digit_not_sign hb)
      · rfl
      · rfl
    rw [List.cons_append, parseExponent, parseOpt_take hepow]
    simp only [List.append_assoc, hsig, hdig, Option.bind_eq_bind, Option.bind_some,
      List.cons_append, List.nil_append]

/-- What follows a fraction in a number starts with no digit. -/
theorem Exponent.stops {t r : Bytes} (ht : Exponent t) (hr : Follow r) :
    Stops isDigit (t ++ r) ∧ Stops (· == 0x2E) (t ++ r) := by
  rcases ht with rfl | ⟨e, sign, ds, rfl, he, _, _⟩
  · refine ⟨hr.digit, fun b hb => ?_⟩
    have := hr b hb
    simp only [continuesNumber, Bool.or_eq_false_iff] at this
    exact this.1.1.2
  · rcases he with rfl | rfl
    · exact ⟨stops_cons (by decide) _, stops_cons (by decide) _⟩
    · exact ⟨stops_cons (by decide) _, stops_cons (by decide) _⟩

theorem parseFrac_complete {t r : Bytes} (ht : Frac t) (hd : Stops isDigit r)
    (hp : Stops (· == 0x2E) r) : parseFrac (t ++ r) = some (t, r) := by
  rcases ht with rfl | ⟨ds, rfl, hds⟩
  · rw [List.nil_append]
    unfold parseFrac
    split
    · exact absurd (hp 0x2E rfl) (by decide)
    · rfl
  · simp only [List.cons_append, parseFrac, parseDigits_complete hds hd, Option.bind_eq_bind,
      Option.bind_some]

theorem Frac.stops {t r : Bytes} (ht : Frac t) (hd : Stops isDigit r) : Stops isDigit (t ++ r) := by
  rcases ht with rfl | ⟨ds, rfl, _⟩
  · exact hd
  · exact stops_cons (by decide) _

theorem parseNumber_complete {t r : Bytes} (ht : Number t) (hr : Follow r) :
    parseNumber (t ++ r) = some (t, r) := by
  obtain ⟨sign, int, frac, exp, rfl, hsign, hint, hfrac, hexp⟩ := ht
  obtain ⟨hexpDigit, hexpPoint⟩ := hexp.stops hr
  have hs : parseOpt (· == 0x2D) (sign ++ (int ++ (frac ++ (exp ++ r)))) =
      (sign, int ++ (frac ++ (exp ++ r))) := by
    rcases hsign with rfl | rfl
    · rw [List.nil_append]
      refine parseOpt_skip (stops_of_digit hint.1 fun b hb => ?_)
      exact (Bool.or_eq_false_iff.mp (digit_not_sign hb)).2
    · rfl
  have hi := parseInt_complete hint (hfrac.stops hexpDigit)
  have hf := parseFrac_complete hfrac hexpDigit hexpPoint
  have he := parseExponent_complete hexp hr
  simp only [parseNumber, List.append_assoc, hs, hi, hf, he, Option.bind_eq_bind, Option.bind_some]

theorem Number.head {t : Bytes} (ht : Number t) :
    ∃ b t', t = b :: t' ∧ (b = 0x2D ∨ isDigit b = true) := by
  obtain ⟨sign, int, frac, exp, rfl, hsign, hint, _, _⟩ := ht
  rcases hsign with rfl | rfl
  · obtain ⟨b, t', heq, hb⟩ := hint.1.head (frac ++ exp)
    exact ⟨b, t', by rw [List.nil_append, List.append_assoc, heq], .inr hb⟩
  · exact ⟨0x2D, _, rfl, .inl rfl⟩

/-! ## Values -/

/-- The bytes a value can start with. -/
def startsValue (b : UInt8) : Bool :=
  b == 0x22 || b == 0x5B || b == 0x7B || b == 0x6E || b == 0x74 || b == 0x66 || b == 0x2D ||
    isDigit b

theorem Derives.head {t : Bytes} {v : Json} (h : Derives .value t v) :
    ∃ b t', t = b :: t' ∧ startsValue b = true := by
  cases h with
  | null => exact ⟨_, _, rfl, by decide⟩
  | trueWord => exact ⟨_, _, rfl, by decide⟩
  | falseWord => exact ⟨_, _, rfl, by decide⟩
  | num hn =>
    obtain ⟨b, t', rfl, hb⟩ := hn.head
    refine ⟨b, t', rfl, ?_⟩
    rcases hb with rfl | hb
    · decide
    · simp only [startsValue, hb, Bool.or_true]
  | str _ => exact ⟨_, _, rfl, by decide⟩
  | emptyArr _ => exact ⟨_, _, rfl, by decide⟩
  | arr _ => exact ⟨_, _, rfl, by decide⟩
  | emptyObj _ => exact ⟨_, _, rfl, by decide⟩
  | obj _ => exact ⟨_, _, rfl, by decide⟩

theorem digit_cases {b : UInt8} (h : isDigit b = true) :
    isWs b = false ∧ b ≠ 0x22 ∧ b ≠ 0x5B ∧ b ≠ 0x7B ∧ b ≠ 0x5D ∧ b ≠ 0x6E ∧ b ≠ 0x74 ∧ b ≠ 0x66 := by
  rw [isDigit_iff] at h
  simp only [isWs, Bool.or_eq_false_iff, beq_eq_false_iff_ne, ne_eq]
  refine ⟨⟨⟨⟨?_, ?_⟩, ?_⟩, ?_⟩, ?_, ?_, ?_, ?_, ?_, ?_, ?_⟩ <;>
    · rintro rfl
      revert h
      decide

theorem startsValue_not {b : UInt8} (h : startsValue b = true) :
    isWs b = false ∧ b ≠ 0x5D := by
  simp only [startsValue, Bool.or_eq_true, beq_iff_eq] at h
  rcases h with ((((((rfl | rfl) | rfl) | rfl) | rfl) | rfl) | rfl) | hd
  · exact ⟨by decide, by decide⟩
  · exact ⟨by decide, by decide⟩
  · exact ⟨by decide, by decide⟩
  · exact ⟨by decide, by decide⟩
  · exact ⟨by decide, by decide⟩
  · exact ⟨by decide, by decide⟩
  · exact ⟨by decide, by decide⟩
  · exact ⟨(digit_cases hd).1, (digit_cases hd).2.2.2.2.1⟩

theorem Derives.stopsWs {t : Bytes} {v : Json} (h : Derives .value t v) (r : Bytes) :
    Stops isWs (t ++ r) := by
  obtain ⟨b, t', rfl, hb⟩ := h.head
  exact stops_cons (startsValue_not hb).1 _

/-- What the parser owes a derivation, by its category. -/
def Completes : Category → Bytes → Json → Prop
  | .value, t, v => ∀ (r : Bytes) (fuel : Nat), Follow r → t.length + 1 ≤ fuel →
      parseValue fuel (t ++ r) = some (v, r)
  | .elems, t, v => ∀ vs, v = .arr vs → ∀ (r : Bytes) (fuel : Nat), t.length + 2 ≤ fuel →
      parseElems fuel (t ++ 0x5D :: r) = some (vs, r)
  | .members, t, v => ∀ ms, v = .obj ms → ∀ (r : Bytes) (fuel : Nat), t.length + 2 ≤ fuel →
      parseMembers fuel (t ++ 0x7D :: r) = some (ms, r)

theorem parseElems_dropWs (fuel : Nat) (s : Bytes) :
    parseElems fuel (s.dropWhile isWs) = parseElems fuel s := by
  cases fuel with
  | zero => rfl
  | succ fuel => simp only [parseElems, dropWs_idem]

theorem parseMembers_dropWs (fuel : Nat) (s : Bytes) :
    parseMembers fuel (s.dropWhile isWs) = parseMembers fuel s := by
  cases fuel with
  | zero => rfl
  | succ fuel => simp only [parseMembers, dropWs_idem]

theorem follow_ws {w : Bytes} (hw : Ws w) {b : UInt8} (hb : continuesNumber b = false) (r : Bytes) :
    Follow (w ++ b :: r) := by
  cases w with
  | nil => exact stops_cons hb r
  | cons c w =>
    refine stops_cons ?_ _
    have hc := hw c List.mem_cons_self
    simp only [isWs, Bool.or_eq_true, beq_iff_eq] at hc
    rcases hc with ((rfl | rfl) | rfl) | rfl <;> decide

/-- The elements of a nonempty array do not start with its closing bracket. -/
theorem Derives.elems_head {t : Bytes} {vs : List Json} (h : Derives .elems t (.arr vs)) (r : Bytes) :
    ∃ b s, (t ++ r).dropWhile isWs = b :: s ∧ b ≠ 0x5D := by
  cases h with
  | @lastElem w₁ t w₂ v hw₁ hv hw₂ =>
    rw [List.append_assoc, dropWs hw₁ (by rw [List.append_assoc]; exact hv.stopsWs _)]
    obtain ⟨b, t', rfl, hb⟩ := hv.head
    exact ⟨b, _, rfl, (startsValue_not hb).2⟩
  | @consElem w₁ t w₂ e v vs hw₁ hv hw₂ he =>
    rw [List.append_assoc, dropWs hw₁ (by rw [List.append_assoc]; exact hv.stopsWs _)]
    obtain ⟨b, t', rfl, hb⟩ := hv.head
    exact ⟨b, _, rfl, (startsValue_not hb).2⟩

/-- The members of a nonempty object start with a quote. -/
theorem Derives.members_head {t : Bytes} {ms : List (Bytes × Json)}
    (h : Derives .members t (.obj ms)) (r : Bytes) :
    ∃ s, (t ++ r).dropWhile isWs = 0x22 :: s := by
  cases h with
  | lastMember hw₁ _ _ _ _ _ =>
    rw [List.append_assoc, List.cons_append, dropWs hw₁ (stops_cons (by decide) _)]
    exact ⟨_, rfl⟩
  | consMember hw₁ _ _ _ _ _ _ =>
    rw [List.append_assoc, List.cons_append, dropWs hw₁ (stops_cons (by decide) _)]
    exact ⟨_, rfl⟩

theorem parseWord_append (word : Bytes) (v : Json) (r : Bytes) :
    parseWord word v (word ++ r) = some (v, r) := by
  rw [parseWord, List.take_left, if_pos rfl, List.drop_left]

theorem complete_num {t : Bytes} (hn : Number t) : Completes .value t (.num t) := by
  intro r fuel hr hf
  obtain ⟨fuel, rfl⟩ := Nat.exists_eq_succ_of_ne_zero (by omega : fuel ≠ 0)
  have hparse := parseNumber_complete hn hr
  obtain ⟨b, t', rfl, hb⟩ := hn.head
  have hne : b ≠ 0x22 ∧ b ≠ 0x5B ∧ b ≠ 0x7B ∧ b ≠ 0x6E ∧ b ≠ 0x74 ∧ b ≠ 0x66 := by
    rcases hb with rfl | hb
    · decide
    · obtain ⟨_, h₁, h₂, h₃, _, h₄, h₅, h₆⟩ := digit_cases hb
      exact ⟨h₁, h₂, h₃, h₄, h₅, h₆⟩
  obtain ⟨h₁, h₂, h₃, h₄, h₅, h₆⟩ := hne
  rw [List.cons_append] at hparse ⊢
  simp only [parseValue, if_neg h₁, if_neg h₂, if_neg h₃, if_neg h₄, if_neg h₅, if_neg h₆, hparse,
    Option.bind_eq_bind, Option.bind_some]

theorem complete_str {t : Bytes} {us : List CodeUnit} (h : Chars t us) :
    Completes .value (0x22 :: (t ++ [0x22])) (.str (assemble us)) := by
  intro r fuel _ hf
  obtain ⟨fuel, rfl⟩ := Nat.exists_eq_succ_of_ne_zero (by omega : fuel ≠ 0)
  have hparse := parseChars_complete h r ((t ++ 0x22 :: r).length + 1)
    (by simp only [List.length_append]; omega)
  simp only [List.cons_append, List.append_assoc, List.nil_append, parseValue, ↓reduceIte, hparse,
    Option.bind_eq_bind, Option.bind_some]

theorem complete_emptyArr {w : Bytes} (hw : Ws w) :
    Completes .value (0x5B :: (w ++ [0x5D])) (.arr []) := by
  intro r fuel _ hf
  obtain ⟨fuel, rfl⟩ := Nat.exists_eq_succ_of_ne_zero (by omega : fuel ≠ 0)
  have hdrop : (w ++ 0x5D :: r).dropWhile isWs = 0x5D :: r := dropWs hw (stops_cons (by decide) r)
  simp only [List.cons_append, List.append_assoc, List.nil_append, parseValue,
    show ¬ (0x5B : UInt8) = 0x22 by decide, ↓reduceIte, hdrop]

theorem complete_emptyObj {w : Bytes} (hw : Ws w) :
    Completes .value (0x7B :: (w ++ [0x7D])) (.obj []) := by
  intro r fuel _ hf
  obtain ⟨fuel, rfl⟩ := Nat.exists_eq_succ_of_ne_zero (by omega : fuel ≠ 0)
  have hdrop : (w ++ 0x7D :: r).dropWhile isWs = 0x7D :: r := dropWs hw (stops_cons (by decide) r)
  simp only [List.cons_append, List.append_assoc, List.nil_append, parseValue,
    show ¬ (0x7B : UInt8) = 0x22 by decide, show ¬ (0x7B : UInt8) = 0x5B by decide, ↓reduceIte,
    hdrop]

theorem complete_arr {t : Bytes} {vs : List Json} (h : Derives .elems t (.arr vs))
    (ih : Completes .elems t (.arr vs)) : Completes .value (0x5B :: (t ++ [0x5D])) (.arr vs) := by
  intro r fuel _ hf
  obtain ⟨fuel, rfl⟩ := Nat.exists_eq_succ_of_ne_zero (by omega : fuel ≠ 0)
  simp only [List.length_cons, List.length_append, List.length_nil] at hf
  have hparse := ih vs rfl r fuel (by omega)
  obtain ⟨b, s, hdrop, hb⟩ := h.elems_head (0x5D :: r)
  rw [← parseElems_dropWs, hdrop] at hparse
  simp only [List.cons_append, List.append_assoc, List.nil_append, parseValue,
    show ¬ (0x5B : UInt8) = 0x22 by decide, ↓reduceIte, hdrop]
  split
  · next heq => cases heq; exact absurd rfl hb
  · simp only [hparse, Option.bind_eq_bind, Option.bind_some]

theorem complete_obj {t : Bytes} {ms : List (Bytes × Json)} (h : Derives .members t (.obj ms))
    (ih : Completes .members t (.obj ms)) : Completes .value (0x7B :: (t ++ [0x7D])) (.obj ms) := by
  intro r fuel _ hf
  obtain ⟨fuel, rfl⟩ := Nat.exists_eq_succ_of_ne_zero (by omega : fuel ≠ 0)
  simp only [List.length_cons, List.length_append, List.length_nil] at hf
  have hparse := ih ms rfl r fuel (by omega)
  obtain ⟨s, hdrop⟩ := h.members_head (0x7D :: r)
  rw [← parseMembers_dropWs, hdrop] at hparse
  simp only [List.cons_append, List.append_assoc, List.nil_append, parseValue,
    show ¬ (0x7B : UInt8) = 0x22 by decide, show ¬ (0x7B : UInt8) = 0x5B by decide, ↓reduceIte,
    hdrop]
  split
  · next heq => cases heq
  · simp only [hparse, Option.bind_eq_bind, Option.bind_some]

/-- One element, up to the white space after it. -/
theorem parseElems_value {w₁ t w₂ r : Bytes} {v : Json} {b : UInt8} {n : Nat} (hw₁ : Ws w₁)
    (hv : Derives .value t v) (ih : Completes .value t v) (hw₂ : Ws w₂)
    (hb : continuesNumber b = false) (hws : isWs b = false) (hf : t.length + 1 ≤ n) :
    parseValue n ((w₁ ++ (t ++ (w₂ ++ b :: r))).dropWhile isWs) = some (v, w₂ ++ b :: r) ∧
      (w₂ ++ b :: r).dropWhile isWs = b :: r := by
  rw [dropWs hw₁ (hv.stopsWs _), dropWs hw₂ (stops_cons hws r)]
  exact ⟨ih _ n (follow_ws hw₂ hb r) hf, rfl⟩

/-- One member, up to the white space after it: what each step of the parser sees. -/
theorem parseMembers_value {w₁ k w₂ w₃ t w₄ r : Bytes} {us : List CodeUnit} {v : Json} {b : UInt8}
    {n : Nat} (hw₁ : Ws w₁) (hk : Chars k us) (hw₂ : Ws w₂) (hw₃ : Ws w₃)
    (hv : Derives .value t v) (ih : Completes .value t v) (hw₄ : Ws w₄)
    (hb : continuesNumber b = false) (hws : isWs b = false) (hf : t.length + 1 ≤ n) :
    let value := w₃ ++ (t ++ (w₄ ++ b :: r))
    let key := k ++ 0x22 :: (w₂ ++ 0x3A :: value)
    (w₁ ++ 0x22 :: key).dropWhile isWs = 0x22 :: key ∧
      parseChars (key.length + 1) key = some (us, w₂ ++ 0x3A :: value) ∧
      (w₂ ++ 0x3A :: value).dropWhile isWs = 0x3A :: value ∧
      parseValue n (value.dropWhile isWs) = some (v, w₄ ++ b :: r) ∧
      (w₄ ++ b :: r).dropWhile isWs = b :: r := by
  intro value key
  obtain ⟨hval, hend⟩ := parseElems_value (r := r) hw₃ hv ih hw₄ hb hws hf
  refine ⟨dropWs hw₁ (stops_cons (by decide) _), ?_, dropWs hw₂ (stops_cons (by decide) _), hval, hend⟩
  exact parseChars_complete hk _ _ (by simp only [key, List.length_append]; omega)

/-- A derived text is parsed to the value it derives. -/
theorem Derives.completes {c : Category} {t : Bytes} {v : Json} (h : Derives c t v) :
    Completes c t v := by
  induction h with
  | null =>
    intro r fuel _ hf
    obtain ⟨fuel, rfl⟩ := Nat.exists_eq_succ_of_ne_zero (by omega : fuel ≠ 0)
    exact parseWord_append (utf8 "null") .null r
  | trueWord =>
    intro r fuel _ hf
    obtain ⟨fuel, rfl⟩ := Nat.exists_eq_succ_of_ne_zero (by omega : fuel ≠ 0)
    exact parseWord_append (utf8 "true") (.bool true) r
  | falseWord =>
    intro r fuel _ hf
    obtain ⟨fuel, rfl⟩ := Nat.exists_eq_succ_of_ne_zero (by omega : fuel ≠ 0)
    exact parseWord_append (utf8 "false") (.bool false) r
  | num hn => exact complete_num hn
  | str hc => exact complete_str hc
  | emptyArr hw => exact complete_emptyArr hw
  | arr he ih => exact complete_arr he ih
  | emptyObj hw => exact complete_emptyObj hw
  | obj hm ih => exact complete_obj hm ih
  | @lastElem w₁ t w₂ v hw₁ hv hw₂ ih =>
    intro vs hvs r fuel hf
    cases hvs
    obtain ⟨fuel, rfl⟩ := Nat.exists_eq_succ_of_ne_zero (by omega : fuel ≠ 0)
    simp only [List.length_append] at hf
    obtain ⟨hval, hend⟩ := parseElems_value (b := 0x5D) (r := r) (n := fuel) hw₁ hv ih hw₂
      (by decide) (by decide) (by omega)
    simp only [List.append_assoc, parseElems, hval, hend, Option.bind_eq_bind, Option.bind_some]
  | @consElem w₁ t w₂ e v vs hw₁ hv hw₂ _ ihv ihe =>
    intro vs' hvs r fuel hf
    cases hvs
    obtain ⟨fuel, rfl⟩ := Nat.exists_eq_succ_of_ne_zero (by omega : fuel ≠ 0)
    simp only [List.length_append, List.length_cons] at hf
    obtain ⟨hval, hend⟩ := parseElems_value (b := 0x2C) (r := e ++ 0x5D :: r) (n := fuel) hw₁ hv
      ihv hw₂ (by decide) (by decide) (by omega)
    have hrest := ihe vs rfl r fuel (by omega)
    simp only [List.append_assoc, List.cons_append, parseElems, hval, hend, hrest,
      Option.bind_eq_bind, Option.bind_some]
  | @lastMember w₁ k w₂ w₃ t w₄ us v hw₁ hk hw₂ hw₃ hv hw₄ ih =>
    intro ms hms r fuel hf
    cases hms
    obtain ⟨fuel, rfl⟩ := Nat.exists_eq_succ_of_ne_zero (by omega : fuel ≠ 0)
    simp only [List.length_append, List.length_cons] at hf
    obtain ⟨h₁, h₂, h₃, h₄, h₅⟩ := parseMembers_value (b := 0x7D) (r := r) (n := fuel) hw₁ hk hw₂
      hw₃ hv ih hw₄ (by decide) (by decide) (by omega)
    simp only [List.append_assoc, List.cons_append, parseMembers, h₁, h₂, h₃, h₄, h₅,
      Option.bind_eq_bind, Option.bind_some]
  | @consMember w₁ k w₂ w₃ t w₄ m us v ms hw₁ hk hw₂ hw₃ hv hw₄ _ ihv ihm =>
    intro ms' hms r fuel hf
    cases hms
    obtain ⟨fuel, rfl⟩ := Nat.exists_eq_succ_of_ne_zero (by omega : fuel ≠ 0)
    simp only [List.length_append, List.length_cons] at hf
    have hrest := ihm ms rfl r fuel (by omega)
    obtain ⟨h₁, h₂, h₃, h₄, h₅⟩ := parseMembers_value (b := 0x2C) (r := m ++ 0x7D :: r) (n := fuel)
      hw₁ hk hw₂ hw₃ hv ihv hw₄ (by decide) (by decide) (by omega)
    simp only [List.append_assoc, List.cons_append, parseMembers, h₁, h₂, h₃, h₄, h₅, hrest,
      Option.bind_eq_bind, Option.bind_some]

/-- **The grammar determines the parse.** -/
theorem parse_of_derives {t : Bytes} {v : Json} (h : Derives .value t v) : parse t = some v := by
  have hstart : t.dropWhile isWs = t := by
    have := dropWs (w := []) (fun b hb => by cases hb) (h.stopsWs [])
    simpa only [List.nil_append, List.append_nil] using this
  have hparse := h.completes [] (t.length + 1) (fun b hb => by cases hb) (Nat.le_refl _)
  rw [List.append_nil] at hparse
  simp only [parse, hstart, hparse, Option.bind_eq_bind, Option.bind_some, List.dropWhile_nil,
    ↓reduceIte]

end Zap.Data.Json
