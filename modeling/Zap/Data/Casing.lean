import Zap.Data.Utf8

/-!
# Lower case

`bytes.ToLower` and `strings.ToLower` of Go, which do the same to the same bytes: ASCII is mapped
byte by byte, and any other text rune by rune with `unicode.ToLower`, bytes that are no UTF-8
becoming U+FFFD. The table behind `unicode.ToLower` differs from one version of Unicode to the next.
`Casing` is what all of them have: ASCII letters have their lower case, and outside ASCII two runes,
U+0130 and the Kelvin sign, have an ASCII letter as theirs.

So lowering is not the same as lowering ASCII, even where the outcome is ASCII. `Folds` relates
each text to the ASCII text that it becomes, and `spellings` lists what becomes a given one.
-/

set_option autoImplicit false

namespace Zap.Data

/-- `unicode.MaxRune`. -/
def maxRune : Nat := 0x10FFFF

/-- An ASCII letter in lower case. Other bytes stay. -/
def asciiLower (b : UInt8) : UInt8 := if 0x41 ≤ b ∧ b ≤ 0x5A then b + 0x20 else b

/-- `unicode.ToLower` in some version of Unicode. -/
class Casing where
  toLower : Nat → Nat
  toLower_ascii : ∀ b : UInt8, b < 0x80 → toLower b.toNat = (asciiLower b).toNat
  toLower_dotted : toLower 0x130 = 0x69
  toLower_kelvin : toLower 0x212A = 0x6B
  toLower_other : ∀ r, 0x80 ≤ r → r ≤ maxRune → r ≠ 0x130 → r ≠ 0x212A →
    0x80 ≤ toLower r ∧ toLower r ≤ maxRune

/-- The scan behind `mapRunes`: `skip` bytes still belong to the rune mapped last. -/
def mapRunesFrom (f : Nat → Nat) : Nat → Bytes → Bytes
  | _, [] => []
  | skip + 1, _ :: rest => mapRunesFrom f skip rest
  | 0, b :: rest =>
    encodeRune (f (decodeRune (b :: rest)).1) ++
      mapRunesFrom f ((decodeRune (b :: rest)).2 - 1) rest

/-- `bytes.Map` and `strings.Map`, for a mapping that drops no rune. -/
def mapRunes (f : Nat → Nat) (s : Bytes) : Bytes := mapRunesFrom f 0 s

/-- `bytes.ToLower` and `strings.ToLower`. -/
def toLower [Casing] (s : Bytes) : Bytes :=
  if ∀ b ∈ s, b < 0x80 then s.map asciiLower else mapRunes Casing.toLower s

/-- `Folds s t`: each rune of `s` has an ASCII byte as its lower case, and `t` is made of them. -/
inductive Folds : Bytes → Bytes → Prop where
  | nil : Folds [] []
  | ascii {b : UInt8} {s t : Bytes} : b < 0x80 → Folds s t → Folds (b :: s) (asciiLower b :: t)
  | dotted {s t : Bytes} : Folds s t → Folds (0xC4 :: 0xB0 :: s) (0x69 :: t)
  | kelvin {s t : Bytes} : Folds s t → Folds (0xE2 :: 0x84 :: 0xAA :: s) (0x6B :: t)

/-- The texts, in lower case as far as ASCII goes, whose lower case is the given ASCII byte. -/
def spell (c : UInt8) : List Bytes :=
  if c = 0x69 then [[c], [0xC4, 0xB0]]
  else if c = 0x6B then [[c], [0xE2, 0x84, 0xAA]]
  else [[c]]

/-- The texts, in lower case as far as ASCII goes, whose lower case is the given ASCII text. -/
def spellings : Bytes → List Bytes
  | [] => [[]]
  | c :: t => (spell c).flatMap fun h => (spellings t).map (h ++ ·)

/-- A table in which no rune outside ASCII but the two has a lower case. -/
@[reducible] def Casing.two : Casing where
  toLower r :=
    if r = 0x130 then 0x69
    else if r = 0x212A then 0x6B
    else if r < 0x80 then (asciiLower (UInt8.ofNat r)).toNat
    else r
  toLower_ascii b hb := by
    have hlt : b.toNat < 0x80 := UInt8.lt_iff_toNat_lt.mp hb
    rw [if_neg (by omega), if_neg (by omega), if_pos hlt, UInt8.ofNat_toNat]
  toLower_dotted := rfl
  toLower_kelvin := rfl
  toLower_other r hr hmax hd hk := by
    rw [if_neg hd, if_neg hk, if_neg (by omega)]
    exact ⟨hr, hmax⟩

/-! ## ASCII -/

theorem asciiLower_high {b : UInt8} (h : 0x80 ≤ b) : asciiLower b = b := by
  refine if_neg fun hup => ?_
  have hle := UInt8.le_trans h hup.2
  exact absurd hle (by decide)

/-- An ASCII letter in upper case. -/
theorem asciiLower_upper {b : UInt8} (h : 0x41 ≤ b ∧ b ≤ 0x5A) :
    (asciiLower b).toNat = b.toNat + 0x20 := by
  have hlow : 0x41 ≤ b.toNat := UInt8.le_iff_toNat_le.mp h.1
  have hhigh : b.toNat ≤ 0x5A := UInt8.le_iff_toNat_le.mp h.2
  have hadd : (b + 0x20).toNat = (b.toNat + 0x20) % 256 := UInt8.toNat_add b 0x20
  rw [asciiLower, if_pos h, hadd]
  omega

theorem asciiLower_lt {b : UInt8} : asciiLower b < 0x80 ↔ b < 0x80 := by
  by_cases h : 0x41 ≤ b ∧ b ≤ 0x5A
  · have hhigh : b.toNat ≤ 0x5A := UInt8.le_iff_toNat_le.mp h.2
    rw [UInt8.lt_iff_toNat_lt, UInt8.lt_iff_toNat_lt, asciiLower_upper h]
    have hbound : (0x80 : UInt8).toNat = 0x80 := rfl
    omega
  · rw [asciiLower, if_neg h]

/-- A byte outside ASCII is nobody's lower case but its own. -/
theorem eq_of_asciiLower_eq {b c : UInt8} (hc : 0x80 ≤ c) (h : asciiLower b = c) : b = c := by
  have hb : 0x80 ≤ b := by
    refine UInt8.not_lt.mp fun hlt => ?_
    have hlow := asciiLower_lt.mpr hlt
    rw [h] at hlow
    exact absurd hlow (UInt8.not_lt.mpr hc)
  rwa [asciiLower_high hb] at h

theorem eq_of_map_asciiLower {s t : Bytes} (ht : ∀ b ∈ t, 0x80 ≤ b)
    (h : s.map asciiLower = t) : s = t := by
  induction s generalizing t with
  | nil => exact h
  | cons b s ih =>
    subst h
    obtain ⟨hb, hs⟩ := List.forall_mem_cons.mp ht
    exact congrArg₂ List.cons (eq_of_asciiLower_eq hb rfl) (ih hs rfl)

/-! ## Mapping runes -/

section

variable {f : Nat → Nat}

theorem mapRunesFrom_drop (n : Nat) (s : Bytes) : mapRunesFrom f n s = mapRunes f (s.drop n) := by
  induction n generalizing s with
  | zero => rfl
  | succ n ih =>
    cases s with
    | nil => rfl
    | cons b rest => rw [mapRunesFrom, ih, List.drop_succ_cons]

theorem mapRunes_ascii {b : UInt8} (hb : b < 0x80) (t : Bytes) :
    mapRunes f (b :: t) = encodeRune (f b.toNat) ++ mapRunes f t := by
  rw [mapRunes, mapRunesFrom, decodeRune_ascii hb]
  rfl

theorem MultiRune.mapRunes {c : Bytes} (h : MultiRune c) (t : Bytes) :
    mapRunes f (c ++ t) = encodeRune (f (decodeRune c).1) ++ mapRunes f t := by
  have hdecode := h.decodeRune_append t
  have hwidth := (h.decode t).2
  obtain ⟨⟨b, r, rfl, -⟩, -, -⟩ := h
  rw [Data.mapRunes, List.cons_append, mapRunesFrom, ← List.cons_append, hwidth, hdecode,
    mapRunesFrom_drop, List.length_cons, Nat.add_sub_cancel, List.drop_left]

theorem mapRunes_reject {b : UInt8} {t : Bytes} (h : rejects (b :: t) = true) :
    mapRunes f (b :: t) = encodeRune (f runeError) ++ mapRunes f t := by
  rw [mapRunes, mapRunesFrom, eq_of_beq h]
  rfl

end

/-- The encoding of a rune outside ASCII starts outside ASCII. -/
theorem encodeRune_high {r : Nat} (hr : 0x80 ≤ r) (hmax : r ≤ maxRune) :
    ∃ b t, encodeRune r = b :: t ∧ 0x80 ≤ b := by
  have hle : ∀ {n : Nat}, 0x80 ≤ n → n < 0x100 → 0x80 ≤ UInt8.ofNat n := by
    intro n hlo hhi
    rw [UInt8.le_iff_toNat_le, UInt8.toNat_ofNat_of_lt' hhi]
    exact hlo
  unfold maxRune at hmax
  rw [encodeRune, if_neg (Nat.not_lt.mpr hr)]
  split
  · exact ⟨_, _, rfl, hle (by omega) (by omega)⟩
  · split
    · exact ⟨_, _, rfl, hle (by omega) (by omega)⟩
    · exact ⟨_, _, rfl, hle (by omega) (by omega)⟩

theorem encodeRune_low {b : UInt8} (hb : b < 0x80) : encodeRune b.toNat = [b] := by
  have hlt : b.toNat < 0x80 := UInt8.lt_iff_toNat_lt.mp hb
  rw [encodeRune, if_pos hlt, UInt8.ofNat_toNat]

/-! ## Folding -/

theorem Folds.isAscii {s t : Bytes} (h : Folds s t) : ∀ b ∈ t, b < 0x80 := by
  induction h with
  | nil => exact fun b hb => absurd hb List.not_mem_nil
  | ascii hb _ ih => exact List.forall_mem_cons.mpr ⟨asciiLower_lt.mpr hb, ih⟩
  | dotted _ ih => exact List.forall_mem_cons.mpr ⟨by decide, ih⟩
  | kelvin _ ih => exact List.forall_mem_cons.mpr ⟨by decide, ih⟩

theorem folds_ascii {b : UInt8} (hb : b < 0x80) {s t : Bytes} :
    Folds (b :: s) t ↔ ∃ u, t = asciiLower b :: u ∧ Folds s u := by
  constructor
  · intro h
    cases h with
    | ascii _ h => exact ⟨_, rfl, h⟩
    | dotted _ => exact absurd hb (by decide)
    | kelvin _ => exact absurd hb (by decide)
  · rintro ⟨u, rfl, h⟩
    exact .ascii hb h

theorem multiRune_dotted : MultiRune [0xC4, 0xB0] := ⟨⟨_, _, rfl, by decide⟩, by decide, by decide⟩

theorem multiRune_kelvin : MultiRune [0xE2, 0x84, 0xAA] :=
  ⟨⟨_, _, rfl, by decide⟩, by decide, by decide⟩

theorem not_folds_reject {b : UInt8} {s t : Bytes} (hb : 0x80 ≤ b)
    (hrej : rejects (b :: s) = true) : ¬Folds (b :: s) t := by
  intro h
  cases h with
  | ascii hlt _ => exact absurd hlt (UInt8.not_lt.mpr hb)
  | @dotted s t _ =>
    have hacc := (multiRune_dotted.decode s).1
    exact absurd (hrej.symm.trans hacc) (by decide)
  | @kelvin s t _ =>
    have hacc := (multiRune_kelvin.decode s).1
    exact absurd (hrej.symm.trans hacc) (by decide)

/-- The first rune of a text is determined by the text. -/
theorem MultiRune.unique {c d s u : Bytes} (hc : MultiRune c) (hd : MultiRune d)
    (h : c ++ s = d ++ u) : c = d := by
  refine List.append_inj_left h ?_
  rw [← (hc.decode s).2, h, (hd.decode u).2]

/-- A rune outside ASCII folds only if it is one of the two. -/
theorem MultiRune.folds {c : Bytes} (h : MultiRune c) {s t : Bytes} (hf : Folds (c ++ s) t) :
    c = [0xC4, 0xB0] ∨ c = [0xE2, 0x84, 0xAA] := by
  obtain ⟨⟨b, r, rfl, hb⟩, -, -⟩ := id h
  generalize hu : b :: r ++ s = u at hf
  cases hf with
  | nil => cases hu
  | ascii hlt _ =>
    obtain rfl := (List.cons.inj hu).1
    exact absurd hlt (UInt8.not_lt.mpr hb)
  | dotted _ => exact .inl (h.unique multiRune_dotted hu)
  | kelvin _ => exact .inr (h.unique multiRune_kelvin hu)

theorem folds_dotted {s t : Bytes} :
    Folds (0xC4 :: 0xB0 :: s) t ↔ ∃ u, t = 0x69 :: u ∧ Folds s u := by
  constructor
  · intro h
    cases h with
    | ascii hlt _ => exact absurd hlt (by decide)
    | dotted h => exact ⟨_, rfl, h⟩
  · rintro ⟨u, rfl, h⟩
    exact .dotted h

theorem folds_kelvin {s t : Bytes} :
    Folds (0xE2 :: 0x84 :: 0xAA :: s) t ↔ ∃ u, t = 0x6B :: u ∧ Folds s u := by
  constructor
  · intro h
    cases h with
    | ascii hlt _ => exact absurd hlt (by decide)
    | kelvin h => exact ⟨_, rfl, h⟩
  · rintro ⟨u, rfl, h⟩
    exact .kelvin h

/-- A rune whose lower case is outside ASCII leaves its mark. -/
theorem high_ne_ascii {r : Nat} (hr : 0x80 ≤ r) (hmax : r ≤ maxRune) {s t : Bytes}
    (ht : ∀ b ∈ t, b < 0x80) : encodeRune r ++ s ≠ t := by
  obtain ⟨b, u, hbytes, hb⟩ := encodeRune_high hr hmax
  rw [hbytes]
  rintro rfl
  exact absurd (ht b List.mem_cons_self) (UInt8.not_lt.mpr hb)

/-- An ASCII text in front of another. -/
theorem singleton_append_eq {c : UInt8} {s t : Bytes} {p : Bytes → Prop}
    (h : ∀ u, (∀ b ∈ u, b < 0x80) → (s = u ↔ p u)) (ht : ∀ b ∈ t, b < 0x80) :
    [c] ++ s = t ↔ ∃ u, t = c :: u ∧ p u := by
  constructor
  · rintro rfl
    have hs := (List.forall_mem_cons.mp ht).2
    exact ⟨s, rfl, (h s hs).mp rfl⟩
  · rintro ⟨u, rfl, hp⟩
    rw [(h u (List.forall_mem_cons.mp ht).2).mpr hp]
    rfl

section

variable [Casing]

theorem toLower_eq_mapRunes (s : Bytes) : toLower s = mapRunes Casing.toLower s := by
  unfold toLower
  split
  · next hs =>
    induction s with
    | nil => rfl
    | cons b s ih =>
      obtain ⟨hb, hs⟩ := List.forall_mem_cons.mp hs
      rw [mapRunes_ascii hb, Casing.toLower_ascii b hb, encodeRune_low (asciiLower_lt.mpr hb),
        ← ih hs]
      rfl
  · rfl

/-- Where the lower case of a text is ASCII, the text folds to it. -/
theorem toLower_eq_iff {s t : Bytes} (ht : ∀ b ∈ t, b < 0x80) : toLower s = t ↔ Folds s t := by
  rw [toLower_eq_mapRunes]
  induction s using runeInduction generalizing t with
  | nil =>
    constructor
    · rintro rfl
      exact .nil
    · intro h
      cases h
      rfl
  | ascii b s hb ih =>
    rw [mapRunes_ascii hb, Casing.toLower_ascii b hb, encodeRune_low (asciiLower_lt.mpr hb),
      folds_ascii hb]
    exact singleton_append_eq (fun u hu => ih hu) ht
  | rune c s hc ih =>
    obtain ⟨hlow, hmax, hbytes⟩ := hc.shape.encode
    rw [hc.mapRunes]
    by_cases hd : (decodeRune c).1 = 0x130
    · rw [hd] at hbytes ⊢
      subst hbytes
      rw [Casing.toLower_dotted]
      exact (singleton_append_eq (fun u hu => ih hu) ht).trans folds_dotted.symm
    · by_cases hk : (decodeRune c).1 = 0x212A
      · rw [hk] at hbytes ⊢
        subst hbytes
        rw [Casing.toLower_kelvin]
        exact (singleton_append_eq (fun u hu => ih hu) ht).trans folds_kelvin.symm
      · obtain ⟨hlow', hmax'⟩ := Casing.toLower_other _ hlow hmax hd hk
        refine iff_of_false (high_ne_ascii hlow' hmax' ht) fun hf => ?_
        rcases hc.folds hf with rfl | rfl
        · exact hd (by decide)
        · exact hk (by decide)
  | reject b s hb hrej ih =>
    have herr : 0x80 ≤ Casing.toLower runeError ∧ Casing.toLower runeError ≤ maxRune :=
      Casing.toLower_other runeError (by decide) (by decide) (by decide) (by decide)
    rw [mapRunes_reject hrej]
    exact iff_of_false (high_ne_ascii herr.1 herr.2 ht) (not_folds_reject hb hrej)

theorem toLower_ne_nil {s : Bytes} (h : s ≠ []) : toLower s ≠ [] := by
  rw [Ne, toLower_eq_iff fun b hb => absurd hb List.not_mem_nil]
  intro hfold
  cases hfold
  exact h rfl

theorem toLower_ascii {s : Bytes} (h : ∀ b ∈ s, b < 0x80) : toLower s = s.map asciiLower := if_pos h

end

/-! ## Spellings -/

theorem self_mem_spell (c : UInt8) : [c] ∈ spell c := by
  unfold spell
  split
  · exact List.mem_cons_self
  · split <;> exact List.mem_cons_self

theorem mem_spellings_cons {c : UInt8} {s t : Bytes} :
    s ∈ spellings (c :: t) ↔ ∃ h ∈ spell c, ∃ u ∈ spellings t, h ++ u = s := by
  simp only [spellings, List.mem_flatMap, List.mem_map]

theorem Folds.mem_spellings {s t : Bytes} (h : Folds s t) : s.map asciiLower ∈ spellings t := by
  induction h with
  | nil => exact List.mem_cons_self
  | ascii _ _ ih => exact mem_spellings_cons.mpr ⟨_, self_mem_spell _, _, ih, rfl⟩
  | dotted _ ih => exact mem_spellings_cons.mpr ⟨[0xC4, 0xB0], by decide, _, ih, rfl⟩
  | kelvin _ ih => exact mem_spellings_cons.mpr ⟨[0xE2, 0x84, 0xAA], by decide, _, ih, rfl⟩

/-- What folds to an ASCII text, up to ASCII case, is in the list. -/
theorem folds_iff_spellings {s t : Bytes} (ht : ∀ b ∈ t, b < 0x80) :
    Folds s t ↔ s.map asciiLower ∈ spellings t := by
  refine ⟨Folds.mem_spellings, fun h => ?_⟩
  induction t generalizing s with
  | nil =>
    rw [spellings, List.mem_singleton, List.map_eq_nil_iff] at h
    subst h
    exact .nil
  | cons c t ih =>
    obtain ⟨hc, ht⟩ := List.forall_mem_cons.mp ht
    obtain ⟨w, hw, u, hu, hs⟩ := mem_spellings_cons.mp h
    obtain ⟨s₁, s₂, rfl, hs₁, rfl⟩ := List.map_eq_append_iff.mp hs.symm
    have hfold := ih ht hu
    have hself : s₁.map asciiLower = [c] → Folds (s₁ ++ s₂) (c :: t) := by
      intro hone
      obtain ⟨b, rfl, rfl⟩ := List.map_eq_singleton_iff.mp hone
      exact .ascii (asciiLower_lt.mp hc) hfold
    rw [← hs₁] at hw
    unfold spell at hw
    split at hw
    · next hi =>
      subst hi
      rcases List.mem_pair.mp hw with hw | hw
      · exact hself hw
      · rw [eq_of_map_asciiLower (by decide) hw]
        exact .dotted hfold
    · split at hw
      · next hk =>
        subst hk
        rcases List.mem_pair.mp hw with hw | hw
        · exact hself hw
        · rw [eq_of_map_asciiLower (by decide) hw]
          exact .kelvin hfold
      · exact hself (List.mem_singleton.mp hw)

end Zap.Data
