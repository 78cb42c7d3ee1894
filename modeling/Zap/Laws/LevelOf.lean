import Zap.Laws.Cores
import Zap.Zapcore.LevelOf

/-!
# What `LevelOf` reports

`LevelOf` should report the least supported level that is enabled, and `InvalidLevel` where none
is (`Reports`). The loop does. Two things are true of every core (`Bounds`): no enabled level is
below the report, and a report below `FatalLevel` is an enabled level. They are what the minimum
over a tee preserves, and they settle the matter as soon as some level is enabled.

A tee in which nothing is enabled reports `FatalLevel`, because its loop starts there. Hooks and
samplers pass that on, and everything else hides it (`levelOf_reports_iff`).
-/

set_option autoImplicit false

namespace Zap.Zapcore

variable {E F : Type} {b : Bool}

namespace Level

/-- A level of the loop of `LevelOf`. -/
def Supported (l : Level) : Prop := min ≤ l ∧ l ≤ max

theorem mem_supported {l : Level} : l ∈ supported ↔ l.Supported := by
  constructor
  · intro h
    simp only [supported, List.mem_cons, List.not_mem_nil, or_false] at h
    rcases h with rfl | rfl | rfl | rfl | rfl | rfl | rfl
    all_goals exact ⟨by decide, by decide⟩
  · rintro ⟨hmin, hmax⟩
    have hlow : -1 ≤ l.toInt := Int8.le_iff_toInt_le.mp hmin
    have hhigh : l.toInt ≤ 5 := Int8.le_iff_toInt_le.mp hmax
    have hcases : l.toInt = -1 ∨ l.toInt = 0 ∨ l.toInt = 1 ∨ l.toInt = 2 ∨ l.toInt = 3 ∨
        l.toInt = 4 ∨ l.toInt = 5 := by omega
    simp only [supported, List.mem_cons, List.not_mem_nil, or_false, ← Int8.toInt_inj]
    exact hcases

/-- The levels of the loop, from one on: none is smaller than the first. -/
theorem supported_sorted : supported.Pairwise fun l l' => l < l' := by
  decide

/-- `l` is the least supported level that is enabled, or `InvalidLevel` if there is none. -/
def Reports (enabled : Level → Bool) (l : Level) : Prop :=
  (l.Supported ∧ enabled l = true ∧ ∀ l', l'.Supported → enabled l' = true → l ≤ l') ∨
    (l = invalid ∧ ∀ l', l'.Supported → enabled l' = false)

/-- The loop reports what it should. -/
theorem firstEnabled_reports (enabled : Level → Bool) : Reports enabled (firstEnabled enabled) := by
  unfold firstEnabled
  cases hfind : supported.find? enabled with
  | none =>
    refine .inr ⟨rfl, fun l hl => ?_⟩
    exact Bool.not_eq_true _ ▸ List.find?_eq_none.mp hfind l (mem_supported.mpr hl)
  | some l =>
    obtain ⟨hl, before, after, hsplit, hbefore⟩ := List.find?_eq_some_iff_append.mp hfind
    have hmem : l ∈ supported := List.mem_of_find?_eq_some hfind
    have hsorted := hsplit ▸ supported_sorted
    refine .inl ⟨mem_supported.mp hmem, hl, fun l' hl' hon => ?_⟩
    rcases List.mem_append.mp (hsplit ▸ mem_supported.mpr hl') with h | h
    · exact absurd hon (by simpa using hbefore l' h)
    · rcases List.mem_cons.mp h with rfl | h
      · exact Int8.le_refl l'
      · exact Int8.le_of_lt ((List.pairwise_cons.mp (List.pairwise_append.mp hsorted).2.1).1 l' h)

/-- Where nothing is enabled, `InvalidLevel` is to be reported. -/
theorem Reports.eq_invalid {enabled : Level → Bool} {l : Level} (h : Reports enabled l)
    (hoff : ∀ l', l'.Supported → enabled l' = false) : l = invalid := by
  rcases h with ⟨hl, hon, _⟩ | ⟨hl, _⟩
  · exact absurd hon (by simp [hoff l hl])
  · exact hl

end Level

namespace Core

/-! ## What holds of every core -/

/-- No enabled level is below what `LevelOf` reports, and what it reports below `FatalLevel` is
enabled. -/
structure Bounds (enabled : Level → Bool) (l : Level) : Prop where
  least : ∀ l', l'.Supported → enabled l' = true → l ≤ l'
  real : l < Level.max → l.Supported ∧ enabled l = true

theorem Bounds.of_reports {enabled : Level → Bool} {l : Level} (h : Level.Reports enabled l) :
    Bounds enabled l := by
  rcases h with ⟨hl, hon, hleast⟩ | ⟨rfl, hoff⟩
  · exact ⟨hleast, fun _ => ⟨hl, hon⟩⟩
  · exact ⟨fun l' hl' hon => absurd hon (by simp [hoff l' hl']), fun h => absurd h (by decide)⟩

/-- With some level enabled, the bounds say what is reported. -/
theorem Bounds.reports {enabled : Level → Bool} {l : Level} (h : Bounds enabled l)
    (hon : ∃ l', l'.Supported ∧ enabled l' = true) : Level.Reports enabled l := by
  obtain ⟨l', hl', henabled⟩ := hon
  left
  by_cases hlt : l < Level.max
  · exact ⟨(h.real hlt).1, (h.real hlt).2, h.least⟩
  · -- Nothing is left but `FatalLevel`, for the report and for the level that is enabled.
    have hmax : Level.max ≤ l := Int8.not_lt.mp hlt
    have hle := h.least l' hl' henabled
    have heq : l' = Level.max := Int8.le_antisymm hl'.2 (Int8.le_trans hmax hle)
    have hl : l = Level.max := Int8.le_antisymm (Int8.le_trans hle hl'.2) hmax
    subst heq hl
    exact ⟨hl', henabled, h.least⟩

/-- The smallest of three levels does not depend on the order. -/
theorem smaller_swap (x l m : Level) :
    (if x < (if l < m then l else m) then x else if l < m then l else m) =
      if l < (if x < m then x else m) then l else if x < m then x else m := by
  by_cases hl : l < m
  · by_cases hx : x < m
    · rw [if_pos hl, if_pos hx]
      by_cases hxl : x < l
      · rw [if_pos hxl, if_neg (Int8.lt_asymm hxl)]
      · rw [if_neg hxl]
        split
        · rfl
        · next hlx => exact Int8.le_antisymm (Int8.not_lt.mp hxl) (Int8.not_lt.mp hlx)
    · rw [if_pos hl, if_neg hx, if_pos hl, if_neg fun hxl => hx (Int8.lt_trans hxl hl)]
  · by_cases hx : x < m
    · rw [if_neg hl, if_pos hx, if_neg fun hlx => hl (Int8.lt_trans hlx hx)]
    · rw [if_neg hl, if_neg hx, if_neg hl]

/-- The loop of `multiCore.Level`, with the smaller of two levels to start from. -/
theorem minLevelOf_min (cores : List (Core E F b)) (l minLvl : Level) :
    minLevelOf cores (if l < minLvl then l else minLvl) =
      if l < minLevelOf cores minLvl then l else minLevelOf cores minLvl := by
  induction cores generalizing minLvl with
  | nil => rfl
  | cons core cores ih =>
    rw [minLevelOf, minLevelOf, smaller_swap, ih]

theorem levelOf_cons (core : Core E F b) (cores : List (Core E F b)) :
    (multi (core :: cores)).levelOf =
      if core.levelOf < (multi cores).levelOf then core.levelOf else (multi cores).levelOf :=
  minLevelOf_min cores core.levelOf Level.max

theorem levelOf_multi_le (cores : List (Core E F b)) : (multi cores).levelOf ≤ Level.max := by
  induction cores with
  | nil => exact Int8.le_refl _
  | cons core cores ih =>
    rw [levelOf_cons]
    split
    next h => exact Int8.le_trans (Int8.le_of_lt h) ih
    next => exact ih

theorem levelOf_bounds (core : Core E F b) : Bounds core.enabled core.levelOf := by
  induction core with
  | nop => exact .of_reports (Level.firstEnabled_reports _)
  | io core => exact .of_reports (Level.firstEnabled_reports core.level.enabled)
  | nil => exact ⟨fun _ _ h => Bool.noConfusion h, fun h => (Int8.lt_irrefl h).elim⟩
  | cons core cores ih ihs =>
    -- The report is the smaller one of the two, and a level is enabled if one of the two has it.
    rw [levelOf_cons]
    constructor
    · intro l hl hon
      rw [enabled_cons, Bool.or_eq_true] at hon
      rcases hon with hon | hon
      · have hle := ih.least l hl hon
        split
        next => exact hle
        next h => exact Int8.le_trans (Int8.not_lt.mp h) hle
      · have hle := ihs.least l hl hon
        split
        next h => exact Int8.le_trans (Int8.le_of_lt h) hle
        next => exact hle
    · split
      next =>
        intro hlt
        obtain ⟨hl, hon⟩ := ih.real hlt
        exact ⟨hl, by rw [enabled_cons, hon, Bool.true_or]⟩
      next =>
        intro hlt
        obtain ⟨hl, hon⟩ := ihs.real hlt
        exact ⟨hl, by rw [enabled_cons, hon, Bool.or_true]⟩
  | hooked core funcs ih => exact ih
  | levelFilter core level _ => exact .of_reports (Level.firstEnabled_reports level.enabled)
  | sampler core s ih => exact ih
  | lazyWith h ref original own _ => exact .of_reports (Level.firstEnabled_reports original.enabled)

/-! ## When the report is right -/

/-- Whether a core is a tee, if hooks and samplers around it are taken off. -/
def isTee : Core E F b → Bool
  | .multi _ => true
  | .hooked core _ => core.isTee
  | .sampler core _ => core.isTee
  | _ => false

/-- A tee never reports `InvalidLevel`. -/
theorem levelOf_le_of_isTee {core : Core E F b} (h : core.isTee = true) :
    core.levelOf ≤ Level.max := by
  induction core with
  | nop => cases h
  | io core => cases h
  | nil => exact levelOf_multi_le []
  | cons core cores _ _ => exact levelOf_multi_le (core :: cores)
  | hooked core funcs ih => exact ih h
  | levelFilter core level _ => cases h
  | sampler core s ih => exact ih h
  | lazyWith _ ref original own _ => cases h

/-- What is no tee reports what it should. -/
theorem levelOf_reports_of_not_isTee {core : Core E F b} (h : core.isTee = false) :
    Level.Reports core.enabled core.levelOf := by
  induction core with
  | nop => exact Level.firstEnabled_reports _
  | io core => exact Level.firstEnabled_reports core.level.enabled
  | nil => cases h
  | cons core cores _ _ => cases h
  | hooked core funcs ih => exact ih h
  | levelFilter core level _ => exact Level.firstEnabled_reports level.enabled
  | sampler core s ih => exact ih h
  | lazyWith _ ref original own _ => exact Level.firstEnabled_reports original.enabled

/-- `LevelOf` reports the least supported level that is enabled, or `InvalidLevel`, unless it is
asked about a tee in which nothing is enabled. -/
theorem levelOf_reports_iff (core : Core E F b) :
    Level.Reports core.enabled core.levelOf ↔
      core.isTee = false ∨ ∃ l, l.Supported ∧ core.enabled l = true := by
  constructor
  · intro hreports
    by_cases hon : ∃ l, l.Supported ∧ core.enabled l = true
    · exact .inr hon
    · left
      have hoff : ∀ l, l.Supported → core.enabled l = false := by simpa using hon
      have hinvalid := hreports.eq_invalid hoff
      cases htee : core.isTee with
      | false => rfl
      | true => exact absurd (hinvalid ▸ levelOf_le_of_isTee htee) (by decide)
  · rintro (htee | hon)
    · exact levelOf_reports_of_not_isTee htee
    · exact (levelOf_bounds core).reports hon

/-- Two no-op cores: nothing is enabled, and the tee of them reports `FatalLevel`. -/
theorem tee_reports_fatal :
    (newTee [newNopCore, newNopCore] : Core Unit Unit false).levelOf = Level.fatal ∧
      (∀ l, (newTee [newNopCore, newNopCore] : Core Unit Unit false).enabled l = false) ∧
      ¬ Level.Reports (newTee [newNopCore, newNopCore] : Core Unit Unit false).enabled
        (newTee [newNopCore, newNopCore] : Core Unit Unit false).levelOf := by
  have hoff : ∀ l, (newTee [newNopCore, newNopCore] : Core Unit Unit false).enabled l = false :=
    fun _ => rfl
  refine ⟨by decide, hoff, fun h => ?_⟩
  exact absurd (h.eq_invalid fun l _ => hoff l) (by decide)

end Core

end Zap.Zapcore
