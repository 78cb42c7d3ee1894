import Mathlib.Order.Bounds.Basic
import Zap.Zapcore.WriteSyncer

/-!
# What a multi-writer returns

`multiWriteSyncer.Write` calls every writer and combines what they answer. Its errors are all of
theirs. Its count begins with zero, and zero also stands for "no count yet", so a writer that wrote
nothing is forgotten as soon as a later one wrote something: `multiWrite_least_iff` says when the
count is the smallest one.
-/

set_option autoImplicit false

namespace Zap.Zapcore

open Data

/-! ## The running count -/

theorem countWritten_eq_or (a n : Int) : countWritten a n = a ∨ countWritten a n = n := by
  unfold countWritten
  split
  · exact .inr rfl
  split
  · exact .inr rfl
  · exact .inl rfl

/-- Behind a positive count, the running count is a minimum. -/
theorem countWritten_pos {a : Int} (ha : 0 < a) (n : Int) : countWritten a n = min a n := by
  unfold countWritten
  rw [if_neg (by omega)]
  split <;> omega

theorem countWritten_zero_right {a : Int} (ha : 0 ≤ a) : countWritten a 0 = 0 := by
  unfold countWritten
  rw [if_neg (by omega)]
  split <;> omega

/-- After a writer that wrote something, the count is not zero. -/
theorem countWritten_ne_zero (a : Int) {n : Int} (hn : n ≠ 0) : countWritten a n ≠ 0 := by
  unfold countWritten
  split
  · exact hn
  split <;> omega

theorem foldl_countWritten_mem (ns : List Int) (a : Int) :
    ns.foldl countWritten a = a ∨ ns.foldl countWritten a ∈ ns := by
  induction ns generalizing a with
  | nil => exact .inl rfl
  | cons n ns ih =>
    rw [List.foldl_cons]
    obtain h | h := ih (countWritten a n)
    · rw [h]
      refine (countWritten_eq_or a n).imp_right fun hn => ?_
      rw [hn]
      exact List.mem_cons_self
    · exact .inr (List.mem_cons_of_mem n h)

/-- While no count is zero, the running count is a lower bound. -/
theorem foldl_countWritten_le {ns : List Int} (hns : ∀ n ∈ ns, 0 < n) {a : Int} (ha : 0 < a) :
    ns.foldl countWritten a ≤ a ∧ ∀ n ∈ ns, ns.foldl countWritten a ≤ n := by
  induction ns generalizing a with
  | nil => exact ⟨Int.le_refl a, fun n hn => absurd hn List.not_mem_nil⟩
  | cons n ns ih =>
    obtain ⟨hn, hns⟩ := List.forall_mem_cons.mp hns
    rw [List.foldl_cons, countWritten_pos ha]
    obtain ⟨hle, hall⟩ := ih hns (lt_min ha hn)
    refine ⟨hle.trans (min_le_left a n), List.forall_mem_cons.mpr ⟨?_, hall⟩⟩
    exact hle.trans (min_le_right a n)

theorem foldl_countWritten_nonneg {ns : List Int} (hns : ∀ n ∈ ns, 0 ≤ n) :
    0 ≤ ns.foldl countWritten 0 := by
  obtain h | h := foldl_countWritten_mem ns 0
  · exact h.ge
  · exact hns _ h

/-- The first count is taken as it is, and the others are compared with it. -/
theorem isLeast_countWritten {n : Int} {ns : List Int} (hn : 0 < n) (hns : ∀ m ∈ ns, 0 < m) :
    IsLeast {m | m ∈ n :: ns} ((n :: ns).foldl countWritten 0) := by
  have hfirst : countWritten 0 n = n := by
    unfold countWritten
    rw [if_pos ⟨rfl, hn.ne'⟩]
  rw [List.foldl_cons, hfirst]
  obtain ⟨hle, hall⟩ := foldl_countWritten_le hns hn
  refine ⟨?_, List.forall_mem_cons.mpr ⟨hle, hall⟩⟩
  exact (foldl_countWritten_mem ns n).elim (fun h => List.mem_cons.mpr (.inl h))
    (List.mem_cons_of_mem n)

/-- A list of counts gives the least of them if none is zero or the last one is, and only then. -/
theorem isLeast_countWritten_iff {ns : List Int} (hne : ns ≠ []) (hns : ∀ n ∈ ns, 0 ≤ n) :
    IsLeast {n | n ∈ ns} (ns.foldl countWritten 0) ↔
      (∀ n ∈ ns, n ≠ 0) ∨ ns.getLast? = some 0 := by
  constructor
  · rintro ⟨-, hlow⟩
    -- a count of zero that is not the last one is lost with the last one
    by_contra hcon
    simp only [not_or, not_forall, not_not] at hcon
    obtain ⟨⟨n, hn, rfl⟩, hnot⟩ := hcon
    obtain ⟨init, last, rfl⟩ : ∃ init last, ns = init ++ [last] :=
      ⟨ns.dropLast, ns.getLast hne, (List.dropLast_concat_getLast hne).symm⟩
    rw [List.getLast?_concat, Option.some_inj] at hnot
    have hle := hlow hn
    have hge := foldl_countWritten_nonneg hns
    rw [List.foldl_concat] at hle hge
    exact countWritten_ne_zero _ hnot (le_antisymm hle hge)
  · rintro (hpos | hzero)
    · cases ns with
      | nil => exact absurd rfl hne
      | cons n ns =>
        have hpos' : ∀ m ∈ n :: ns, 0 < m := fun m hm => lt_of_le_of_ne (hns m hm) (hpos m hm).symm
        rw [List.forall_mem_cons] at hpos'
        exact isLeast_countWritten hpos'.1 hpos'.2
    · obtain ⟨init, rfl⟩ := List.getLast?_eq_some_iff.mp hzero
      have hinit := foldl_countWritten_nonneg (List.forall_mem_append.mp hns).1
      rw [List.foldl_concat, countWritten_zero_right hinit]
      exact ⟨List.mem_append_right _ (List.mem_singleton.mpr rfl), hns⟩

namespace Syncer

/-! ## The calls -/

section

variable [Devices]

/-- Each of `ws` is called once, in order, with `p`, and `answers` is what they return. -/
inductive EachWrites (p : Bytes) :
    List Syncer → List DeviceEvent → List Written → List DeviceEvent → Prop where
  | nil (tr : List DeviceEvent) : EachWrites p [] tr [] tr
  | cons {w : Syncer} {ws : List Syncer} {tr tr₁ tr₂ : List DeviceEvent}
      {answer : Written} {answers : List Written} (call : w.write p tr = (answer, tr₁))
      (rest : EachWrites p ws tr₁ answers tr₂) :
      EachWrites p (w :: ws) tr (answer :: answers) tr₂

/-- The loop calls each writer once, and folds the counts and joins the errors it gets. -/
theorem writeAll_spec (p : Bytes) (ws : List Syncer) (n : Int) (errs : List Bytes)
    (tr : List DeviceEvent) :
    ∃ answers tr', EachWrites p ws tr answers tr' ∧
      writeAll ws p n errs tr =
        (((answers.map Prod.fst).foldl countWritten n, errs ++ answers.flatMap Prod.snd), tr') := by
  induction ws generalizing n errs tr with
  | nil => exact ⟨[], tr, .nil tr, by simp [writeAll]⟩
  | cons w ws ih =>
    obtain ⟨answers, tr', hcalls, hrest⟩ :=
      ih (countWritten n (w.write p tr).1.1) (errs ++ (w.write p tr).1.2) (w.write p tr).2
    refine ⟨(w.write p tr).1 :: answers, tr', .cons rfl hcalls, ?_⟩
    rw [writeAll]
    simp only [hrest, List.map_cons, List.foldl_cons, List.flatMap_cons, List.append_assoc]

mutual
/-- The devices that a write reaches, in order. -/
def devices : Syncer → List Nat
  | .device id => [id]
  | .writerWrapper id => [id]
  | .locked ws => ws.devices
  | .multi ws => devicesAll ws
def devicesAll : List Syncer → List Nat
  | [] => []
  | w :: ws => w.devices ++ devicesAll ws
end

mutual
/-- A write reaches each device under a syncer once, with the bytes it was given. -/
theorem write_trace (p : Bytes) : ∀ (w : Syncer) (tr : List DeviceEvent),
    (w.write p tr).2 = tr ++ w.devices.map (.write · p)
  | .device _, _ => rfl
  | .writerWrapper _, _ => rfl
  | .locked ws, tr => write_trace p ws tr
  | .multi ws, tr => writeAll_trace p ws 0 [] tr
theorem writeAll_trace (p : Bytes) : ∀ (ws : List Syncer) (n : Int) (errs : List Bytes)
    (tr : List DeviceEvent),
    (writeAll ws p n errs tr).2 = tr ++ (devicesAll ws).map (.write · p)
  | [], _, _, tr => by simp [writeAll, devicesAll]
  | w :: ws, n, errs, tr => by
    rw [writeAll]
    simp only [writeAll_trace p ws, write_trace p w, devicesAll, List.map_append,
      List.append_assoc]
end

/-- `Write` of a multi-writer calls each writer once with its argument, in order. It returns the
smallest count iff no count is zero or the last one is, and an error iff a writer has failed, which
holds the errors of all of them. -/
theorem multiWrite_least_iff (ws : List Syncer) (hne : ws ≠ []) (p : Bytes)
    (tr : List DeviceEvent) :
    ∃ n errs tr' answers, (Syncer.multi ws).write p tr = ((n, errs), tr') ∧
      EachWrites p ws tr answers tr' ∧
      tr' = tr ++ (devicesAll ws).map (.write · p) ∧
      ((∀ a ∈ answers, 0 ≤ a.1 ∧ a.1 ≤ p.length) →
        (IsLeast {m | m ∈ answers.map Prod.fst} n ↔
          (∀ a ∈ answers, a.1 ≠ 0) ∨ (answers.map Prod.fst).getLast? = some 0)) ∧
      (errs ≠ [] ↔ ∃ a ∈ answers, a.2 ≠ []) ∧
      ∀ a ∈ answers, ∀ err ∈ a.2, err ∈ errs := by
  obtain ⟨answers, tr', hcalls, hwrite⟩ := writeAll_spec p ws 0 [] tr
  have htrace := writeAll_trace p ws 0 [] tr
  rw [hwrite] at htrace
  refine ⟨_, _, tr', answers, hwrite, hcalls, htrace, ?_, ?_, ?_⟩
  · intro hcounts
    have hanswers : answers.map Prod.fst ≠ [] := by
      cases hcalls with
      | nil => exact absurd rfl hne
      | cons call rest => exact List.cons_ne_nil _ _
    rw [isLeast_countWritten_iff hanswers]
    · simp only [List.forall_mem_map]
    · exact List.forall_mem_map.mpr fun a ha => (hcounts a ha).1
  · simp [List.flatMap_eq_nil_iff]
  · intro a ha err herr
    exact List.mem_append_right _ (List.mem_flatMap.mpr ⟨a, ha, herr⟩)

end

/-- Devices that give the same answer every time. -/
abbrev steady (answer : Nat → Int × Option Bytes) : Devices where
  write _ id _ := answer id
  sync _ _ := none

/-- Two writers of five bytes, of which one takes three and the other two. -/
theorem multiWrite_least_short :
    let _ : Devices := steady fun id => (if id = 0 then 3 else 2, none)
    ∃ answers tr', EachWrites (utf8 "hello") [.device 0, .device 1] [] answers tr' ∧
      IsLeast {m | m ∈ answers.map Prod.fst}
        ((multi [.device 0, .device 1]).write (utf8 "hello") []).1.1 := by
  intro _
  obtain ⟨n, errs, tr', answers, hwrite, hcalls, -, hleast, -⟩ :=
    multiWrite_least_iff [.device 0, .device 1] (by simp) (utf8 "hello") []
  have hanswers : answers = [(3, []), (2, [])] := by
    cases hcalls with
    | cons hfirst hrest =>
      cases hrest with
      | cons hsecond hnone =>
        cases hnone
        cases hfirst
        cases hsecond
        rfl
  refine ⟨answers, tr', hcalls, ?_⟩
  rw [hwrite]
  refine (hleast ?_).mpr (.inl ?_)
  · rw [hanswers]
    decide
  · rw [hanswers]
    decide

/-- A writer that fails and takes nothing, before one that takes all. -/
theorem multiWrite_forgets_zero :
    let _ : Devices := steady fun id => if id = 0 then (0, some (utf8 "disk full")) else (5, none)
    ∃ answers tr', EachWrites (utf8 "hello") [.device 0, .device 1] [] answers tr' ∧
      answers.map Prod.fst = [0, 5] ∧
      ((multi [.device 0, .device 1]).write (utf8 "hello") []).1.1 = 5 ∧
      ¬ IsLeast {m | m ∈ answers.map Prod.fst}
        ((multi [.device 0, .device 1]).write (utf8 "hello") []).1.1 := by
  intro _
  refine ⟨_, _, .cons rfl (.cons rfl (.nil _)), rfl, rfl, fun hleast => ?_⟩
  have hle : (5 : Int) ≤ 0 := hleast.2 List.mem_cons_self
  exact absurd hle (by decide)

end Syncer

end Zap.Zapcore
