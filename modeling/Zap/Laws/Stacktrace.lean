import Mathlib.Algebra.Order.BigOperators.Group.List
import Mathlib.Algebra.Order.Group.Nat
import Zap.Data.Ownership
import Zap.Internal.Stacktrace

/-!
# Captures are complete

`runtime.Callers` does not say whether it left something out, and the loop of `Capture` takes a
result that fills its room for one that may be cut short. It ends because the room is doubled, and so
because there is some to begin with: storages are never empty, whatever was captured and freed
before. Then a full capture has all of the call stack from where it was told to start
(`capture_complete`), unless the number of frames to skip is one of the two largest there are: then
the sum that says where to start wraps, and nothing is skipped (`capture_wraps`).
-/

set_option autoImplicit false

namespace Zap.Internal

open Data

/-! ## `runtime.Callers` -/

section Callers

variable {stack pcs : List Nat} {skip : Int}

theorem beyond_length_le : (beyond stack skip).length ≤ stack.length := by
  simp only [beyond, List.length_drop]
  omega

theorem runtimeCallers_length (stack : List Nat) (skip : Int) (pcs : List Nat) :
    (runtimeCallers stack skip pcs).2.length = pcs.length := by
  simp only [runtimeCallers, List.length_append, List.length_drop, List.length_take]
  omega

/-- The first `numFrames` counters in `pcs` are as many of the call stack as there is room for. -/
structure Called (stack : List Nat) (skip : Int) (pcs : List Nat) (numFrames : Nat) : Prop where
  count : numFrames = ((beyond stack skip).take pcs.length).length
  taken : pcs.take numFrames = (beyond stack skip).take pcs.length

theorem runtimeCallers_called (stack : List Nat) (skip : Int) (pcs : List Nat) :
    Called stack skip (runtimeCallers stack skip pcs).2 (runtimeCallers stack skip pcs).1 where
  count := by
    rw [runtimeCallers_length]
    rfl
  taken := by
    rw [runtimeCallers_length]
    exact List.take_left

variable {numFrames : Nat}

/-- There is room left just where the call stack is shorter. -/
theorem Called.room_iff (h : Called stack skip pcs numFrames) :
    numFrames ≠ pcs.length ↔ (beyond stack skip).length < pcs.length := by
  rw [h.count, List.length_take]
  omega

/-- Where there is room left, nothing was left out. -/
theorem Called.eq_beyond (h : Called stack skip pcs numFrames) (hroom : numFrames ≠ pcs.length) :
    pcs.take numFrames = beyond stack skip ∧ numFrames = (beyond stack skip).length := by
  have hall : (beyond stack skip).take pcs.length = beyond stack skip :=
    List.take_of_length_le (Nat.le_of_lt (h.room_iff.mp hroom))
  exact ⟨h.taken.trans hall, h.count.trans (congrArg List.length hall)⟩

end Callers

/-! ## The loop -/

/-- With some room to begin with the loop ends, with room left. -/
theorem grow_complete {stack : List Nat} {skip : Int} (fuel : Nat) {pcs : List Nat} {numFrames : Nat}
    (h : Called stack skip pcs numFrames) (hpcs : 0 < pcs.length)
    (hfuel : (beyond stack skip).length < fuel + pcs.length) :
    ∃ pcs' n, grow stack skip fuel pcs numFrames = some (pcs', n) ∧ Called stack skip pcs' n ∧
      n ≠ pcs'.length := by
  induction fuel generalizing pcs numFrames with
  | zero =>
    have hroom : numFrames ≠ pcs.length := h.room_iff.mpr (by omega)
    exact ⟨pcs, numFrames, by rw [grow, if_neg hroom], h, hroom⟩
  | succ fuel ih =>
    by_cases hroom : numFrames = pcs.length
    · -- Twice the room is at least one more, which makes up for the iteration.
      have hlength : (runtimeCallers stack skip (List.replicate (pcs.length * 2) 0)).2.length =
          pcs.length * 2 := by
        rw [runtimeCallers_length, List.length_replicate]
      obtain ⟨pcs', n, hgrow, hdone⟩ := ih (runtimeCallers_called stack skip _)
        (by rw [hlength]; omega) (by rw [hlength]; omega)
      exact ⟨pcs', n, by rw [grow, if_pos hroom]; exact hgrow, hdone⟩
    · exact ⟨pcs, numFrames, by rw [grow, if_neg hroom], h, hroom⟩

/-! ## One capture -/

/-- The call stack from a place on, or its first counter. -/
def upTo (stack : List Nat) (start : Int) : Depth → List Nat
  | .first => (beyond stack start).take 1
  | .full => beyond stack start

/-- What a capture is for: the call stack beyond `skip` frames, the one of `Capture` and the one of
`runtime.Callers`. -/
def wanted (stack : List Nat) (skip : Int64) (depth : Depth) : List Nat :=
  upTo stack (skip.toInt + 2) depth

/-- What a capture finds. The place to start is computed in machine arithmetic. -/
def found (stack : List Nat) (skip : Int64) (depth : Depth) : List Nat :=
  upTo stack (skip + 2).toInt depth

theorem found_eq_wanted {skip : Int64} (h : skip.toInt + 2 < 2 ^ 63) (stack : List Nat) (depth : Depth) :
    found stack skip depth = wanted stack skip depth := by
  have hlow := skip.le_toInt
  have hsum : (skip + 2).toInt = skip.toInt + 2 := by
    rw [Int64.toInt_add, show (2 : Int64).toInt = 2 from rfl]
    exact Int.bmod_eq_of_le_mul_two (by omega) (by omega)
  rw [found, wanted, hsum]

/-- The stack has the counters that were wanted. -/
structure Stack.Has (st : Stack) (counters : List Nat) : Prop where
  pcs : st.pcs = counters
  count : st.count = counters.length

/-- With some room to begin with a capture returns, and leaves some. -/
theorem Stack.capture_has {st : Stack} (hst : 0 < st.storage.length) {fuel : Nat} {stack : List Nat}
    (hfuel : stack.length ≤ fuel) (skip : Int64) (depth : Depth) :
    ∃ st', st.capture fuel stack skip depth = .ok st' ∧ st'.Has (found stack skip depth) ∧
      0 < st'.storage.length := by
  cases depth with
  | first =>
    have hone : (st.storage.take 1).length = 1 := by
      rw [List.length_take]
      omega
    have hlength := runtimeCallers_length stack (skip + 2).toInt (st.storage.take 1)
    have hcalled := runtimeCallers_called stack (skip + 2).toInt (st.storage.take 1)
    cases hcall : runtimeCallers stack (skip + 2).toInt (st.storage.take 1) with
    | mk n pcs =>
      rw [hcall] at hlength hcalled
      obtain ⟨hcount, htaken⟩ := hcalled
      rw [hlength, hone] at hcount htaken
      dsimp only at hlength hcount htaken
      refine ⟨⟨pcs ++ st.storage.drop 1, n⟩, ?_, ⟨?_, hcount⟩, ?_⟩
      · simp only [Stack.capture, if_neg (Nat.not_lt.mpr hst), hcall]
      · have hle : n ≤ pcs.length := by
          rw [hcount, hlength, hone]
          exact List.length_take_le _ _
        exact (List.take_append_of_le_length hle).trans htaken
      · rw [List.length_append, hlength, hone]
        omega
  | full =>
    have hlength := runtimeCallers_length stack (skip + 2).toInt st.storage
    have hbound : (beyond stack (skip + 2).toInt).length ≤ stack.length := beyond_length_le
    obtain ⟨pcs, n, hgrow, hcalled, hroom⟩ :=
      grow_complete fuel (runtimeCallers_called stack (skip + 2).toInt st.storage) (by omega) (by omega)
    obtain ⟨htaken, hcount⟩ := hcalled.eq_beyond hroom
    refine ⟨⟨pcs, n⟩, ?_, ⟨htaken, hcount⟩, Nat.zero_lt_of_lt (hcalled.room_iff.mp hroom)⟩
    simp only [Stack.capture, hgrow]

/-- The stack that a pool gives. -/
def taken (pick : Nat) (p : Pool Stack) : Stack :=
  (p.get pick newStack).2.object (p.get pick newStack).1

/-- A capture changes the stack that the pool gives, and no other. -/
theorem capture_has {p : Pool Stack} {pick : Nat} (hp : 0 < (taken pick p).storage.length) {fuel : Nat}
    {stack : List Nat} (hfuel : stack.length ≤ fuel) (skip : Int64) (depth : Depth) :
    ∃ st, capture fuel stack skip depth pick p =
        .ok ((p.get pick newStack).1, (p.get pick newStack).2.set (p.get pick newStack).1 st) ∧
      st.Has (found stack skip depth) ∧ 0 < st.storage.length := by
  obtain ⟨st, hst, hhas⟩ := Stack.capture_has hp hfuel skip depth
  refine ⟨st, ?_, hhas⟩
  rw [taken] at hst
  simp only [capture, hst]

/-! ## Sequences of calls -/

/-- Each stack has some room. -/
def Roomy (p : Pool Stack) : Prop := ∀ r, 0 < (p.object r).storage.length

theorem Roomy.get {p : Pool Stack} (h : Roomy p) (pick : Nat) : Roomy (p.get pick newStack).2 := by
  obtain ⟨r, -, heq⟩ | heq := p.get_cases pick newStack
  · rw [heq]
    exact h
  · intro r
    rw [heq]
    by_cases hr : r = (p.alloc newStack).1
    · rw [hr, Pool.object_alloc_self]
      decide
    · rw [Pool.object_alloc_of_ne p newStack hr]
      exact h r

theorem Roomy.set {p : Pool Stack} (h : Roomy p) (r : Nat) {st : Stack} (hst : 0 < st.storage.length) :
    Roomy (p.set r st) := by
  intro x
  by_cases hx : x = r
  · rw [hx, Pool.object_set_self]
    exact hst
  · rw [Pool.object_set_of_ne p st hx]
    exact h x

theorem Roomy.free {p : Pool Stack} (h : Roomy p) (r : Nat) : Roomy (Internal.free r p) := by
  have hset : Roomy (p.set r { p.object r with count := 0 }) := h.set r (h r)
  exact hset

/-- The depth of the call stack that a call finds. -/
def StackCall.height : StackCall → Nat
  | .capture stack _ _ _ => stack.length
  | .free _ => 0

theorem StackCall.run_capture {fuel : Nat} {stack : List Nat} {skip : Int64} {depth : Depth} {pick : Nat}
    {s : Captures} {r : Nat} {pool : Pool Stack}
    (h : Internal.capture fuel stack skip depth pick s.pool = .ok (r, pool)) :
    (StackCall.capture stack skip depth pick).run fuel s = .ok ⟨pool, s.taken ++ [r]⟩ := by
  simp only [StackCall.run, h]

theorem StackCall.run_free {fuel i : Nat} {s : Captures} {r : Nat} (h : s.taken[i]? = some r) :
    (StackCall.free i).run fuel s = .ok ⟨Internal.free r s.pool, s.taken⟩ := by
  simp only [StackCall.run, h]

theorem StackCall.run_roomy {call : StackCall} {fuel : Nat} (hfuel : call.height ≤ fuel) {s : Captures}
    (hs : Roomy s.pool) : ∃ s', call.run fuel s = .ok s' ∧ Roomy s'.pool := by
  cases call with
  | capture stack skip depth pick =>
    obtain ⟨st, hcapture, -, hst⟩ := capture_has (hs.get pick _) hfuel skip depth
    exact ⟨_, StackCall.run_capture hcapture, (hs.get pick).set _ hst⟩
  | free i =>
    cases hi : s.taken[i]? with
    | none => exact ⟨s, by simp only [StackCall.run, hi], hs⟩
    | some r => exact ⟨_, StackCall.run_free hi, hs.free r⟩

/-- Each call returns, and leaves some room in each stack, also in one that was freed twice. -/
theorem Captures.run_roomy {calls : List StackCall} {fuel : Nat}
    (hfuel : ∀ call ∈ calls, call.height ≤ fuel) {s : Captures} (hs : Roomy s.pool) :
    ∃ s', s.run fuel calls = .ok s' ∧ Roomy s'.pool := by
  induction calls generalizing s with
  | nil => exact ⟨s, rfl, hs⟩
  | cons call calls ih =>
    obtain ⟨hcall, hcalls⟩ := List.forall_mem_cons.mp hfuel
    obtain ⟨s', hrun, hs'⟩ := StackCall.run_roomy hcall hs
    obtain ⟨s'', hrest, hs''⟩ := ih hcalls hs'
    exact ⟨s'', by simp only [Captures.run, hrun, hrest], hs''⟩

/-- After any calls a capture returns, with what it finds. -/
theorem capture_found (calls : List StackCall) (stack : List Nat) (skip : Int64) (depth : Depth)
    (pick : Nat) :
    ∃ bound, ∀ fuel, bound ≤ fuel → ∃ s, Captures.start.run fuel calls = .ok s ∧
      0 < (taken pick s.pool).storage.length ∧
      ∃ r pool, capture fuel stack skip depth pick s.pool = .ok (r, pool) ∧
        (pool.object r).Has (found stack skip depth) := by
  refine ⟨(calls.map StackCall.height).sum + stack.length, fun fuel hfuel => ?_⟩
  have hheight : ∀ call ∈ calls, call.height ≤ fuel := by
    intro call hcall
    have hsum : call.height ≤ (calls.map StackCall.height).sum :=
      List.le_sum_of_mem (List.mem_map_of_mem hcall)
    omega
  have hnew : 0 < newStack.storage.length := by decide
  have hstart : Roomy Captures.start.pool := fun _ => hnew
  obtain ⟨s, hrun, hs⟩ := Captures.run_roomy hheight hstart
  obtain ⟨st, hcapture, hhas, -⟩ := capture_has (hs.get pick _) (by omega : stack.length ≤ fuel) skip depth
  refine ⟨s, hrun, hs.get pick _, _, _, hcapture, ?_⟩
  rwa [Pool.object_set_self]

/-- After any calls, the stack that the pool gives has some room. A capture returns, and the stack has
the whole call stack from where it was told to start, or the first counter of that; the two largest
numbers of frames to skip are left out. -/
theorem capture_complete (calls : List StackCall) (stack : List Nat) (skip : Int64) (depth : Depth)
    (pick : Nat) (hskip : skip.toInt + 2 < 2 ^ 63) :
    ∃ bound, ∀ fuel, bound ≤ fuel → ∃ s, Captures.start.run fuel calls = .ok s ∧
      0 < (taken pick s.pool).storage.length ∧
      ∃ r pool, capture fuel stack skip depth pick s.pool = .ok (r, pool) ∧
        (pool.object r).Has (wanted stack skip depth) := by
  rw [← found_eq_wanted hskip]
  exact capture_found calls stack skip depth pick

/-- A full capture of a stack of three, from its third frame on, after a capture of its first frame
that was freed. -/
theorem capture_complete_third :
    ∃ fuel s, Captures.start.run fuel [.capture [7, 8, 9] 0 .first 0, .free 0] = .ok s ∧
      ∃ r pool, capture fuel [7, 8, 9] 0 .full 0 s.pool = .ok (r, pool) ∧
        (pool.object r).Has [9] := by
  obtain ⟨bound, h⟩ := capture_complete [.capture [7, 8, 9] 0 .first 0, .free 0] [7, 8, 9] 0 .full 0
    (by decide)
  obtain ⟨s, hrun, -, hcapture⟩ := h bound (Nat.le_refl bound)
  exact ⟨bound, s, hrun, hcapture⟩

/-- The largest number of frames to skip is more than the call stack has, and all of it is captured. -/
theorem capture_wraps :
    wanted [7, 8, 9] Int64.maxValue .full = [] ∧
      ∃ r pool, capture 1 [7, 8, 9] Int64.maxValue .full 0 Captures.start.pool = .ok (r, pool) ∧
        (pool.object r).Has [7, 8, 9] := by
  refine ⟨by decide, 0, _, rfl, ?_, ?_⟩
  · rfl
  · rfl

end Zap.Internal
