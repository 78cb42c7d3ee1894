import Mathlib.Data.List.Count
import Zap.Zapcore.CounterSteps

/-!
# Concurrent calls of `IncCheckReset`

The calls of one window, in any interleaving of their atomic operations. A call is at one of five
points, and `Moves` says what its next operation does. Before the first compare-and-swap succeeds
nobody has a number. From then on the numbers that were handed out bound the counter: a late reset
takes the counter back to one, so that numbers are handed out again, but never skipped.
-/

set_option autoImplicit false

namespace Zap.Zapcore.CounterSteps

open Data

/-! ## Points of a call -/

/-- Where a call is: at its first operation, about to store, about to compare and swap, about to
add, or at its end. -/
inductive Point where
  | start
  | storing (resetAfter : Int64)
  | swapping (resetAfter : Int64)
  | adding
  | returned (n : UInt64)

section

variable (t : Time) (tick : Duration)

/-- What a call has yet to do. -/
def Point.code : Point → Code UInt64
  | .start => incCheckReset t tick
  | .storing resetAfter => .op (.storeCounter 1) fun _ =>
    .op (.compareAndSwapResetAt resetAfter (t.unixNano + tick)) fun swapped : Bool =>
      if !swapped then add 1 else .ret 1
  | .swapping resetAfter =>
    .op (.compareAndSwapResetAt resetAfter (t.unixNano + tick)) fun swapped : Bool =>
      if !swapped then add 1 else .ret 1
  | .adding => add 1
  | .returned n => .ret n

/-- What the next operation of a call does. -/
inductive Moves : Counter → Point → Counter → Point → Prop
  | passed {c : Counter} (h : t.unixNano < c.resetAt) : Moves c .start c .adding
  | due {c : Counter} (h : ¬ t.unixNano < c.resetAt) : Moves c .start c (.storing c.resetAt)
  | stored {c : Counter} {r : Int64} : Moves c (.storing r) { c with counter := 1 } (.swapping r)
  | won {c : Counter} {r : Int64} (h : c.resetAt = r) :
      Moves c (.swapping r) { c with resetAt := t.unixNano + tick } (.returned 1)
  | lost {c : Counter} {r : Int64} (h : c.resetAt ≠ r) : Moves c (.swapping r) c .adding
  | added {c : Counter} :
      Moves c .adding { c with counter := c.counter + 1 } (.returned (c.counter + 1))

end

/-- No operation of a counter is silent. -/
theorem settle_eq (p : Code UInt64) (c : Counter) : counterMachine.settle () p c = (p, c) := by
  cases p <;> rfl

variable {t : Time} {tick : Duration}

/-- The next operation of a call takes it to the next point. -/
theorem advance_code {p : Point} {o : CounterOp} {next : o.Res → Code UInt64}
    (hp : p.code t tick = .op o next) (c : Counter) :
    ∃ p', (counterMachine.advance () o next c).1 = p'.code t tick ∧
      Moves t tick c p (counterMachine.advance () o next c).2 p' := by
  rw [Machine.advance, settle_eq]
  cases p with
  | start =>
    cases hp
    by_cases hpassed : t.unixNano < c.resetAt
    · exact ⟨.adding, if_pos hpassed, .passed hpassed⟩
    · exact ⟨.storing c.resetAt, if_neg hpassed, .due hpassed⟩
  | storing r =>
    cases hp
    exact ⟨.swapping r, rfl, .stored⟩
  | swapping r =>
    cases hp
    let goOn (swapped : Bool) : Code UInt64 := if !swapped then add 1 else .ret 1
    by_cases hsame : c.resetAt = r
    · have hexec : counterMachine.exec () (.compareAndSwapResetAt r (t.unixNano + tick)) c =
          (true, { c with resetAt := t.unixNano + tick }) := if_pos hsame
      refine ⟨.returned 1, congrArg (fun x => goOn x.1) hexec, ?_⟩
      rw [congrArg Prod.snd hexec]
      exact .won hsame
    · have hexec : counterMachine.exec () (.compareAndSwapResetAt r (t.unixNano + tick)) c =
          (false, c) := if_neg hsame
      refine ⟨.adding, congrArg (fun x => goOn x.1) hexec, ?_⟩
      rw [congrArg Prod.snd hexec]
      exact .lost hsame
  | adding =>
    cases hp
    exact ⟨.returned (c.counter + 1), rfl, .added⟩
  | returned n => cases hp

/-- The calls are at the points `pts`. -/
def At (t : Time) (tick : Duration) (st : Threads Counter CounterOp CounterOp.Res UInt64)
    (pts : List Point) : Prop :=
  st.threads = pts.map (Point.code t tick)

/-- A step moves one call. -/
theorem At.step {st st' : Threads Counter CounterOp CounterOp.Res UInt64} {pts : List Point}
    (h : At t tick st pts) {i : Nat} (hstep : counterMachine.step () i st = some st') :
    ∃ pts₁ p p' pts₂, pts = pts₁ ++ p :: pts₂ ∧ At t tick st' (pts₁ ++ p' :: pts₂) ∧
      Moves t tick st.shared p st'.shared p' := by
  obtain ⟨l₁, o, next, l₂, _, hsplit, rfl⟩ := Machine.step_split hstep
  obtain ⟨pts₁, pts', rfl, rfl, hrest⟩ := List.map_eq_append_iff.mp (h.symm.trans hsplit)
  obtain ⟨p, pts₂, rfl, hp, rfl⟩ := List.map_eq_cons_iff.mp hrest
  obtain ⟨p', hp', hmoves⟩ := advance_code hp st.shared
  refine ⟨pts₁, p, p', pts₂, rfl, ?_, hmoves⟩
  simp only [At, List.map_append, List.map_cons, hp']

/-! ## Numbers that were handed out -/

/-- What a call has returned. -/
def Point.result? : Point → Option UInt64
  | .returned n => some n
  | _ => none

/-- The numbers of the calls that have returned. -/
def results (pts : List Point) : List UInt64 := pts.filterMap Point.result?

@[simp]
theorem results_append (pts pts' : List Point) :
    results (pts ++ pts') = results pts ++ results pts' := List.filterMap_append

@[simp]
theorem results_returned (n : UInt64) (pts : List Point) :
    results (.returned n :: pts) = n :: results pts := rfl

/-- Numbers up to `m`. -/
def atMost (m : Nat) (n : UInt64) : Bool := decide (n.toNat ≤ m)

/-- What the counter and the numbers that were handed out have to do with each other, once a window
has begun. Unless the counter wraps, it is bounded by how many numbers there are. -/
structure Tally (counter : UInt64) (ns : List UInt64) : Prop where
  first : 1 ∈ ns
  upTo : ∀ m, m ≤ counter.toNat → m ≤ ns.countP (atMost m)
  share : ∀ m, min ns.length m ≤ ns.countP (atMost m)
  precise : ns.length < 2 ^ 64 → 1 ≤ counter.toNat ∧ counter.toNat ≤ ns.length ∧ ns.count 1 = 1 ∧
    ∀ n ∈ ns, n ≠ 1 → 2 ≤ n.toNat

namespace Tally

variable {counter : UInt64} {ns ns' : List UInt64}

theorem start : Tally 1 [1] where
  first := List.mem_singleton_self 1
  upTo := fun m hm => by
    have hone : m ≤ 1 := hm
    interval_cases m <;> decide
  share := fun m => by
    rcases m with _ | m
    · exact Nat.zero_le _
    · have hle : atMost (m + 1) 1 = true := decide_eq_true (Nat.le_add_left 1 m)
      rw [List.countP_singleton, if_pos hle]
      exact Nat.min_le_left _ _
  precise := fun _ => ⟨Nat.le_refl _, Nat.le_refl _, rfl, fun n hn hne =>
    absurd (List.mem_singleton.mp hn) hne⟩

/-- A late reset. -/
theorem store (h : Tally counter ns) : Tally 1 ns where
  first := h.first
  upTo := fun m hm => by
    have hone : m ≤ 1 := hm
    rcases Nat.le_one_iff_eq_zero_or_eq_one.mp hone with rfl | rfl
    · exact Nat.zero_le _
    · exact List.countP_pos_iff.mpr ⟨1, h.first, rfl⟩
  share := h.share
  precise := fun hlen => ⟨Nat.le_refl _, List.length_pos_of_mem h.first, (h.precise hlen).2.2⟩

/-- The next number is handed out. -/
theorem add (h : Tally counter (ns ++ ns')) :
    Tally (counter + 1) (ns ++ (counter + 1) :: ns') := by
  have hlength : (ns ++ (counter + 1) :: ns').length = (ns ++ ns').length + 1 := by
    rw [List.length_append, List.length_cons, List.length_append, Nat.add_assoc]
  have hcount (m : Nat) : (ns ++ (counter + 1) :: ns').countP (atMost m) =
      (ns ++ ns').countP (atMost m) + if (counter + 1).toNat ≤ m then 1 else 0 := by
    simp only [List.countP_append, List.countP_cons, atMost, decide_eq_true_eq, Nat.add_assoc]
  have hwrap : (counter + 1).toNat = counter.toNat + 1 ∨
      counter.toNat + 1 = 2 ^ 64 ∧ (counter + 1).toNat = 0 := by
    have hlt := counter.toNat_lt
    have hadd : (counter + 1).toNat = (counter.toNat + 1) % 2 ^ 64 := UInt64.toNat_add counter 1
    omega
  constructor
  · exact List.mem_append.mpr ((List.mem_append.mp h.first).imp_right (List.mem_cons_of_mem _))
  · intro m hm
    have hold := h.upTo (m - 1)
    have hmono : (ns ++ ns').countP (atMost (m - 1)) ≤ (ns ++ ns').countP (atMost m) :=
      List.countP_mono_left fun n _ hn =>
        decide_eq_true (Nat.le_trans (of_decide_eq_true hn) (Nat.sub_le _ _))
    have hsame := h.upTo m
    rw [hcount]
    split <;> omega
  · intro m
    have hold := h.share m
    have hsame := h.upTo m
    rw [hcount, hlength]
    split <;> omega
  · intro hlen
    rw [hlength] at hlen ⊢
    obtain ⟨hpos, hle, hone, htwo⟩ := h.precise (Nat.lt_of_succ_lt hlen)
    have hnext : (counter + 1).toNat = counter.toNat + 1 := hwrap.resolve_right (by omega)
    have hne : counter + 1 ≠ 1 := fun he => by
      rw [he] at hnext
      exact absurd (Nat.succ.inj hnext).symm (Nat.ne_of_gt hpos)
    refine ⟨by omega, by omega, ?_, ?_⟩
    · rw [List.count_append, List.count_cons_of_ne hne, ← List.count_append]
      exact hone
    · intro n hn hn1
      rcases List.mem_append.mp hn with hn | hn
      · exact htwo n (List.mem_append_left _ hn) hn1
      · rcases List.mem_cons.mp hn with rfl | hn
        · omega
        · exact htwo n (List.mem_append_right _ hn) hn1

end Tally

/-! ## The window -/

/-- Before the counter is reset: the calls that are under way have loaded the same time, and those
that have stored have left a one. -/
def Point.Early (c₀ c : Counter) : Point → Prop
  | .start => True
  | .storing r => r = c₀.resetAt
  | .swapping r => r = c₀.resetAt ∧ c.counter = 1
  | .adding => False
  | .returned _ => False

/-- After the counter was reset: a call that has loaded an earlier time will find another one. -/
def Point.Late (ends : Int64) : Point → Prop
  | .storing r => r ≠ ends
  | .swapping r => r ≠ ends
  | _ => True

/-- The calls before and after the counter is reset. -/
inductive Window (t : Time) (tick : Duration) (c₀ c : Counter) (pts : List Point) : Prop
  | before (hreset : c.resetAt = c₀.resetAt) (hpts : ∀ p ∈ pts, p.Early c₀ c)
  | after (hreset : c.resetAt = t.unixNano + tick) (hpts : ∀ p ∈ pts, p.Late (t.unixNano + tick))
      (htally : Tally c.counter (results pts))

section

variable {c₀ c c' : Counter} {p p' : Point} {pts₁ pts₂ : List Point}

theorem forall_middle {P : Point → Prop} :
    (∀ q ∈ pts₁ ++ p :: pts₂, P q) ↔ P p ∧ ∀ q ∈ pts₁ ++ pts₂, P q := by
  simp only [List.forall_mem_append, List.forall_mem_cons]
  exact and_left_comm

theorem results_middle (h : p.result? = none) :
    results (pts₁ ++ p :: pts₂) = results (pts₁ ++ pts₂) := by
  rw [results_append, results_append]
  exact congrArg _ (List.filterMap_cons_none h)

/-- A call that still has nothing leaves the numbers as they are. -/
theorem Tally.move (h : Tally c.counter (results (pts₁ ++ p :: pts₂))) (hp : p.result? = none)
    (hp' : p'.result? = none) : Tally c.counter (results (pts₁ ++ p' :: pts₂)) := by
  rw [results_middle hp] at h
  rw [results_middle hp']
  exact h

theorem Window.step (hdue : ¬ t.unixNano < c₀.resetAt) (hpast : t.unixNano < t.unixNano + tick)
    (h : Window t tick c₀ c (pts₁ ++ p :: pts₂)) (hmoves : Moves t tick c p c' p') :
    Window t tick c₀ c' (pts₁ ++ p' :: pts₂) := by
  have hend : c₀.resetAt ≠ t.unixNano + tick := fun he => hdue (he ▸ hpast)
  cases h with
  | before hreset hpts =>
    obtain ⟨hself, hothers⟩ := forall_middle.mp hpts
    cases hmoves with
    | passed hlt => exact absurd (hreset ▸ hlt) hdue
    | due _ => exact .before hreset (forall_middle.mpr ⟨hreset, hothers⟩)
    | stored =>
      refine .before hreset (forall_middle.mpr ⟨⟨hself, rfl⟩, fun q hq => ?_⟩)
      have hq' := hothers q hq
      cases q with
      | swapping r => exact ⟨hq'.1, rfl⟩
      | _ => exact hq'
    | won _ =>
      obtain ⟨_, hone⟩ := hself
      have hnone : ∀ q ∈ pts₁ ++ pts₂, q.result? = none ∧ q.Late (t.unixNano + tick) := by
        intro q hq
        have hq' := hothers q hq
        cases q with
        | start => exact ⟨rfl, trivial⟩
        | storing r => exact ⟨rfl, fun he => hend (hq' ▸ he)⟩
        | swapping r => exact ⟨rfl, fun he => hend (hq'.1 ▸ he)⟩
        | adding => exact hq'.elim
        | returned n => exact hq'.elim
      have hempty : results (pts₁ ++ pts₂) = [] :=
        List.filterMap_eq_nil_iff.mpr fun q hq => (hnone q hq).1
      rw [results_append, List.append_eq_nil_iff] at hempty
      refine .after rfl (forall_middle.mpr ⟨trivial, fun q hq => (hnone q hq).2⟩) ?_
      rw [results_append, results_returned, hempty.1, hempty.2, hone]
      exact .start
    | lost hne => exact absurd (hreset.trans hself.1.symm) hne
    | added => exact hself.elim
  | after hreset hpts htally =>
    obtain ⟨hself, hothers⟩ := forall_middle.mp hpts
    cases hmoves with
    | passed _ =>
      exact .after hreset (forall_middle.mpr ⟨trivial, hothers⟩) (htally.move rfl rfl)
    | due hnot => exact absurd (hreset ▸ hpast) hnot
    | stored =>
      exact .after hreset (forall_middle.mpr ⟨hself, hothers⟩) (htally.move rfl rfl).store
    | won hsame => exact absurd (hsame.symm.trans hreset) hself
    | lost _ =>
      exact .after hreset (forall_middle.mpr ⟨trivial, hothers⟩) (htally.move rfl rfl)
    | added =>
      refine .after hreset (forall_middle.mpr ⟨trivial, hothers⟩) ?_
      rw [results_middle rfl, results_append] at htally
      rw [results_append]
      exact htally.add

/-- The operations that a call has yet to do, at most. -/
def Point.left : Point → Nat
  | .start => 4
  | .storing _ => 3
  | .swapping _ => 2
  | .adding => 1
  | .returned _ => 0

theorem Moves.left (h : Moves t tick c p c' p') : p'.left < p.left := by
  cases h <;> simp only [Point.left, Nat.reduceLT]

end

/-! ## Runs -/

section

variable {c₀ : Counter} {st st' : Threads Counter CounterOp CounterOp.Res UInt64}
  {pts : List Point} {as : List (Unit × Nat)}

theorem At.run (hdue : ¬ t.unixNano < c₀.resetAt) (hpast : t.unixNano < t.unixNano + tick)
    (h : At t tick st pts) (hwin : Window t tick c₀ st.shared pts)
    (hrun : counterMachine.run as st = some st') :
    ∃ pts', At t tick st' pts' ∧ Window t tick c₀ st'.shared pts' ∧ pts'.length = pts.length ∧
      as.length + (pts'.map Point.left).sum ≤ (pts.map Point.left).sum := by
  induction as generalizing st pts with
  | nil =>
    cases hrun
    exact ⟨pts, h, hwin, rfl, Nat.le_of_eq (Nat.zero_add _)⟩
  | cons a as ih =>
    obtain ⟨st₁, hstep, hrest⟩ := Option.bind_eq_some_iff.mp hrun
    obtain ⟨pts₁, p, p', pts₂, rfl, h₁, hmoves⟩ := h.step hstep
    obtain ⟨pts', h', hwin', hlen, hleft⟩ := ih h₁ (hwin.step hdue hpast hmoves) hrest
    have hless := hmoves.left
    refine ⟨pts', h', hwin', hlen.trans (by simp only [List.length_append, List.length_cons]), ?_⟩
    simp only [List.map_append, List.map_cons, List.sum_append, List.sum_cons,
      List.length_cons] at hleft ⊢
    omega

theorem calls_at (c : Counter) (k : Nat) :
    At t tick (calls c t tick k) (List.replicate k .start) := by
  simp only [At, calls, List.map_replicate, Point.code]

/-- Where every call has ended, they have all returned. -/
theorem At.ended (h : At t tick st pts) (hended : ∀ p ∈ st.threads, p.ended = true) :
    pts = (results pts).map .returned ∧ st.threads = (results pts).map .ret := by
  have hpts : pts = (results pts).map .returned := by
    rw [At] at h
    rw [h] at hended
    clear h
    induction pts with
    | nil => rfl
    | cons p pts ih =>
      obtain ⟨hp, hrest⟩ := List.forall_mem_cons.mp hended
      cases p with
      | returned n => exact congrArg _ (ih hrest)
      | _ => cases hp
  refine ⟨hpts, ?_⟩
  rw [h]
  nth_rewrite 1 [hpts]
  rw [List.map_map]
  rfl

end

/-- The end of the window of a call can be expressed, and lies behind the call. -/
theorem lt_add_tick (htick : 0 < tick.toInt) (hspan : t.unixNano.toInt + tick.toInt < 2 ^ 63) :
    t.unixNano < t.unixNano + tick := by
  have htime := t.unixNano.le_toInt
  have hsum : (t.unixNano + tick).toInt = t.unixNano.toInt + tick.toInt := by
    rw [Int64.toInt_add]
    exact Int.bmod_eq_of_le (by omega) (by omega)
  rw [Int64.lt_iff_toInt_lt, hsum]
  omega

/-- `k` calls at the same time, when the last window is over. In every interleaving of their atomic
operations each call returns. For every `first`, at least `first` of the calls, or all, return no
more than that, and a sampler lets as many entries through. If there are fewer calls than the counter
can count, exactly one of them returns one, and each of the others two or more. -/
theorem calls_interleaved (c : Counter) {t : Time} {tick : Duration} {k : Nat} (hk : 1 ≤ k)
    (htick : 0 < tick.toInt) (hspan : t.unixNano.toInt + tick.toInt < 2 ^ 63)
    (hdue : c.resetAt.toInt ≤ t.unixNano.toInt) {as : List (Unit × Nat)}
    {st : Threads Counter CounterOp CounterOp.Res UInt64}
    (hrun : counterMachine.run as (calls c t tick k) = some st) :
    as.length ≤ 4 * k ∧
      ((∀ i, counterMachine.step () i st = none) →
        ∃ ns : List UInt64, st.threads = ns.map .ret ∧ ns.length = k ∧
          (∀ first, min k first ≤ ns.countP fun n => n.toNat ≤ first) ∧
          (∀ s : Sampler, min k s.first.toNat ≤ ns.countP fun n => !s.drops n) ∧
          (k < 2 ^ 64 → ns.count 1 = 1 ∧ ∀ n ∈ ns, n ≠ 1 → 2 ≤ n.toNat)) := by
  have hdue' : ¬ t.unixNano < c.resetAt := by
    rw [Int64.lt_iff_toInt_lt]
    exact Int.not_lt.mpr hdue
  have hstart : Window t tick c c (List.replicate k .start) :=
    .before rfl fun p hp => by
      rw [List.eq_of_mem_replicate hp]
      exact trivial
  obtain ⟨pts, hat, hwin, hlen, hleft⟩ :=
    (calls_at c k).run hdue' (lt_add_tick htick hspan) hstart hrun
  rw [List.length_replicate] at hlen
  refine ⟨?_, fun hstuck => ?_⟩
  · rw [List.map_replicate, List.sum_replicate_nat, Point.left] at hleft
    omega
  · obtain ⟨hpts, hthreads⟩ := hat.ended (Machine.ended_of_stuck hstuck)
    have hcount : (results pts).length = k := by
      rw [← hlen]
      nth_rewrite 2 [hpts]
      rw [List.length_map]
    cases hwin with
    | before _ hearly =>
      -- Somebody has returned, which is not early.
      obtain ⟨p, hp⟩ := List.exists_mem_of_length_pos (hlen ▸ hk)
      have hself := hearly p hp
      rw [hpts] at hp
      obtain ⟨n, _, rfl⟩ := List.mem_map.mp hp
      exact hself.elim
    | after _ _ htally =>
      refine ⟨results pts, hthreads, hcount, fun first => hcount ▸ htally.share first, fun s => ?_,
        fun hlt => (htally.precise (hcount ▸ hlt)).2.2⟩
      refine (hcount ▸ htally.share s.first.toNat).trans (List.countP_mono_left fun n _ hn => ?_)
      have hle : ¬ s.first < n := fun hgt =>
        Nat.not_lt.mpr (of_decide_eq_true hn) (UInt64.lt_iff_toNat_lt.mp hgt)
      simp only [Sampler.drops, gt_iff_lt, hle, decide_false, Bool.false_and, Bool.not_false]

/-- The second call loads before the first has reset the counter, and stores after the third has
its number. -/
theorem calls_interleaved_late :
    let t : Time := .ofUnixNano 0 Location.utc
    ∃ st, counterMachine.run ([0, 1, 0, 0, 2, 2, 1, 1, 1].map fun i => ((), i))
        (calls ⟨0, 7⟩ t 1 3) = some st ∧
      st.threads = [.ret 1, .ret 2, .ret 2] ∧
      ∃ ns : List UInt64, st.threads = ns.map .ret ∧ ns.count 1 = 1 ∧
        min 3 2 ≤ ns.countP fun n => n.toNat ≤ 2 := by
  intro t
  obtain ⟨st, hrun, hthreads⟩ : ∃ st, counterMachine.run
      ([0, 1, 0, 0, 2, 2, 1, 1, 1].map fun i => ((), i)) (calls ⟨0, 7⟩ t 1 3) = some st ∧
      st.threads = [.ret 1, .ret 2, .ret 2] := ⟨_, rfl, rfl⟩
  have hended : ∀ p ∈ st.threads, p.ended = true := by
    rw [hthreads]
    simp only [List.forall_mem_cons]
    exact ⟨rfl, rfl, rfl, List.forall_mem_nil _⟩
  have hstuck : ∀ i, counterMachine.step () i st = none := fun _ => Machine.stuck_of_ended hended
  obtain ⟨ns, hns, _, hshare, _, hone⟩ := (calls_interleaved ⟨0, 7⟩ (by decide) (by decide)
    (by decide) (by decide) hrun).2 hstuck
  exact ⟨st, hrun, hthreads, ns, hns, (hone (by norm_num)).1, hshare 2⟩

/-! ## One call after another -/

section

variable {c c' : Counter} {p p' : Point} {l₁ l₂ : List (Code UInt64)}

/-- A point and a counter leave one way to go on. -/
theorem Moves.unique {c₁ c₂ : Counter} {p₁ p₂ : Point} (h₁ : Moves t tick c p c₁ p₁)
    (h₂ : Moves t tick c p c₂ p₂) : c₁ = c₂ ∧ p₁ = p₂ := by
  cases h₁ with
  | passed hlt =>
    cases h₂ with
    | passed _ => exact ⟨rfl, rfl⟩
    | due hnot => exact absurd hlt hnot
  | due hnot =>
    cases h₂ with
    | passed hlt => exact absurd hlt hnot
    | due _ => exact ⟨rfl, rfl⟩
  | stored => cases h₂; exact ⟨rfl, rfl⟩
  | won hsame =>
    cases h₂ with
    | won _ => exact ⟨rfl, rfl⟩
    | lost hne => exact absurd hsame hne
  | lost hne =>
    cases h₂ with
    | won hsame => exact absurd hsame hne
    | lost _ => exact ⟨rfl, rfl⟩
  | added => cases h₂; exact ⟨rfl, rfl⟩

/-- A call that can move does so when it is its turn. -/
theorem Moves.run_cons (h : Moves t tick c p c' p') {as : List (Unit × Nat)}
    {st : Threads Counter CounterOp CounterOp.Res UInt64}
    (hrest : counterMachine.run as ⟨c', l₁ ++ p'.code t tick :: l₂⟩ = some st) :
    counterMachine.run (((), l₁.length) :: as) ⟨c, l₁ ++ p.code t tick :: l₂⟩ = some st := by
  cases hp : p.code t tick with
  | op o next =>
    obtain ⟨p'', hcode, hmoves⟩ := advance_code hp c
    obtain ⟨hc, rfl⟩ := h.unique hmoves
    rw [Machine.run, Machine.step_append, hcode, ← hc]
    exact hrest
  | ret a => cases h <;> cases hp
  | panic => cases h <;> cases hp

variable (t tick) in
/-- A call that is not interrupted. -/
theorem run_alone (c : Counter) (l₁ l₂ : List (Code UInt64)) :
    ∃ as, counterMachine.run as ⟨c, l₁ ++ incCheckReset t tick :: l₂⟩ =
      some ⟨(c.incCheckReset t tick).2, l₁ ++ .ret (c.incCheckReset t tick).1 :: l₂⟩ := by
  by_cases hlt : t.unixNano < c.resetAt
  · have hcall : c.incCheckReset t tick = (c.counter + 1, { c with counter := c.counter + 1 }) :=
      if_pos hlt
    rw [hcall]
    have hload : Moves t tick c .start c .adding := .passed hlt
    exact ⟨[((), l₁.length), ((), l₁.length)], hload.run_cons (Moves.added.run_cons rfl)⟩
  · have hcall : c.incCheckReset t tick = (1, ⟨t.unixNano + tick, 1⟩) := if_neg hlt
    rw [hcall]
    exact ⟨[((), l₁.length), ((), l₁.length), ((), l₁.length)],
      (Moves.due hlt).run_cons (Moves.stored.run_cons ((Moves.won rfl).run_cons rfl))⟩

/-- Calls one after another, when the last window is over. -/
theorem run_sequence (hdue : ¬ t.unixNano < c.resetAt) (hpast : t.unixNano < t.unixNano + tick)
    (j : Nat) (rest : List (Code UInt64)) :
    ∃ as, ∃ ns : List UInt64, counterMachine.run as ⟨c, List.replicate (j + 1) (incCheckReset t tick) ++ rest⟩ =
      some ⟨⟨t.unixNano + tick, .ofNat (j + 1)⟩, ns.map .ret ++ .ret (.ofNat (j + 1)) :: rest⟩ := by
  induction j generalizing rest with
  | zero =>
    obtain ⟨as, has⟩ := run_alone t tick c [] rest
    have hcall : c.incCheckReset t tick = (1, ⟨t.unixNano + tick, 1⟩) := if_neg hdue
    rw [hcall] at has
    exact ⟨as, [], has⟩
  | succ j ih =>
    obtain ⟨as, ns, has⟩ := ih (incCheckReset t tick :: rest)
    let before : Counter := ⟨t.unixNano + tick, .ofNat (j + 1)⟩
    obtain ⟨bs, hbs⟩ := run_alone t tick before
      (ns.map .ret ++ [.ret (.ofNat (j + 1))]) rest
    have hcall : before.incCheckReset t tick =
        (.ofNat (j + 1 + 1), ⟨t.unixNano + tick, .ofNat (j + 1 + 1)⟩) := by
      have hnext : UInt64.ofNat (j + 1) + 1 = .ofNat (j + 1 + 1) := (UInt64.ofNat_add _ _).symm
      rw [Counter.incCheckReset, if_pos hpast, hnext]
    rw [hcall] at hbs
    refine ⟨as ++ bs, ns ++ [.ofNat (j + 1)], ?_⟩
    rw [Machine.run_append, List.replicate_succ', List.append_assoc, List.singleton_append, has]
    rw [Option.bind_some, List.map_append]
    rw [List.append_assoc, List.singleton_append] at hbs
    exact hbs

end

/-- Exactly `2 ^ 64` calls: the counter wraps, and one of them returns zero. -/
theorem calls_wrap :
    ∃ k t as st, k = 2 ^ 64 ∧ Time.unixNano t = 0 ∧
      counterMachine.run as (calls ⟨0, 0⟩ t 1 k) = some st ∧
      (∀ i, counterMachine.step () i st = none) ∧ .ret 0 ∈ st.threads := by
  obtain ⟨j, hj⟩ : ∃ j, j + 1 = 2 ^ 64 := ⟨2 ^ 64 - 1, by norm_num⟩
  let t : Time := .ofUnixNano 0 Location.utc
  have hdue : ¬ t.unixNano < (⟨0, 0⟩ : Counter).resetAt := by decide
  have hpast : t.unixNano < t.unixNano + (1 : Duration) := by decide
  obtain ⟨as, ns, has⟩ := run_sequence hdue hpast j []
  rw [List.append_nil] at has
  refine ⟨j + 1, t, as, _, hj, rfl, has, fun i => Machine.stuck_of_ended fun p hp => ?_, ?_⟩
  · rcases List.mem_append.mp hp with hp | hp
    · obtain ⟨n, _, rfl⟩ := List.mem_map.mp hp
      rfl
    · rw [List.mem_singleton.mp hp]
      rfl
  · have hzero : UInt64.ofNat (j + 1) = 0 := by rw [hj]; rfl
    rw [hzero]
    exact List.mem_append_right _ List.mem_cons_self

end Zap.Zapcore.CounterSteps
