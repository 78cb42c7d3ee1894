import Zap.Zapcore.Sampler

/-!
# Sampling windows at the limits

A counter compares `UnixNano`s, which are integers modulo `2 ^ 64`, and its first window has the end
zero until the first entry sets one. `window_right_iff` says for which times that is right. As long as
`UnixNano` does not wrap after the first entry, all depends on where `UnixNano` is at the first entry:
windows are right if it is not negative and there is room for the tick above it; if it is negative,
the window ends when `UnixNano` gets to zero, which is right only for times on the same side of that
point and of the right end; and if there is no room for the tick, the window is over at once. Nothing
is asked of the first entry: its time may be the zero time, or out of the range of `UnixNano`.
-/

set_option autoImplicit false

namespace Zap

/-- Nanoseconds from the Unix epoch, not wrapped. -/
def Time.nanos (t : Time) : Int := t.sec * 1000000000 + t.nsec

/-- What is left of an integer in 64 bits. -/
def wrap (n : Int) : Int := n.bmod (2 ^ 64)

theorem Time.toInt_unixNano (t : Time) : t.unixNano.toInt = wrap t.nanos := Int64.toInt_ofInt

theorem Time.toInt_unixNano_add (t : Time) (tick : Duration) :
    (t.unixNano + tick).toInt = wrap (t.nanos + tick.toInt) := by
  rw [Int64.toInt_add, toInt_unixNano, wrap, wrap, Int.bmod_add_bmod]

theorem Time.nanos_ofUnixNano (n : Int) (loc : Location) : (ofUnixNano n loc).nanos = n := by
  show n / 1000000000 * 1000000000 + ((n % 1000000000).toNat : Int) = n
  omega

namespace Zapcore

/-- The end of the window that a fresh counter is in after an entry at `n`, in nanoseconds. -/
def windowEnd (n tick : Int) : Int := if wrap n < 0 then 0 else wrap (n + tick)

/-- The wrapped times compare as the times do: `n` is before the end of the window that `n₀` opens,
as the counter sees it, iff it is. -/
def Faithful (n₀ tick n : Int) : Prop := wrap n < windowEnd n₀ tick ↔ n < n₀ + tick

namespace Counter

/-- Calls of `IncCheckReset`, and what they return. -/
def calls (c : Counter) (tick : Duration) : List Time → List UInt64 × Counter
  | [] => ([], c)
  | t :: ts =>
    let (n, c) := c.incCheckReset t tick
    let (ns, c) := c.calls tick ts
    (n :: ns, c)

/-- A counter that has not been called. -/
def fresh : Counter := ⟨0, 0⟩

theorem incCheckReset_fresh (t₀ : Time) (tick : Duration) :
    ∃ resetAt, fresh.incCheckReset t₀ tick = (1, ⟨resetAt, 1⟩) ∧
      resetAt.toInt = windowEnd t₀.nanos tick.toInt := by
  have hlt : (0 : Int64) > t₀.unixNano ↔ wrap t₀.nanos < 0 := by
    rw [gt_iff_lt, Int64.lt_iff_toInt_lt, t₀.toInt_unixNano]
    rfl
  unfold incCheckReset windowEnd fresh
  simp only [hlt]
  split
  · exact ⟨0, rfl, rfl⟩
  · exact ⟨_, rfl, t₀.toInt_unixNano_add tick⟩

/-- In a window that ends at `stop`, a call counts on if its time is before the end as the counter
sees it, and starts again if not. -/
theorem incCheckReset_eq {c : Counter} {stop : Int} (hstop : c.resetAt.toInt = stop) (t : Time)
    (tick : Duration) :
    (c.incCheckReset t tick).1 = if wrap t.nanos < stop then c.counter + 1 else 1 := by
  have hlt : c.resetAt > t.unixNano ↔ wrap t.nanos < stop := by
    rw [gt_iff_lt, Int64.lt_iff_toInt_lt, t.toInt_unixNano, hstop]
  unfold incCheckReset
  simp only [hlt]
  split <;> rfl

theorem incCheckReset_counter (c : Counter) (t : Time) (tick : Duration) :
    (c.incCheckReset t tick).2.counter = (c.incCheckReset t tick).1 := by
  unfold incCheckReset
  simp only
  split <;> rfl

/-- A call that counts on leaves the end of the window where it is. -/
theorem incCheckReset_resetAt {c : Counter} {stop : Int} (hstop : c.resetAt.toInt = stop) {t : Time}
    (ht : wrap t.nanos < stop) (tick : Duration) :
    (c.incCheckReset t tick).2.resetAt = c.resetAt := by
  have hlt : c.resetAt > t.unixNano := by
    rw [gt_iff_lt, Int64.lt_iff_toInt_lt, t.toInt_unixNano, hstop]
    exact ht
  unfold incCheckReset
  simp only [hlt, ↓reduceIte]

theorem calls_cons (c : Counter) (tick : Duration) (t : Time) (ts : List Time) :
    c.calls tick (t :: ts) =
      ((c.incCheckReset t tick).1 :: ((c.incCheckReset t tick).2.calls tick ts).1,
        ((c.incCheckReset t tick).2.calls tick ts).2) := rfl

theorem ofNat_ne_one {m : Nat} (hpos : 1 < m) (hmax : m < 2 ^ 64) : UInt64.ofNat m ≠ 1 := by
  intro h
  have hnat := congrArg UInt64.toNat h
  rw [UInt64.toNat_ofNat_of_lt' hmax] at hnat
  exact absurd hnat (Nat.ne_of_gt hpos)

/-- A counter that has counted on is in the window that it was in. -/
theorem calls_counted {stop : Int} (tick : Duration) {ts : List Time} {c : Counter} {m : Nat}
    (hstop : c.resetAt.toInt = stop) (hc : c.counter = UInt64.ofNat m) (hpos : 0 < m)
    (hmax : m + ts.length < 2 ^ 64)
    (hcounted : (c.calls tick ts).1 = (List.range' (m + 1) ts.length).map UInt64.ofNat) :
    (c.calls tick ts).2.resetAt.toInt = stop ∧
      (c.calls tick ts).2.counter = UInt64.ofNat (m + ts.length) := by
  induction ts generalizing c m with
  | nil => exact ⟨hstop, hc⟩
  | cons t ts ih =>
    rw [List.length_cons] at hmax hcounted
    rw [calls_cons, List.range'_succ, List.map_cons] at hcounted
    obtain ⟨hnext, hrest⟩ := List.cons.inj hcounted
    -- The answer is not one, so the call was before the end of the window.
    have ht : wrap t.nanos < stop := by
      by_contra hover
      rw [incCheckReset_eq hstop, if_neg hover] at hnext
      exact ofNat_ne_one (by omega) (by omega) hnext.symm
    have hkeep := incCheckReset_resetAt hstop ht tick
    have hcount := (c.incCheckReset_counter t tick).trans hnext
    have h := ih (hkeep.symm ▸ hstop) hcount (Nat.succ_pos m) (by omega) hrest
    rw [calls_cons, List.length_cons, ← Nat.add_assoc, Nat.add_right_comm]
    exact h

end Counter

/-- The answers of a counter that counts on. -/
def counted (n : Nat) : List UInt64 := (List.range' 1 n).map UInt64.ofNat

/-- A fresh counter, first called at `t₀` and then any number of times, fewer than it can count, within
the window: if it has counted on so far, it answers the call at `t` as the window asks, the next number
before the end of the window, and one from then on. -/
def WindowRight (t₀ : Time) (tick : Duration) (t : Time) : Prop :=
  ∀ between : List Time,
    (∀ u ∈ between, t₀.nanos ≤ u.nanos ∧ u.nanos < t₀.nanos + tick.toInt) →
    between.length + 2 < 2 ^ 64 →
    (Counter.fresh.calls tick (t₀ :: between)).1 = counted (between.length + 1) →
    ((Counter.fresh.calls tick (t₀ :: between)).2.incCheckReset t tick).1 =
      if t.nanos < t₀.nanos + tick.toInt then UInt64.ofNat (between.length + 2) else 1

theorem windowRight_iff (t₀ : Time) (tick : Duration) (t : Time) :
    WindowRight t₀ tick t ↔ Faithful t₀.nanos tick.toInt t.nanos := by
  obtain ⟨resetAt, hfresh, hstop⟩ := Counter.incCheckReset_fresh t₀ tick
  constructor
  · intro h
    have hsecond := h [] (by simp) (by decide) (by rw [Counter.calls_cons, hfresh]; rfl)
    rw [Counter.calls_cons, hfresh] at hsecond
    have hanswer := (Counter.incCheckReset_eq (c := ⟨resetAt, 1⟩) hstop t tick).symm.trans hsecond
    -- One branch answers two, the other one.
    unfold Faithful
    split at hanswer <;> split at hanswer <;> rename_i hleft hright
    · exact iff_of_true hleft hright
    · exact absurd (show (1 : UInt64) + 1 = 1 from hanswer) (by decide)
    · exact absurd hanswer (by decide)
    · exact iff_of_false hleft hright
  · intro hfaithful between _ hmax hcounted
    rw [Counter.calls_cons, hfresh, counted, List.range'_succ, List.map_cons] at hcounted
    obtain ⟨hend, hcount⟩ := Counter.calls_counted tick (c := ⟨resetAt, 1⟩) (m := 1) hstop rfl
      Nat.one_pos (by omega) (List.cons.inj hcounted).2
    rw [Counter.calls_cons, hfresh, Counter.incCheckReset_eq hend, hcount]
    simp only [show (wrap t.nanos < windowEnd t₀.nanos tick.toInt) = _ from propext hfaithful]
    rw [← UInt64.ofNat_one, ← UInt64.ofNat_add, Nat.add_right_comm, Nat.add_comm]

/-! ## Where the answer is right -/

theorem wrap_spec (n : Int) : ∃ k, n = wrap n + k * 2 ^ 64 ∧ -2 ^ 63 ≤ wrap n ∧ wrap n < 2 ^ 63 := by
  have hlo := Int.le_bmod (x := n) (m := 2 ^ 64) (by decide)
  have hhi := Int.bmod_lt (x := n) (m := 2 ^ 64) (by decide)
  refine ⟨n.bdiv (2 ^ 64), ?_, by unfold wrap; omega, by unfold wrap; omega⟩
  have h := Int.bmod_add_bdiv n (2 ^ 64)
  unfold wrap
  omega

/-- The times that a counter answers rightly for, after a first entry at which `UnixNano` is `r₀`: `d`
is how much later the time is, and `r` its own `UnixNano`. -/
def RightAt (r₀ tick d r : Int) : Prop :=
  if d < 2 ^ 63 - r₀ then
    -- `UnixNano` has not wrapped since the first entry
    (0 ≤ r₀ ∧ r₀ + tick < 2 ^ 63) ∨ (r₀ < 0 ∧ (d < tick ∧ d < -r₀ ∨ tick ≤ d ∧ -r₀ ≤ d))
  else
    (r₀ < 0 ∧ 0 ≤ r) ∨ (0 ≤ r₀ ∧ r₀ + tick < 2 ^ 63 ∧ r₀ + tick ≤ r) ∨
      (0 ≤ r₀ ∧ 2 ^ 63 ≤ r₀ + tick ∧ (d < 2 ^ 63 - r₀ + 2 ^ 64 ∨ r₀ + tick - 2 ^ 64 ≤ r))

theorem faithful_iff {n₀ tick n : Int} (htick : 0 < tick) (hmax : tick < 2 ^ 63) (hn : n₀ ≤ n) :
    Faithful n₀ tick n ↔ RightAt (wrap n₀) tick (n - n₀) (wrap n) := by
  obtain ⟨k₀, h₀, hlo₀, hhi₀⟩ := wrap_spec n₀
  obtain ⟨k, h, hlo, hhi⟩ := wrap_spec n
  obtain ⟨j, hj, hloj, hhij⟩ := wrap_spec (n₀ + tick)
  unfold Faithful windowEnd RightAt
  generalize wrap n₀ = r₀ at *
  generalize wrap n = r at *
  generalize wrap (n₀ + tick) = e at *
  split <;> split <;> omega

/-- As long as `UnixNano` does not wrap, all answers are right just if there is room for the tick above
the `UnixNano` of the first entry and that is not negative, or if zero is the right end. -/
theorem faithful_before_wrap {n₀ tick : Int} (htick : 0 < tick) (hmax : tick < 2 ^ 63) :
    (∀ n, n₀ ≤ n → n - n₀ < 2 ^ 63 - wrap n₀ → Faithful n₀ tick n) ↔
      (0 ≤ wrap n₀ ∧ wrap n₀ + tick < 2 ^ 63) ∨ wrap n₀ + tick = 0 := by
  obtain ⟨k₀, h₀, hlo₀, hhi₀⟩ := wrap_spec n₀
  constructor
  · intro hall
    have hright : ∀ d, 0 ≤ d → d < 2 ^ 63 - wrap n₀ → (0 ≤ wrap n₀ ∧ wrap n₀ + tick < 2 ^ 63) ∨
        (wrap n₀ < 0 ∧ (d < tick ∧ d < -wrap n₀ ∨ tick ≤ d ∧ -wrap n₀ ≤ d)) := by
      intro d hd hlt
      have h := (faithful_iff htick hmax (by omega)).mp (hall (n₀ + d) (by omega) (by omega))
      rwa [add_sub_cancel_left, RightAt, if_pos hlt] at h
    -- At zero and at the end of the window that there should be.
    have hfirst := hright 0 (by omega) (by omega)
    have hzero := hright (-wrap n₀)
    have hend := hright tick
    omega
  · intro hroom n hn hlt
    refine (faithful_iff htick hmax hn).mpr ?_
    unfold RightAt
    rw [if_pos hlt]
    omega

/-- A counter is right about a later time just where `RightAt` says so. It is right about all later
times up to where `UnixNano` wraps next just if `UnixNano` is not negative at the first time and
there is room for the tick above it, or if it is zero at the end of the window. -/
theorem window_right_iff (t₀ : Time) (tick : Duration) (htick : 0 < tick.toInt) :
    (∀ t : Time, t₀.nanos ≤ t.nanos → (WindowRight t₀ tick t ↔
      RightAt t₀.unixNano.toInt tick.toInt (t.nanos - t₀.nanos) t.unixNano.toInt)) ∧
    ((∀ t : Time, t₀.nanos ≤ t.nanos → t.nanos - t₀.nanos < 2 ^ 63 - t₀.unixNano.toInt →
        WindowRight t₀ tick t) ↔
      (0 ≤ t₀.unixNano.toInt ∧ t₀.unixNano.toInt + tick.toInt < 2 ^ 63) ∨
        t₀.unixNano.toInt + tick.toInt = 0) := by
  rw [t₀.toInt_unixNano]
  constructor
  · intro t ht
    rw [windowRight_iff, faithful_iff htick tick.toInt_lt ht, t.toInt_unixNano]
  · rw [← faithful_before_wrap htick tick.toInt_lt]
    constructor
    · intro hall n hn hlt
      have h := hall (.ofUnixNano n Location.utc)
      rw [windowRight_iff, Time.nanos_ofUnixNano] at h
      exact h hn hlt
    · intro hall t ht hlt
      exact (windowRight_iff t₀ tick t).mpr (hall t.nanos ht hlt)

/-- The zero time, a second long: right about the same second, not about the one after the next. -/
theorem window_of_zero_time :
    0 < (1000000000 : Duration).toInt ∧
      WindowRight ⟨-62135596800, 0, Location.utc, by decide⟩ 1000000000
        ⟨-62135596800, 999999999, Location.utc, by decide⟩ ∧
      ¬WindowRight ⟨-62135596800, 0, Location.utc, by decide⟩ 1000000000
        ⟨-62135596798, 0, Location.utc, by decide⟩ := by
  have h := window_right_iff ⟨-62135596800, 0, Location.utc, by decide⟩ 1000000000 (by decide)
  refine ⟨by decide, (h.1 _ (by decide)).mpr ?_, mt (h.1 _ (by decide)).mp ?_⟩
  · unfold RightAt; decide
  · unfold RightAt; decide

/-- A window of a second that the zero time opens is still open two seconds later, and a window of
292 years that was opened in 2026 is over a second later. -/
theorem windows_at_limits :
    (∃ t₀ t : Time, t₀.isZero = true ∧ t.nanos = t₀.nanos + 2000000000 ∧
      (Counter.fresh.calls 1000000000 [t₀, t]).1 = [1, 2]) ∧
    (∃ (t₀ t : Time) (tick : Duration), t₀.nanos = 1780000000000000000 ∧
      t.nanos = t₀.nanos + 1000000000 ∧ tick.toInt = 2 ^ 63 - 1 ∧
      (Counter.fresh.calls tick [t₀, t]).1 = [1, 1]) := by
  refine ⟨⟨⟨-62135596800, 0, Location.utc, by decide⟩, ⟨-62135596798, 0, Location.utc, by decide⟩,
    rfl, rfl, ?_⟩, ⟨.ofUnixNano 1780000000000000000 Location.utc,
    .ofUnixNano 1780000001000000000 Location.utc, Int64.maxValue, rfl, rfl, rfl, ?_⟩⟩
  · decide
  · decide

end Zapcore

end Zap
