import Zap.Laws.IoCore
import Zap.Laws.Sessions

/-!
# The policy of a sampler

What a sampler is for, over whole sessions: each slot has windows. One opens at the first entry
that does not come before the end of the window before it, and lasts one tick. Of the entries of a
window the first few pass, and then every so many. `Window` and `admits` say this with numbers and
no counters; `Counter.Tracks` says what a counter has to do with it, and `sampler_policy` that a
sampler keeps to it, whichever of the cores that `With` returned an entry comes in by.

A counter has 64 bits, so the number of an entry in its window is taken modulo `2 ^ 64`.
-/

set_option autoImplicit false

namespace Zap.Zapcore

open Data

/-! ## The policy -/

/-- A window of a slot: when it ends, and the entries that it has had. -/
structure Window where
  ends : Int
  count : Nat

namespace Window

/-- The window after an entry at time `t`. -/
def next (tick : Int) (win : Option Window) (t : Int) : Window :=
  match win with
  | none => ⟨t + tick, 1⟩
  | some win => if t < win.ends then ⟨win.ends, win.count + 1⟩ else ⟨t + tick, 1⟩

/-- The window after entries at these times. -/
def after (tick : Int) (times : List Int) : Option Window :=
  times.foldl (fun win t => some (next tick win t)) none

theorem after_append (tick : Int) (times : List Int) (t : Int) :
    after tick (times ++ [t]) = some (next tick (after tick times) t) :=
  List.foldl_append

end Window

/-- The number that an entry at time `t` has in its window, after entries at the given times. -/
def ordinal (tick : Int) (times : List Int) (t : Int) : Nat :=
  (Window.next tick (Window.after tick times) t).count

/-- Whether the `n`-th entry of a window passes. -/
def admits (first thereafter n : Nat) : Bool :=
  decide (n ≤ first) || (decide (0 < thereafter) && (n - first) % thereafter == 0)

/-! ## Counters -/

/-- A counter is in a window. Before the first one it is as it was made. -/
def Counter.Tracks (c : Counter) : Option Window → Prop
  | none => c.resetAt = 0
  | some win => c.resetAt.toInt = win.ends ∧ c.counter = UInt64.ofNat win.count

/-- The time of an entry, in nanoseconds of Unix time. -/
def Entry.nanos (ent : Entry) : Int := ent.time.unixNano.toInt

/-- The time of an entry and the end of a window that it opens can be expressed. -/
def Entry.InSpan (tick : Duration) (ent : Entry) : Prop :=
  0 ≤ ent.nanos ∧ ent.nanos + tick.toInt < 2 ^ 63

instance (tick : Duration) (ent : Entry) : Decidable (ent.InSpan tick) :=
  inferInstanceAs (Decidable (_ ∧ _))

/-- `IncCheckReset` counts the entry in its window. -/
theorem Counter.Tracks.incCheckReset {c : Counter} {win : Option Window} (h : c.Tracks win)
    {tick : Duration} {ent : Entry} (hspan : ent.InSpan tick) :
    (c.incCheckReset ent.time tick).2.Tracks (some (Window.next tick.toInt win ent.nanos)) ∧
      (c.incCheckReset ent.time tick).1 =
        UInt64.ofNat (Window.next tick.toInt win ent.nanos).count := by
  have hsum : (ent.time.unixNano + tick).toInt = ent.nanos + tick.toInt := by
    have htime := ent.time.unixNano.toInt_lt
    have htick := tick.le_toInt
    obtain ⟨hnonneg, hlt⟩ := hspan
    rw [Int64.toInt_add]
    unfold Entry.nanos at *
    exact Int.bmod_eq_of_le (by omega) (by omega)
  unfold Counter.incCheckReset
  cases win with
  | none =>
    have hold : ¬ c.resetAt > ent.time.unixNano := by
      rw [show c.resetAt = 0 from h, gt_iff_lt, Int64.lt_iff_toInt_lt]
      exact Int.not_lt.mpr hspan.1
    simp only [hold, ↓reduceIte]
    exact ⟨⟨hsum, rfl⟩, rfl⟩
  | some win =>
    obtain ⟨hends, hcount⟩ := h
    have hlt : c.resetAt > ent.time.unixNano ↔ ent.nanos < win.ends := by
      rw [gt_iff_lt, Int64.lt_iff_toInt_lt, hends]
      rfl
    by_cases hin : ent.nanos < win.ends
    · have hadd : c.counter + 1 = UInt64.ofNat (win.count + 1) := by
        rw [hcount, UInt64.ofNat_add]
        rfl
      simp only [Window.next, hin, hlt.mpr hin, ↓reduceIte]
      exact ⟨⟨hends, hadd⟩, hadd⟩
    · have hout := mt hlt.mp hin
      simp only [Window.next, hin, hout, ↓reduceIte]
      exact ⟨⟨hsum, rfl⟩, rfl⟩

/-- A number that is not negative is the same without a sign. -/
theorem toNat_toUInt64 {a : Int64} (h : 0 ≤ a.toInt) : a.toUInt64.toNat = a.toInt.toNat := by
  have hcond : a.toInt = if 2 * a.toUInt64.toNat < 2 ^ 64 then (a.toUInt64.toNat : Int)
      else a.toUInt64.toNat - (2 ^ 64 : Nat) := a.toBitVec.toInt_eq_toNat_cond
  have hlt := a.toUInt64.toNat_lt
  split at hcond <;> omega

/-- What a sampler drops, in numbers. -/
theorem drops_eq {s : Sampler} {first thereafter : Int64} (hfirst : 0 ≤ first.toInt)
    (hthereafter : 0 ≤ thereafter.toInt) (hs : s.first = first.toUInt64)
    (hs' : s.thereafter = thereafter.toUInt64) (n : UInt64) :
    s.drops n = !admits first.toInt.toNat thereafter.toInt.toNat n.toNat := by
  rw [← toNat_toUInt64 hfirst, ← toNat_toUInt64 hthereafter, ← hs, ← hs']
  by_cases hn : s.first < n
  · have hsub := UInt64.toNat_sub_of_le n s.first (UInt64.le_of_lt hn)
    have hle : ¬ n.toNat ≤ s.first.toNat := Nat.not_le.mpr (UInt64.lt_iff_toNat_lt.mp hn)
    have hmod : ((n - s.first) % s.thereafter = 0) ↔
        (n.toNat - s.first.toNat) % s.thereafter.toNat = 0 := by
      rw [← UInt64.toNat_inj, UInt64.toNat_mod, hsub]
      rfl
    have hzero : s.thereafter = 0 ↔ s.thereafter.toNat = 0 := UInt64.toNat_inj.symm
    rw [Bool.eq_iff_iff]
    simp only [Sampler.drops, admits, gt_iff_lt, hn, hle, decide_true, decide_false, Bool.true_and,
      Bool.false_or, Bool.or_eq_true, beq_iff_eq, bne_iff_ne, ne_eq, hmod, hzero, Bool.not_and,
      Bool.not_eq_true', decide_eq_false_iff_not, beq_eq_false_iff_ne, Nat.pos_iff_ne_zero, not_not]
  · have hle : n.toNat ≤ s.first.toNat := Nat.le_of_not_lt (mt UInt64.lt_iff_toNat_lt.mpr hn)
    simp only [Sampler.drops, admits, gt_iff_lt, hn, hle, decide_true, decide_false, Bool.false_and,
      Bool.true_or, Bool.not_true]

/-! ## The cores of a session -/

variable {E F : Type} {b : Bool}

/-- Counters that were made after a core are none of its business. -/
theorem Core.survey_counters {ent : Entry} {core : Core E F b} {ref : Nat} (h : core.Below ref)
    (way : Way F) (started : Bool) (counters : Nat → Counters) :
    (core.survey ent way started counters).counters ref = counters ref := by
  induction core generalizing way started counters with
  | nop => rfl
  | io core => rfl
  | nil => rfl
  | cons core cores ih ihs =>
    obtain ⟨hcore, hcores⟩ := below_cons.mp h
    exact (ihs hcores way _ _).trans (ih hcore way started counters)
  | hooked core funcs ih => exact ih h way started counters
  | levelFilter core level ih => exact ih h _ started counters
  | sampler core s ih =>
    have hask : ∀ asked, (s.askIf asked ent counters).2 ref = counters ref := by
      intro asked
      cases asked with
      | false => rfl
      | true => exact Function.update_of_ne (Nat.ne_of_gt h.1) _ _
    exact (ih h.2 _ started _).trans (hask _)
  | lazyWith _ _ original own ih => exact ih h.2 _ started counters

section

variable [Encoder E F]

/-- A core, or one that `With` has returned for it. -/
inductive CopyOf (core : Core E F true) : {b : Bool} → Core E F b → Prop
  | self : CopyOf core core
  | made (fss : List (List F)) : CopyOf core (core.made fss)

namespace CopyOf

variable {core : Core E F true} {inner : Core E F b}

theorem enabled (h : CopyOf core inner) (l : Level) : inner.enabled l = core.enabled l := by
  cases h with
  | self => rfl
  | made fss => exact core.enabled_made fss l

theorem below (h : CopyOf core inner) {n : Nat} (hbelow : core.Below n) : inner.Below n := by
  cases h with
  | self => exact hbelow
  | made fss => exact hbelow.made fss

theorem coherent (h : CopyOf core inner) {content : Nat → Core E F false}
    (hcoh : core.Coherent content) : inner.Coherent content := by
  cases h with
  | self => exact hcoh
  | made fss => exact Core.coherent_eager content _

theorem withFields (h : CopyOf core inner) (fields : List F) : CopyOf core (inner.made [fields]) := by
  cases h with
  | self => exact .made [fields]
  | made fss => rw [Core.made_made]; exact .made _

end CopyOf

end

/-- The entry that a request checks. -/
def Request.entry : Request E F → Option Entry
  | ⟨_, .check ent _ _⟩ => some ent
  | _ => none

/-- The times of the entries of a slot that requests have checked, those that are enabled and
counted. -/
def countedTimes (core : Core E F b) (slot : Slot) (rs : List (Request E F)) : List Int :=
  ((rs.filterMap Request.entry).filter fun ent =>
    core.enabled ent.level && ent.level.inRange &&
      slotOf ent.level ent.message == slot).map Entry.nanos

theorem countedTimes_append (core : Core E F b) (slot : Slot) (rs rs' : List (Request E F)) :
    countedTimes core slot (rs ++ rs') = countedTimes core slot rs ++ countedTimes core slot rs' := by
  simp only [countedTimes, List.filterMap_append, List.filter_append, List.map_append]

section

variable [Encoder E F] {content : Nat → Core E F false} {core : Core E F true} {smp : Sampler}

/-- A call counts an entry if it checks one that is enabled and counted. -/
def CoreCall.count (core : Core E F true) (smp : Sampler) (counters : Counters) :
    CoreCall E F → Counters
  | .check ent _ _ =>
    if core.enabled ent.level && ent.level.inRange then
      let slot := slotOf ent.level ent.message
      Function.update counters slot ((counters slot).incCheckReset ent.time smp.tick).2
    else counters
  | _ => counters

/-- What calls on the cores of a session do to the sampler. -/
theorem CoreCall.apply_sampler [Environment E F] {inner : Core E F b} (hinner : CopyOf core inner)
    (hcoh : core.Coherent content) (hbelow : core.Below smp.counts) (call : CoreCall E F)
    {w : World E F} (hagree : w.cells.Agrees content) :
    (∀ d ∈ (call.apply (.sampler inner smp) w).made,
        ∃ copy : Core E F false, CopyOf core copy ∧ d = .sampler copy smp) ∧
      (call.apply (.sampler inner smp) w).world.cells.Agrees content ∧
      (call.apply (.sampler inner smp) w).world.counters smp.counts =
        call.count core smp (w.counters smp.counts) := by
  have hcohs : (Core.sampler inner smp).Coherent content := hinner.coherent hcoh
  have hbelows : (Core.sampler inner smp).Below (smp.counts + 1) :=
    ⟨Nat.lt_succ_self _, (hinner.below hbelow).mono (Nat.le_succ _)⟩
  -- calls that go outside leave counters alone
  have houtward : ∀ {n : Nat} {w' : World E F}, Outward content n w w' →
      w'.cells.Agrees content ∧ w'.counters smp.counts = w.counters smp.counts := by
    intro n w' hout
    obtain ⟨_, _, hrest⟩ := hout.rest
    exact ⟨hout.cells.agrees hagree, by rw [hrest]⟩
  have hnone : ∀ d ∈ (none : Option (Core E F false)),
      ∃ copy : Core E F false, CopyOf core copy ∧ d = .sampler copy smp :=
    fun d hd => absurd hd (Option.not_mem_none d)
  cases call with
  | enabled l => exact ⟨hnone, hagree, rfl⟩
  | check ent ce fields =>
    refine ⟨hnone, ?_⟩
    have hchecked := Core.surveyed ent hcohs hbelows ce.1 w hagree
    obtain ⟨_, hregs, _⟩ := hchecked.registers
    have hout : Outward content 0 _ (CheckedEntry.write _ fields _) :=
      CheckedEntry.write_outward (hregs.kinds ce.2) fields
        ((Core.sampler inner smp).check ent ce.1 w).2
    obtain ⟨_, _, hrest⟩ := hout.rest
    refine ⟨hout.cells.agrees (hchecked.cells.agrees hagree), ?_⟩
    have hsame : (CheckedEntry.write ((Core.sampler inner smp).check ent ce.1 w).1 fields
        ((Core.sampler inner smp).check ent ce.1 w).2).counters =
          ((Core.sampler inner smp).check ent ce.1 w).2.counters := by rw [hrest]
    simp only [CoreCall.apply, hsame, hchecked.counters, Core.survey,
      Core.survey_counters (hinner.below hbelow), Way.start, Bool.true_and, hinner.enabled,
      Sampler.askIf, CoreCall.count]
    split
    · simp only [Sampler.ask, Function.update_self]
    · rfl
  | write ent fields =>
    exact ⟨hnone, houtward (Core.write_outward hcohs hbelows ent fields w hagree)⟩
  | sync => exact ⟨hnone, houtward (Core.sync_outward hcohs hbelows w hagree)⟩
  | withFields fields =>
    obtain ⟨cells, hwith, hfills⟩ := Core.withFields_eq hcohs hbelows hagree fields
    simp only [CoreCall.apply, hwith]
    refine ⟨?_, hfills.agrees hagree, rfl⟩
    rintro d hd
    cases hd
    exact ⟨_, hinner.withFields fields, rfl⟩

/-- The state of a session with a sampler, after the requests so far. -/
structure Samples (content : Nat → Core E F false) (core : Core E F true) (smp : Sampler)
    (past : List (Request E F)) (s : Session E F) : Prop where
  first : s.first = ⟨true, .sampler core smp⟩
  derived : ∀ d ∈ s.derived, ∃ copy : Core E F false, CopyOf core copy ∧ d = .sampler copy smp
  agrees : s.world.cells.Agrees content
  tracks : ∀ slot, (s.world.counters smp.counts slot).Tracks
    (Window.after smp.tick.toInt (countedTimes core slot past))

namespace Samples

variable {past : List (Request E F)} {s : Session E F}

/-- Every core of the session is a sampler with the same counters. -/
theorem core_eq (h : Samples content core smp past s) (target : Nat) :
    ∃ (b : Bool) (inner : Core E F b), s.core target = ⟨b, .sampler inner smp⟩ ∧
      CopyOf core inner := by
  unfold Session.core
  cases hget : s.derived[target]? with
  | none => exact ⟨true, core, h.first, .self⟩
  | some d =>
    obtain ⟨copy, hcopy, rfl⟩ := h.derived d (List.mem_of_getElem? hget)
    exact ⟨false, copy, rfl, hcopy⟩

/-- A request keeps the counters in their windows. -/
theorem count_tracks (h : Samples content core smp past s) {r : Request E F}
    (hspan : ∀ ent ∈ r.entry, ent.InSpan smp.tick) (slot : Slot) :
    (r.call.count core smp (s.world.counters smp.counts) slot).Tracks
      (Window.after smp.tick.toInt (countedTimes core slot (past ++ [r]))) := by
  have hold := h.tracks slot
  obtain ⟨target, call⟩ := r
  rw [countedTimes_append]
  cases call with
  | check ent ce fields =>
    simp only [countedTimes, Request.entry, List.filterMap_cons, List.filterMap_nil,
      List.filter_cons, List.filter_nil, CoreCall.count]
    cases hcounts : core.enabled ent.level && ent.level.inRange with
    | false =>
      simp only [Bool.false_and, Bool.false_eq_true, ↓reduceIte, List.map_nil, List.append_nil]
      exact hold
    | true =>
      by_cases hslot : slotOf ent.level ent.message = slot
      · subst hslot
        simp only [beq_self_eq_true, Bool.and_self, ↓reduceIte, List.map_cons, List.map_nil,
          Function.update_self, Window.after_append]
        exact (hold.incCheckReset (hspan ent rfl)).1
      · simp only [beq_eq_false_iff_ne.mpr hslot, Bool.and_false, Bool.false_eq_true, ↓reduceIte,
          List.map_nil, List.append_nil, Function.update_of_ne (Ne.symm hslot)]
        exact hold
  | enabled l => exact (List.append_nil (countedTimes core slot past)).symm ▸ hold
  | write ent fields => exact (List.append_nil (countedTimes core slot past)).symm ▸ hold
  | sync => exact (List.append_nil (countedTimes core slot past)).symm ▸ hold
  | withFields fields => exact (List.append_nil (countedTimes core slot past)).symm ▸ hold

theorem step [Environment E F] (hcoh : core.Coherent content) (hbelow : core.Below smp.counts)
    (past : List (Request E F)) (r : Request E F) (s : Session E F)
    (hspan : ∀ ent ∈ r.entry, ent.InSpan smp.tick) (h : Samples content core smp past s) :
    Samples content core smp (past ++ [r]) (Session.step r s).2 := by
  obtain ⟨b, inner, hcore, hinner⟩ := h.core_eq r.target
  have hcall := CoreCall.apply_sampler hinner hcoh hbelow r.call h.agrees
  have happly : r.call.apply (s.core r.target).2 s.world =
      r.call.apply (.sampler inner smp) s.world := by rw [hcore]
  rw [← happly] at hcall
  obtain ⟨hmade, hagrees, hcounters⟩ := hcall
  refine ⟨h.first, ?_, hagrees, fun slot => ?_⟩
  · exact List.forall_mem_append.mpr ⟨h.derived, fun d hd => hmade d (Option.mem_toList.mp hd)⟩
  · exact (congrFun hcounters slot).symm ▸ h.count_tracks hspan slot

end Samples

/-- `Check` on a sampler whose counters are in their windows. -/
theorem Samples.check {past : List (Request E F)} {s : Session E F}
    (h : Samples content core smp past s) {first thereafter : Int64} (hfirst : 0 ≤ first.toInt)
    (hthereafter : 0 ≤ thereafter.toInt) (hs : smp.first = first.toUInt64)
    (hs' : smp.thereafter = thereafter.toUInt64) {inner : Core E F b} (hinner : CopyOf core inner)
    {ent : Entry} (hspan : ent.InSpan smp.tick) (ce : Option (CheckedEntry E F)) :
    let slot := slotOf ent.level ent.message
    let n := ordinal smp.tick.toInt (countedTimes core slot past) ent.nanos
    ∃ counters, (∀ ref, ref ≠ smp.counts → counters ref = s.world.counters ref) ∧
      (Core.sampler inner smp).check ent ce s.world =
        if !core.enabled ent.level then (ce, s.world)
        else if !ent.level.inRange then inner.check ent ce s.world
        else if admits first.toInt.toNat thereafter.toInt.toNat (n % 2 ^ 64) then
          inner.check ent ce (World.decided { s.world with counters } smp ent .logSampled)
        else (ce, World.decided { s.world with counters } smp ent .logDropped) := by
  intro slot n
  refine ⟨(s.world.incCheckReset smp ent).2.counters,
    fun ref hne => Function.update_of_ne hne _ _, ?_⟩
  have hn : (s.world.incCheckReset smp ent).1 = UInt64.ofNat n :=
    ((h.tracks slot).incCheckReset hspan).2
  have hdrops : smp.drops (s.world.incCheckReset smp ent).1 =
      !admits first.toInt.toNat thereafter.toInt.toNat (n % 2 ^ 64) := by
    rw [drops_eq hfirst hthereafter hs hs', hn, UInt64.toNat_ofNat']
  rw [Core.check_sampler, Core.checkSampled, hinner.enabled]
  cases core.enabled ent.level with
  | false => rfl
  | true =>
    cases ent.level.inRange with
    | false => rfl
    | true =>
      simp only [hdrops, Bool.not_true, Bool.false_eq_true, ↓reduceIte]
      cases admits first.toInt.toNat thereafter.toInt.toNat (n % 2 ^ 64) with
      | false => rfl
      | true => rfl

/-- A new sampler is in no window. -/
theorem Samples.start {w : World E F} {tick : Duration} {first thereafter : Int64}
    {hook : Option Nat} (hagrees : w.cells.Agrees content) :
    let made := newSamplerWithOptions core tick first thereafter hook w
    Samples content core ⟨w.next, tick, first.toUInt64, thereafter.toUInt64, hook⟩ []
      ⟨⟨true, made.1⟩, [], made.2⟩ := by
  intro made
  refine ⟨rfl, nofun, hagrees, fun slot => ?_⟩
  have hnew : made.2.counters w.next = newCounters := Function.update_self _ _ _
  show (made.2.counters w.next slot).resetAt = 0
  rw [hnew]
  rfl

/-- After any requests on a new sampler, its counters are in their windows. -/
theorem samples_of_reachable [Environment E F] {w : World E F} {cores : List (Core E F true)}
    (h : Reachable w cores) (hcore : core ∈ cores) (tick : Duration) (first thereafter : Int64)
    (hook : Option Nat) {rs : List (Request E F)}
    (hspan : ∀ e ∈ rs.filterMap Request.entry, e.InSpan tick) :
    let smp : Sampler := ⟨w.next, tick, first.toUInt64, thereafter.toUInt64, hook⟩
    let made := newSamplerWithOptions core tick first thereafter hook w
    ∃ content, Samples content core smp rs (Session.run rs ⟨⟨true, made.1⟩, [], made.2⟩).2 := by
  intro smp made
  obtain ⟨content, hvalid⟩ := h.valid
  have hrs : ∀ r ∈ rs, ∀ e ∈ r.entry, e.InSpan smp.tick :=
    fun r hr e he => hspan e (List.mem_filterMap.mpr ⟨r, hr, he⟩)
  have hbelow : core.Below smp.counts := hvalid.below core hcore
  have hsteps := Samples.step (hvalid.coherent core hcore) hbelow
  exact ⟨content, runs_invariant hsteps hrs [] (Samples.start hvalid.agrees)⟩

/-- The policy of a sampler, over whole sessions. After any requests on a sampler and on the cores
that `With` has returned for it, `Check` on any of these cores does this. At a level that is not
enabled it does nothing. Levels out of range are passed on to the wrapped core. Any other entry is
counted in the window of its slot, the hook is told once, and the entry is passed on if and only if
the policy admits its number in the window, modulo `2 ^ 64`. -/
theorem sampler_policy [Environment E F] {w : World E F} {cores : List (Core E F true)}
    (h : Reachable w cores) (hcore : core ∈ cores) (tick : Duration) (first thereafter : Int64)
    (hook : Option Nat) (hfirst : 0 ≤ first.toInt) (hthereafter : 0 ≤ thereafter.toInt)
    (rs : List (Request E F)) (target : Nat) (ent : Entry) (ce : Option (CheckedEntry E F))
    (hspan : ∀ e ∈ rs.filterMap Request.entry ++ [ent], e.InSpan tick) :
    let smp : Sampler := ⟨w.next, tick, first.toUInt64, thereafter.toUInt64, hook⟩
    let made := newSamplerWithOptions core tick first thereafter hook w
    let s := (Session.run rs ⟨⟨true, made.1⟩, [], made.2⟩).2
    let slot := slotOf ent.level ent.message
    let n := ordinal tick.toInt (countedTimes core slot rs) ent.nanos
    ∃ (b : Bool) (inner : Core E F b) (counters : Nat → Counters),
      s.core target = ⟨b, .sampler inner smp⟩ ∧ CopyOf core inner ∧
      (∀ ref, ref ≠ w.next → counters ref = s.world.counters ref) ∧
      (s.core target).2.check ent ce s.world =
        if !core.enabled ent.level then (ce, s.world)
        else if !ent.level.inRange then inner.check ent ce s.world
        else if admits first.toInt.toNat thereafter.toInt.toNat (n % 2 ^ 64) then
          inner.check ent ce (World.decided { s.world with counters } smp ent .logSampled)
        else (ce, World.decided { s.world with counters } smp ent .logDropped) := by
  intro smp made s slot n
  obtain ⟨hpast, hlast⟩ := List.forall_mem_append.mp hspan
  obtain ⟨content, hsamples⟩ := samples_of_reachable h hcore tick first thereafter hook hpast
  obtain ⟨b, inner, hcore, hinner⟩ := hsamples.core_eq target
  obtain ⟨counters, hsame, hcheck⟩ := hsamples.check hfirst hthereafter rfl rfl hinner
    (List.forall_mem_singleton.mp hlast) ce
  exact ⟨b, inner, counters, hcore, hinner, hsame, by rw [hcore]; exact hcheck⟩

end

theorem sampler_policy_drops :
    let _ : Host := ⟨Location.utc⟩
    let _ := Environment.reliable (Option JsonEncoder) Field
    let leaf : Core (Option JsonEncoder) Field true := .io (jsonLeaf Level.info 0)
    let made := newSamplerWithOptions leaf 1000 1 2 (some 5) .start
    let r : Request (Option JsonEncoder) Field := ⟨0, .check greeting ⟨none, nofun⟩ []⟩
    let s := (Session.run [r] ⟨⟨true, made.1⟩, [], made.2⟩).2
    Reachable World.start [leaf] ∧ (∀ e ∈ [greeting, greeting], e.InSpan 1000) ∧
      ((s.core 0).2.check greeting none s.world).1 = none := by
  intro _ _ leaf made r s
  have hleaf : Reachable World.start [leaf] := Reachable.start.newCore _ _ _
  have hspan : ∀ e ∈ [greeting, greeting], e.InSpan 1000 := by
    have hgreeting : greeting.InSpan 1000 := by decide
    simp only [List.mem_cons, List.not_mem_nil, or_false, or_self, forall_eq, hgreeting]
  obtain ⟨_, inner, counters, _, _, _, hcheck⟩ := sampler_policy hleaf List.mem_cons_self 1000 1 2
    (some 5) (by decide) (by decide) [r] 0 greeting none hspan
  exact ⟨hleaf, hspan, congrArg Prod.fst hcheck⟩

/-! ## Counters wrap -/

theorem ordinal_replicate {tick : Int} (htick : 0 < tick) (t : Int) (k : Nat) :
    ordinal tick (List.replicate k t) t = k + 1 := by
  have hnext : Window.next tick (Window.after tick (List.replicate k t)) t = ⟨t + tick, k + 1⟩ := by
    induction k with
    | zero => rfl
    | succ k ih =>
      have hin : t < t + tick := Int.lt_add_of_pos_right t htick
      rw [List.replicate_succ', Window.after_append, ih]
      simp only [Window.next, hin, ↓reduceIte]
  rw [ordinal, hnext]

section

variable [Encoder E F] [Environment E F]

/-- The same entry again and again, in one window. -/
theorem check_replicate {w : World E F} {cores : List (Core E F true)} (h : Reachable w cores)
    {leaf : IoCore E} (hleaf : .io leaf ∈ cores) {ent : Entry} (hspan : ent.InSpan 1)
    (hon : leaf.level.enabled ent.level = true) (hrange : ent.level.inRange = true) (k : Nat) :
    let made := newSamplerWithOptions (.io leaf : Core E F true) 1 0 0 none w
    let rs : List (Request E F) := List.replicate k ⟨0, .check ent ⟨none, nofun⟩ []⟩
    let s := (Session.run rs ⟨⟨true, made.1⟩, [], made.2⟩).2
    ordinal 1 (countedTimes (.io leaf : Core E F true) (slotOf ent.level ent.message) rs)
        ent.nanos = k + 1 ∧
      ((s.core 0).2.check ent none s.world).1.isSome = admits 0 0 ((k + 1) % 2 ^ 64) := by
  intro made rs s
  have hentries : rs.filterMap Request.entry = List.replicate k ent := by
    simp only [rs, List.filterMap_replicate, Request.entry]
  have hcounted : countedTimes (.io leaf : Core E F true) (slotOf ent.level ent.message) rs =
      List.replicate k ent.nanos := by
    have henabled : (Core.io leaf : Core E F true).enabled ent.level = true := hon
    simp only [countedTimes, hentries, List.filter_replicate, henabled, hrange, Bool.and_self,
      beq_self_eq_true, ↓reduceIte, List.map_replicate]
  have hn : ordinal 1 (countedTimes (.io leaf : Core E F true) (slotOf ent.level ent.message) rs)
      ent.nanos = k + 1 := by
    rw [hcounted, ordinal_replicate Int.one_pos]
  refine ⟨hn, ?_⟩
  have hspans : ∀ e ∈ rs.filterMap Request.entry, e.InSpan 1 := by
    rw [hentries]
    intro e he
    rw [List.eq_of_mem_replicate he]
    exact hspan
  obtain ⟨content, hsamples⟩ := samples_of_reachable h hleaf 1 0 0 none hspans
  obtain ⟨b, inner, hcore, hinner⟩ := hsamples.core_eq 0
  have hzero : 0 ≤ (0 : Int64).toInt := by decide
  obtain ⟨counters, _, hcheck⟩ := hsamples.check hzero hzero rfl rfl hinner hspan none
  have hpass : ∀ w, (inner.check ent none w).1.isSome = true := by
    intro w
    cases hinner with
    | self =>
      rw [Core.check_io, if_pos hon]
      rfl
    | made fss =>
      have hlevel : (fss.foldl IoCore.withFields leaf).level.enabled ent.level = true := by
        rw [Core.foldl_level]
        exact hon
      rw [Core.made, Core.check_io, if_pos hlevel]
      rfl
  have hsame : (s.core 0).2.check ent none s.world =
      (Core.sampler inner ⟨w.next, 1, (0 : Int64).toUInt64, (0 : Int64).toUInt64, none⟩).check ent
        none s.world := by
    rw [show s.core 0 = _ from hcore]
  have hon' : (Core.io leaf : Core E F true).enabled ent.level = true := hon
  have hone : (1 : Int64).toInt = 1 := rfl
  rw [hsame, hcheck]
  simp only [hon', hrange, hone, hn, Bool.not_true, Bool.false_eq_true, ↓reduceIte]
  change _ = admits (0 : Int64).toInt.toNat (0 : Int64).toInt.toNat _
  split
  · next hadmits => rw [hpass, hadmits]
  · next hdrops => rw [Bool.eq_false_iff.mpr hdrops]; rfl

end

/-- The counter of a window wraps: the entry with the number `2 ^ 64` passes, though nothing is to
pass. -/
theorem sampler_counter_wraps :
    let _ : Host := ⟨Location.utc⟩
    let _ := Environment.reliable (Option JsonEncoder) Field
    let leaf : Core (Option JsonEncoder) Field true := .io (jsonLeaf Level.info 0)
    let made := newSamplerWithOptions leaf 1 0 0 none .start
    ∃ k, k + 1 = 2 ^ 64 ∧
      let rs : List (Request (Option JsonEncoder) Field) :=
        List.replicate k ⟨0, .check greeting ⟨none, nofun⟩ []⟩
      let s := (Session.run rs ⟨⟨true, made.1⟩, [], made.2⟩).2
      let n := ordinal 1 (countedTimes leaf (slotOf greeting.level greeting.message) rs)
        greeting.nanos
      n = 2 ^ 64 ∧ admits 0 0 n = false ∧
        ((s.core 0).2.check greeting none s.world).1.isSome = true := by
  intro _ _ leaf made
  obtain ⟨k, hk⟩ : ∃ k, k + 1 = 2 ^ 64 := ⟨2 ^ 64 - 1, by norm_num⟩
  refine ⟨k, hk, ?_⟩
  have hleaf : Reachable World.start [leaf] := Reachable.start.newCore _ _ _
  have hspan : greeting.InSpan 1 := by decide
  obtain ⟨hn, hcheck⟩ := check_replicate hleaf List.mem_cons_self hspan rfl rfl k
  rw [hk] at hn hcheck
  rw [Nat.mod_self] at hcheck
  have hdrops : ∀ m, m ≠ 0 → admits 0 0 m = false := by
    intro m hm
    simp only [admits, Nat.le_zero, hm, decide_false, Nat.lt_irrefl, Bool.false_and, Bool.or_self]
  intro rs s n
  exact ⟨hn, hdrops n (hn.trans_ne (by norm_num)), hcheck⟩

end Zap.Zapcore
