import Zap.Data.Bytes

/-!
# Buffered writing

Go's `bufio.Writer` over an `io.Writer` that keeps the contract of `Write`: it reports how many
bytes it took, and an error if it took fewer than it was given. What it reports is otherwise up
to the writer, which may fail at any call and remembers what it likes.

The laws account for bytes. `State.held` is what the writer below has taken followed by what is
still in the buffer. Flushing does not change it, and writing appends to it exactly the bytes
that the write reports.
-/

set_option autoImplicit false

namespace Zap.Data.Bufio

/-! ## The writer below -/

/-- What `Write` reports for `len` bytes. -/
structure Report (len : Nat) where
  n : Nat
  err : Option Bytes
  le : n ≤ len
  short : n < len → err ≠ none

/-- An `io.Writer` with states `σ`. -/
structure Device (σ : Type) where
  write : σ → (p : Bytes) → Report p.length × σ

/-- A call of the device's `Write`: the slice it was given, and what it returned. -/
structure Call where
  slice : Bytes
  n : Nat
  err : Option Bytes

/-- A device in use, with the calls it has had. -/
structure Port (σ : Type) where
  dev : σ
  calls : List Call

variable {σ : Type}

namespace Port

/-- Call the device. -/
def write (d : Device σ) (port : Port σ) (p : Bytes) : Report p.length × Port σ :=
  let r := d.write port.dev p
  (r.1, ⟨r.2, port.calls ++ [⟨p, r.1.n, r.1.err⟩]⟩)

/-- The bytes the device has taken, in order. -/
def delivered (port : Port σ) : Bytes := port.calls.flatMap fun c => c.slice.take c.n

/-- The slices the device was given. -/
def slices (port : Port σ) : List Bytes := port.calls.map Call.slice

theorem write_delivered (d : Device σ) (port : Port σ) (p : Bytes) :
    (port.write d p).2.delivered = port.delivered ++ p.take (port.write d p).1.n := by
  simp [write, delivered]

theorem write_slices (d : Device σ) (port : Port σ) (p : Bytes) :
    (port.write d p).2.slices = port.slices ++ [p] := by
  simp [write, slices]

/-- Whether a call of the device has failed. -/
def Failed (port : Port σ) : Prop := ∃ c ∈ port.calls, c.err ≠ none

theorem failed_write {d : Device σ} {port : Port σ} {p : Bytes} (h : (port.write d p).2.Failed) :
    port.Failed ∨ (port.write d p).1.err ≠ none := by
  obtain ⟨c, hc, herr⟩ := h
  rcases List.mem_append.mp hc with hc | hc
  · exact .inl ⟨c, hc, herr⟩
  · rw [List.mem_singleton.mp hc] at herr
    exact .inr herr

/-- A call that fails is among the calls. -/
theorem failed_of_write {d : Device σ} {port : Port σ} {p : Bytes}
    (h : (port.write d p).1.err ≠ none) : (port.write d p).2.Failed :=
  ⟨_, List.mem_append_right _ (List.mem_singleton_self _), h⟩

theorem Failed.mono {port port' : Port σ} (h : port.Failed) (hcalls : port.calls <+: port'.calls) :
    port'.Failed := by
  obtain ⟨c, hc, herr⟩ := h
  exact ⟨c, hcalls.subset hc, herr⟩

/-- The bytes of earlier calls stay in front. -/
theorem delivered_mono {port port' : Port σ} (h : port.calls <+: port'.calls) :
    port.delivered <+: port'.delivered := by
  obtain ⟨rest, hrest⟩ := h
  rw [delivered, delivered, ← hrest, List.flatMap_append]
  exact List.prefix_append _ _

end Port

/-- Without an error everything was taken. -/
theorem Report.full {len : Nat} (r : Report len) (h : r.err = none) : r.n = len :=
  Nat.le_antisymm r.le (Nat.le_of_not_lt fun hlt => r.short hlt h)

/-! ## The buffer -/

/-- A `bufio.Writer`. `buf` is the part of its buffer that is in use; the error is kept, and
ends all writing. -/
structure Writer where
  size : Nat
  buf : Bytes
  err : Option Bytes
  fits : buf.length ≤ size

/-- The size of a buffer for which none was asked. -/
def defaultBufSize : Nat := 4096

/-- `io.ErrShortWrite`. -/
def errShortWrite : Bytes := utf8 "short write"

/-- `NewWriterSize`. -/
def newWriterSize (size : Int) : Writer where
  size := if size ≤ 0 then defaultBufSize else size.toNat
  buf := []
  err := none
  fits := Nat.zero_le _

/-- A buffer and the device it writes to. -/
structure State (σ : Type) where
  writer : Writer
  port : Port σ

namespace State

variable (d : Device σ) (s : State σ)

def available : Nat := s.writer.size - s.writer.buf.length

/-- Copy into the buffer what there is room for. -/
def copy (p : Bytes) : State σ :=
  { s with
    writer :=
      { s.writer with
        buf := s.writer.buf ++ p.take s.available
        fits := by
          have := s.writer.fits
          simp only [List.length_append, List.length_take, available]
          omega } }

/-- Keep the error of a call, and of the buffer what the device did not take. -/
def failed (n : Nat) (err : Bytes) (port : Port σ) : State σ where
  writer :=
    { s.writer with
      buf := s.writer.buf.drop n
      err := some err
      fits := by
        have := s.writer.fits
        simp only [List.length_drop]
        omega }
  port := port

/-- The buffer was written out. -/
def emptied (port : Port σ) : State σ where
  writer := { s.writer with buf := [], fits := Nat.zero_le _ }
  port := port

/-- `Flush`. -/
def flush : Option Bytes × State σ :=
  match s.writer.err with
  | some err => (some err, s)
  | none =>
    if s.writer.buf = [] then (none, s)
    else
      let (r, port) := s.port.write d s.writer.buf
      match if r.n < s.writer.buf.length ∧ r.err = none then some errShortWrite else r.err with
      | some err => (some err, s.failed r.n err port)
      | none => (none, s.emptied port)

/-- A direct write, for data that is larger than an empty buffer. -/
def direct (p : Bytes) : Nat × State σ :=
  let r := s.port.write d p
  (r.1.n, ⟨{ s.writer with err := r.1.err }, r.2⟩)

/-- What the loop of `Write` does once: the bytes it disposes of, and the state. -/
def step (p : Bytes) : Nat × State σ :=
  if s.writer.buf = [] then s.direct d p
  else (min s.available p.length, ((s.copy p).flush d).2)

/-- How a flush can end. -/
inductive Flushed : Option Bytes → State σ → Prop
  | kept {err : Bytes} (h : s.writer.err = some err) : Flushed (some err) s
  | nothing (h : s.writer.err = none) (hbuf : s.writer.buf = []) : Flushed none s
  | failed {err : Bytes} (h : s.writer.err = none) (hbuf : s.writer.buf ≠ [])
      (hr : (s.port.write d s.writer.buf).1.err = some err) :
      Flushed (some err) (s.failed (s.port.write d s.writer.buf).1.n err
        (s.port.write d s.writer.buf).2)
  | written (h : s.writer.err = none) (hbuf : s.writer.buf ≠ [])
      (hr : (s.port.write d s.writer.buf).1.err = none) :
      Flushed none (s.emptied (s.port.write d s.writer.buf).2)

theorem flush_flushed : Flushed d s (s.flush d).1 (s.flush d).2 := by
  unfold flush
  cases herr : s.writer.err with
  | some err => exact .kept herr
  | none =>
    by_cases hbuf : s.writer.buf = []
    · simp only [hbuf, ↓reduceIte]
      exact .nothing herr hbuf
    · have hshort : ¬((s.port.write d s.writer.buf).1.n < s.writer.buf.length ∧
          (s.port.write d s.writer.buf).1.err = none) := fun h =>
        (s.port.write d s.writer.buf).1.short h.1 h.2
      simp only [hbuf, ↓reduceIte, hshort]
      cases hr : (s.port.write d s.writer.buf).1.err with
      | some err => exact .failed herr hbuf hr
      | none => exact .written herr hbuf hr

variable {d s} in
/-- A flush that succeeds leaves an empty buffer and no error. -/
theorem Flushed.none {s' : State σ} (h : Flushed d s none s') :
    s'.writer.buf = [] ∧ s'.writer.err = .none := by
  cases h with
  | nothing herr hbuf => exact ⟨hbuf, herr⟩
  | written herr _ _ => exact ⟨rfl, herr⟩

variable {d s} in
/-- The error of a flush is kept. -/
theorem Flushed.err {o : Option Bytes} {s' : State σ} (h : Flushed d s o s') :
    s'.writer.err = o := by
  cases h with
  | kept herr => exact herr
  | nothing herr _ => exact herr
  | failed _ _ _ => rfl
  | written herr _ _ => exact herr

/-- Bound on the rounds that the loop of `Write` still has to do. -/
def rounds (p : Bytes) : Nat :=
  match s.writer.err with
  | some _ => 0
  | none => 1 + 2 * p.length + (if s.writer.buf = [] then 0 else 1)

theorem rounds_step {p : Bytes} (h : s.available < p.length) (herr : s.writer.err = none) :
    (s.step d p).2.rounds (p.drop (s.step d p).1) < s.rounds p := by
  have hlen : 0 < p.length := Nat.zero_lt_of_lt h
  unfold rounds
  rw [herr]
  cases hstep : (s.step d p).2.writer.err with
  | some err => simp only; omega
  | none =>
    unfold step at hstep ⊢
    by_cases hbuf : s.writer.buf = []
    · simp only [hbuf, ↓reduceIte, direct] at hstep ⊢
      have hfull := (s.port.write d p).1.full hstep
      simp only [hfull, List.drop_length, List.length_nil]
      omega
    · simp only [hbuf, ↓reduceIte] at hstep ⊢
      have hf := (s.copy p).flush_flushed d
      rw [← hf.err, hstep] at hf
      have hempty := hf.none.1
      simp only [hempty, ↓reduceIte, List.length_drop]
      omega

/-- The loop of `Write`: while the data does not fit, dispose of some of it. Gives the count, the
data that is left and the state. -/
def writeLoop (d : Device σ) (s : State σ) (p : Bytes) (nn : Nat) : Nat × Bytes × State σ :=
  if _h : s.available < p.length ∧ s.writer.err = none then
    writeLoop d (s.step d p).2 (p.drop (s.step d p).1) (nn + (s.step d p).1)
  else (nn, p, s)
termination_by s.rounds p
decreasing_by exact s.rounds_step d _h.1 _h.2

/-- `Write`. -/
def write (p : Bytes) : (Nat × Option Bytes) × State σ :=
  let (nn, rest, s) := writeLoop d s p 0
  match s.writer.err with
  | some err => ((nn, some err), s)
  | none => ((nn + min s.available rest.length, none), s.copy rest)

/-! ## No byte is lost -/

/-- What the device has taken, and what is in the buffer. -/
def held : Bytes := s.port.delivered ++ s.writer.buf

variable {d s} in
theorem Flushed.held {o : Option Bytes} {s' : State σ} (h : Flushed d s o s') :
    s'.held = s.held := by
  cases h with
  | kept _ => rfl
  | nothing _ _ => rfl
  | failed _ _ _ =>
    simp only [State.held, State.failed, Port.write_delivered, List.append_assoc,
      List.take_append_drop]
  | written _ _ hr =>
    simp only [State.held, emptied, Port.write_delivered, Report.full _ hr, List.take_length,
      List.append_nil]

theorem copy_held (p : Bytes) : (s.copy p).held = s.held ++ p.take s.available := by
  simp only [held, copy, List.append_assoc]

/-- A round of the loop takes the bytes it counts from the front of the data. -/
theorem step_held (p : Bytes) :
    (s.step d p).1 ≤ p.length ∧ (s.step d p).2.held = s.held ++ p.take (s.step d p).1 := by
  unfold step
  split
  · next hbuf =>
    refine ⟨(s.port.write d p).1.le, ?_⟩
    simp only [held, direct, Port.write_delivered, hbuf, List.append_nil]
  · refine ⟨Nat.min_le_right _ _, ?_⟩
    rw [((s.copy p).flush_flushed d).held, copy_held]
    simp only [← List.take_eq_take_min]

/-- The loop takes the bytes it counts from the front of the data, and goes on until the rest
fits or there is an error. -/
theorem writeLoop_held (d : Device σ) (s : State σ) (p : Bytes) (nn : Nat) :
    ∃ k s', writeLoop d s p nn = (nn + k, p.drop k, s') ∧ k ≤ p.length ∧
      s'.held = s.held ++ p.take k ∧ (s'.writer.err = none → (p.drop k).length ≤ s'.available) := by
  induction s, p, nn using writeLoop.induct (d := d) with
  | case1 s p nn h ih =>
    obtain ⟨k, s', hloop, hk, hheld, hfits⟩ := ih
    obtain ⟨hn, hstep⟩ := s.step_held d p
    rw [List.length_drop] at hk
    rw [hstep, List.append_assoc, ← List.take_add] at hheld
    rw [List.drop_drop] at hloop hfits
    refine ⟨(s.step d p).1 + k, s', ?_, by omega, hheld, hfits⟩
    rw [writeLoop, dif_pos h, hloop, Nat.add_assoc]
  | case2 s p nn h =>
    refine ⟨0, s, ?_, Nat.zero_le _, ?_, fun herr => ?_⟩
    · rw [writeLoop, dif_neg h]
      rfl
    · rw [List.take_zero, List.append_nil]
    · exact Nat.le_of_not_lt fun hlt => h ⟨hlt, herr⟩

/-- A write takes the bytes it reports from the front of the data, and no others. -/
theorem write_held (p : Bytes) :
    (s.write d p).1.1 ≤ p.length ∧ (s.write d p).2.held = s.held ++ p.take (s.write d p).1.1 := by
  obtain ⟨k, s', hloop, hk, hheld, hfits⟩ := writeLoop_held d s p 0
  rw [write, hloop]
  cases herr : s'.writer.err with
  | some err =>
    simp only [herr, Nat.zero_add]
    exact ⟨hk, hheld⟩
  | none =>
    have hmin : min s'.available (p.drop k).length = (p.drop k).length := by
      have := hfits herr
      omega
    have hall := hfits herr
    simp only [herr, Nat.zero_add, hmin, copy_held, hheld, List.append_assoc, ← List.take_add]
    rw [List.length_drop] at hall ⊢
    refine ⟨by omega, ?_⟩
    rw [Nat.add_sub_cancel' hk, List.take_length, List.take_of_length_le (by omega)]

/-! ## What was delivered stays so -/

variable {d s} in
theorem Flushed.calls {o : Option Bytes} {s' : State σ} (h : Flushed d s o s') :
    s.port.calls <+: s'.port.calls := by
  cases h with
  | kept _ => exact List.prefix_rfl
  | nothing _ _ => exact List.prefix_rfl
  | failed _ _ _ => exact List.prefix_append _ _
  | written _ _ _ => exact List.prefix_append _ _

theorem step_calls (p : Bytes) : s.port.calls <+: (s.step d p).2.port.calls := by
  unfold step
  split
  · exact List.prefix_append _ _
  · exact ((s.copy p).flush_flushed d).calls

theorem writeLoop_calls (d : Device σ) (s : State σ) (p : Bytes) (nn : Nat) :
    s.port.calls <+: (writeLoop d s p nn).2.2.port.calls := by
  induction s, p, nn using writeLoop.induct (d := d) with
  | case1 s p nn h ih =>
    rw [writeLoop, dif_pos h]
    exact (s.step_calls d p).trans ih
  | case2 s p nn h =>
    rw [writeLoop, dif_neg h]

theorem write_calls (p : Bytes) : s.port.calls <+: (s.write d p).2.port.calls := by
  have hloop := writeLoop_calls d s p 0
  obtain ⟨k, s', hsame, _⟩ := writeLoop_held d s p 0
  rw [hsame] at hloop
  rw [write, hsame]
  cases herr : s'.writer.err with
  | some err => simp only [herr]; exact hloop
  | none => simp only [herr]; exact hloop

/-! ## An error ends all writing -/

/-- The buffer knows of a call that failed. -/
def Sticky : Prop := s.port.Failed → s.writer.err ≠ none

variable {d s} in
theorem Sticky.flushed {o : Option Bytes} {s' : State σ} (h : s.Sticky) (hf : Flushed d s o s') :
    s'.Sticky := by
  cases hf with
  | kept _ => exact h
  | nothing _ _ => exact h
  | failed _ _ _ => exact fun _ => Option.some_ne_none _
  | written herr _ hr =>
    intro hfailed
    rcases Port.failed_write hfailed with hfailed | hnew
    · exact absurd herr (h hfailed)
    · exact absurd hr hnew

variable {s} in
/-- A round of the loop, which is only made if there is no error. -/
theorem Sticky.step (h : s.Sticky) (herr : s.writer.err = none) (p : Bytes) :
    (s.step d p).2.Sticky := by
  unfold State.step
  split
  · intro hfailed
    rcases Port.failed_write hfailed with hfailed | hnew
    · exact absurd herr (h hfailed)
    · exact hnew
  · have hcopy : (s.copy p).Sticky := h
    exact hcopy.flushed ((s.copy p).flush_flushed d)

theorem Sticky.writeLoop {s : State σ} (h : s.Sticky) (p : Bytes) (nn : Nat) :
    (writeLoop d s p nn).2.2.Sticky := by
  induction s, p, nn using writeLoop.induct (d := d) with
  | case1 s p nn hgo ih =>
    rw [State.writeLoop, dif_pos hgo]
    exact ih (h.step d hgo.2 p)
  | case2 s p nn hgo =>
    rw [State.writeLoop, dif_neg hgo]
    exact h

variable {s} in
theorem Sticky.write (h : s.Sticky) (p : Bytes) : (s.write d p).2.Sticky := by
  have hloop := h.writeLoop d p 0
  unfold State.write
  generalize State.writeLoop d s p 0 = r at hloop
  obtain ⟨nn, rest, s'⟩ := r
  cases herr : s'.writer.err with
  | some err => simp only [herr]; exact hloop
  | none => simp only [herr]; exact hloop

/-! ## Where an error comes from -/

/-- An error that the buffer keeps is one of the device. -/
def Truthful : Prop := s.writer.err ≠ none → s.port.Failed

variable {d s} in
theorem Truthful.flushed {o : Option Bytes} {s' : State σ} (h : s.Truthful) (hf : Flushed d s o s') :
    s'.Truthful := by
  cases hf with
  | kept _ => exact h
  | nothing _ _ => exact h
  | failed _ _ hr => exact fun _ => Port.failed_of_write (hr ▸ Option.some_ne_none _)
  | written herr _ _ => exact fun hne => absurd herr hne

variable {s} in
theorem Truthful.step (h : s.Truthful) (p : Bytes) : (s.step d p).2.Truthful := by
  unfold State.step
  split
  · exact Port.failed_of_write
  · have hcopy : (s.copy p).Truthful := h
    exact hcopy.flushed ((s.copy p).flush_flushed d)

theorem Truthful.writeLoop {s : State σ} (h : s.Truthful) (p : Bytes) (nn : Nat) :
    (writeLoop d s p nn).2.2.Truthful := by
  induction s, p, nn using writeLoop.induct (d := d) with
  | case1 s p nn hgo ih =>
    rw [State.writeLoop, dif_pos hgo]
    exact ih (h.step d p)
  | case2 s p nn hgo =>
    rw [State.writeLoop, dif_neg hgo]
    exact h

/-- `Write` returns the error that the buffer then keeps, and without one it has taken all. -/
theorem write_spec (p : Bytes) :
    (s.write d p).1.2 = (s.write d p).2.writer.err ∧
      ((s.write d p).1.2 = none → (s.write d p).1.1 = p.length) ∧
      (s.Truthful → (s.write d p).2.Truthful) := by
  have htruth := fun h : s.Truthful => h.writeLoop d p 0
  obtain ⟨k, s', hloop, hk, -, hfits⟩ := writeLoop_held d s p 0
  rw [hloop] at htruth
  rw [write, hloop]
  cases herr : s'.writer.err with
  | some err =>
    simp only [herr]
    exact ⟨trivial, fun h => (by cases h), htruth⟩
  | none =>
    simp only [herr, List.length_drop]
    refine ⟨herr.symm, fun _ => ?_, htruth⟩
    have hrest := hfits herr
    rw [List.length_drop] at hrest
    omega

/-! ## Writes that are not split -/

/-- Data that fits is copied, and the device is not called. -/
theorem write_fits {p : Bytes} (h : p.length ≤ s.available) (herr : s.writer.err = none) :
    s.write d p = ((p.length, none), s.copy p) := by
  rw [write, writeLoop, dif_neg fun hlt => Nat.not_lt_of_le h hlt.1]
  simp only [herr, Nat.zero_add, Nat.min_eq_right h]

theorem copy_buf {p : Bytes} (h : p.length ≤ s.available) :
    (s.copy p).writer.buf = s.writer.buf ++ p := by
  exact congrArg (s.writer.buf ++ ·) (List.take_of_length_le h)

theorem copy_nil : s.copy [] = s := by
  obtain ⟨⟨size, buf, err, fits⟩, port⟩ := s
  simp only [copy, List.take_nil, List.append_nil]

/-- Data that does not fit into an empty buffer goes to the device in one call. -/
theorem write_direct {p : Bytes} (h : s.available < p.length) (herr : s.writer.err = none)
    (hbuf : s.writer.buf = []) : (s.write d p).2 = (s.direct d p).2 := by
  have hstep : s.step d p = s.direct d p := by rw [step, if_pos hbuf]
  rw [write, writeLoop, dif_pos ⟨h, herr⟩, hstep]
  cases hr : (s.port.write d p).1.err with
  | some err =>
    have hdirect : (s.direct d p).2.writer.err = some err := hr
    rw [writeLoop, dif_neg (by rw [hdirect]; nofun)]
    simp only [hdirect]
  | none =>
    have hdirect : (s.direct d p).2.writer.err = none := hr
    have hdrop : p.drop (s.direct d p).1 = [] := by
      rw [direct, Report.full _ hr, List.drop_length]
    rw [hdrop, writeLoop, dif_neg fun hlt => Nat.not_lt_zero _ hlt.1]
    simp only [hdirect, copy_nil]

/-- After an error a write does nothing. -/
theorem write_err {p : Bytes} {err : Bytes} (herr : s.writer.err = some err) :
    s.write d p = ((0, some err), s) := by
  rw [write, writeLoop, dif_neg (by rw [herr]; nofun)]
  simp only [herr]

end State

end Zap.Data.Bufio
