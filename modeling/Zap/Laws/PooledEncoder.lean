import Zap.Laws.PooledMethods

/-!
# Encoders and buffers are not shared

Every call keeps to what it owns, so in every interleaving of calls the objects are apart: a buffer
is in one place, an encoder in the pool is as new, and what a call writes is what its encoder, as a
value, makes of its entry and fields.
-/

set_option autoImplicit false

namespace Zap.Zapcore.Pooled

open Data

/-! ## Calls -/

section Calls

variable {r : Local} {v : JsonEncoder} {h : Handle} {fields : List Field} {fail : Local → Prop}

theorem wp_newHandle (hr : r.Bare) (console : Bool) (cfg : EncoderConfig)
    {post : Handle → Local → Prop}
    (hpost : ∀ e b, r.Fits b none →
      post ⟨console, e⟩ (r.enc e b (EncoderValue.new console cfg).json none)) :
    (newHandle console cfg).wp spec r post fail := by
  cases console with
  | false => exact ⟨hr.tidy, fun b hb _ e _ _ => hpost e b (hr.fits hb)⟩
  | true => exact ⟨hr.tidy, fun b hb _ e _ _ => hpost e b (hr.fits hb)⟩

theorem wp_withFields [Host] (hr : r.Bare) (hsees : r.task.Sees h.ref v)
    {post : Handle → Local → Prop}
    (hfail : v.addFields fields = none → ∀ r', r'.Tidy → r'.sent = r.sent → fail r')
    (hpost : ∀ e b v' refl, v.addFields fields = some v' → r.Fits b refl →
      post ⟨h.console, e⟩ (r.enc e b v' refl)) :
    (withFields h fields).wp spec r post fail := by
  show ((cloneContext h.ref).bind _).wp _ _ _ _
  rw [Prog.wp_bind]
  refine wp_cloneContext hr hsees fun e b hfit => ?_
  show ((addFields e fields).bind _).wp _ _ _ _
  rw [Prog.wp_bind]
  refine computes_addFields fields v none _ fail hfit (fun hnone v' refl' hfit' => ?_)
    fun v' _ refl' hv' hfit' => ?_
  · exact hfail (Option.map_eq_none_iff.mp hnone) _ hfit'.tidy Local.enc_sent
  · obtain ⟨v', hfields, heq⟩ := Option.map_eq_some_iff.mp hv'
    cases heq
    exact hpost e b v' refl' hfields hfit'

theorem wp_handle_encodeEntry [Host] (hr : r.Bare) (hsees : r.task.Sees h.ref v) {ent : Entry}
    {post : Nat → Local → Prop}
    (hfail : EncoderValue.encodeEntry ⟨h.console, v⟩ ent fields = none →
      ∀ r', r'.Tidy → r'.sent = r.sent → fail r')
    (hpost : ∀ l out, EncoderValue.encodeEntry ⟨h.console, v⟩ ent fields = some out →
      r.bufs l = none → post l (r.setBuf l (some out))) :
    (h.encodeEntry ent fields).wp spec r post fail := by
  obtain ⟨console, e⟩ := h
  cases console with
  | false => exact wp_encodeEntry hr hsees hfail hpost
  | true => exact wp_encodeConsoleEntry hr hsees hfail hpost

/-- A line is in one place, the call that it was returned to. -/
theorem Local.Bare.tidy_line (hr : r.Bare) {l : Nat} {bs : Bytes} (sent : List Bytes) :
    Local.Tidy { r.setBuf l (some bs) with line := some l, sent := sent } := by
  have hcases : ∀ {b p}, Local.At { r.setBuf l (some bs) with line := some l, sent := sent } b p →
      b = l ∧ p = .line r.task.call := by
    intro b p hp
    cases p with
    | pool i => exact hp.elim
    | buf e =>
      obtain ⟨obj, hobj, -⟩ := hp
      exact absurd ((congrFun hr.encs e).symm.trans hobj) (fun h => by cases h)
    | reflectBuf e =>
      obtain ⟨obj, hobj, -⟩ := hp
      exact absurd ((congrFun hr.encs e).symm.trans hobj) (fun h => by cases h)
    | line call =>
      obtain ⟨rfl, hline⟩ := hp
      exact ⟨(Option.some.inj hline).symm, rfl⟩
  constructor
  · intro b p hp
    obtain ⟨rfl, -⟩ := hcases hp
    exact ⟨bs, Function.update_self b _ _⟩
  · intro b p q hp hq
    rw [(hcases hp).2, (hcases hq).2]

theorem wp_write [Host] (hr : r.Bare) (hsees : r.task.Sees h.ref v) {call : Nat} {ent : Entry}
    (hcall : r.task.call = call) (hsent : r.sent = [])
    (hwrites : r.task.writes = EncoderValue.encodeEntry ⟨h.console, v⟩ ent fields)
    {post : Unit → Local → Prop}
    (hfail : r.task.writes = none → ∀ r', r'.Tidy → r'.sent = [] → fail r')
    (hpost : ∀ out, r.task.writes = some out → ∀ r', r'.Tidy → r'.sent = [out] → post () r') :
    (write call h ent fields).wp spec r post fail := by
  show ((h.encodeEntry ent fields).bind _).wp _ _ _ _
  rw [Prog.wp_bind]
  refine wp_handle_encodeEntry hr hsees (fun hnone r' htidy hsame => ?_) fun l out hout hfresh => ?_
  · exact hfail (hwrites.trans hnone) r' htidy (hsame.trans hsent)
  have hown : ∀ {x}, (r.setBuf l (some x)).bufs l = some x := Function.update_self l _ _
  refine ⟨hcall, ⟨out, hown⟩, hr.tidy_line _, hcall, out, hown, hwrites.trans hout, ?_⟩
  refine ⟨hr.tidy_line _, ⟨out, hown⟩, ?_⟩
  refine hpost out (hwrites.trans hout) _ (Local.Bare.tidy ⟨hr.encs, if_pos rfl⟩) ?_
  exact congrArg (· ++ [out]) hsent

end Calls

/-! ## What calls return -/

/-- A call that has returned has written its line, and the encoder that it returned stands for its
value. -/
structure Returned (encoder : Option EncoderValue) (line : Option Bytes) (a : Option Handle)
    (r : Local) : Prop where
  tidy : r.Tidy
  sent : r.sent = line.toList
  wrote (ha : a = none) : ∃ out, line = some out
  made {h : Handle} (ha : a = some h) :
    ∃ v b refl, encoder = some ⟨h.console, v⟩ ∧
      r.encs h.ref = some (objectOf v b refl) ∧ r.bufs b = some v.buf

/-- A call that has panicked would have panicked without pools. -/
structure Panicked (encoder : Option EncoderValue) (line : Option Bytes) (r : Local) : Prop where
  tidy : r.Tidy
  sent : r.sent = []
  encoder : encoder = none
  line : line = none

theorem encodersOf_concat [Host] (calls : List Call) (c : Call) :
    encodersOf (calls ++ [c]) = encodersOf calls ++ [c.encoder (encodersOf calls)] := by
  simp only [encodersOf, List.foldl_append, List.foldl_cons, List.foldl_nil]

theorem encodersOf_length [Host] (calls : List Call) :
    (encodersOf calls).length = calls.length := by
  induction calls using List.reverseRecOn with
  | nil => rfl
  | append_singleton calls c ih => simp only [encodersOf_concat, List.length_append, ih, List.length_singleton]

namespace System

variable {st : System} {i : Nat}

theorem handle_eq_some {h : Handle} (hh : st.handle i = some h) :
    st.run.threads[i]? = some (.ret (some h)) := by
  obtain ⟨p, hp, hres⟩ := Option.bind_eq_some_iff.mp (Option.join_eq_some_iff.mp hh)
  cases p with
  | ret a => cases hres; exact hp
  | panic => cases hres
  | op o next => cases hres

/-- A further call does not change what the others are for. -/
theorem lineOf_concat_ne [Host] (run : Threads Objects Op Op.Res (Option Handle)) (c : Call)
    (hi : i ≠ st.calls.length) : lineOf ⟨run, st.calls ++ [c]⟩ i = st.lineOf i := by
  rcases Nat.lt_or_gt_of_ne hi with hlt | hgt
  · simp only [lineOf, List.getElem?_append_left hlt, List.take_append_of_le_length (Nat.le_of_lt hlt)]
  · have hnone : (st.calls ++ [c])[i]? = none := List.getElem?_eq_none (by simpa using hgt)
    simp only [lineOf, hnone, List.getElem?_eq_none (Nat.le_of_lt hgt), Option.bind_none]

theorem lineOf_concat_self [Host] (run : Threads Objects Op Op.Res (Option Handle)) (c : Call) :
    lineOf ⟨run, st.calls ++ [c]⟩ st.calls.length = c.line (encodersOf st.calls) := by
  simp only [lineOf, List.getElem?_concat_length, Option.bind_some, List.take_left']

theorem encoderOf_concat_lt [Host] (run : Threads Objects Op Op.Res (Option Handle)) (c : Call)
    (hi : i < st.calls.length) : encoderOf ⟨run, st.calls ++ [c]⟩ i = st.encoderOf i := by
  rw [encoderOf, encodersOf_concat, List.getElem?_append_left (by rwa [encodersOf_length]), encoderOf]

theorem encoderOf_concat_self [Host] (run : Threads Objects Op Op.Res (Option Handle)) (c : Call) :
    encoderOf ⟨run, st.calls ++ [c]⟩ st.calls.length = c.encoder (encodersOf st.calls) := by
  rw [encoderOf, encodersOf_concat, ← encodersOf_length st.calls, List.getElem?_concat_length,
    Option.join_some]

end System

/-- The call whose encoder a call is about. -/
def Call.parent? : Call → Option Nat
  | .newEncoder _ _ => none
  | .withFields parent _ => some parent
  | .write parent _ _ => some parent

/-- The code of a call does what the call is for, from a resource that sees its encoder. -/
theorem wp_code [Host] {st : System} {c : Call} {p : Code (Option Handle)} (hp : st.code c = some p)
    {task : Task} (hcall : task.call = st.calls.length)
    (hwrites : task.writes = c.line (encodersOf st.calls))
    (hsees : ∀ parent h, c.parent? = some parent → st.handle parent = some h →
      ∃ v, st.encoderOf parent = some ⟨h.console, v⟩ ∧ task.Sees h.ref v) :
    p.wp spec (.start task)
      (Returned (c.encoder (encodersOf st.calls)) (c.line (encodersOf st.calls)))
      (Panicked (c.encoder (encodersOf st.calls)) (c.line (encodersOf st.calls))) := by
  have hbare : (Local.start task).Bare := ⟨rfl, rfl⟩
  cases c with
  | newEncoder console cfg =>
    cases hp
    show ((newHandle console cfg).bind _).wp _ _ _ _
    rw [Prog.wp_bind]
    refine wp_newHandle hbare console cfg fun e b hfit => ?_
    refine ⟨hfit.tidy, rfl, fun ha => (by cases ha), fun {h} ha => ?_⟩
    cases ha
    exact ⟨_, b, none, rfl, Local.enc_encs, Local.enc_buf⟩
  | withFields parent fields =>
    obtain ⟨h, hh, rfl⟩ := Option.map_eq_some_iff.mp hp
    obtain ⟨v, hv, hsees⟩ := hsees parent h rfl hh
    have henc : Call.encoder (encodersOf st.calls) (.withFields parent fields) =
        EncoderValue.addFields ⟨h.console, v⟩ fields := by
      rw [Call.encoder, show (encodersOf st.calls)[parent]?.join = _ from hv, Option.bind_some]
    rw [henc]
    show ((withFields h fields).bind _).wp _ _ _ _
    rw [Prog.wp_bind]
    refine wp_withFields hbare hsees (fun hnone r' htidy hsent => ?_) fun e b v' refl hv' hfit => ?_
    · refine ⟨htidy, hsent, ?_, rfl⟩
      rw [EncoderValue.addFields, hnone, Option.map_none]
    · refine ⟨hfit.tidy, Local.enc_sent, fun ha => (by cases ha), fun {h'} ha => ?_⟩
      cases ha
      refine ⟨v', b, refl, ?_, Local.enc_encs, Local.enc_buf⟩
      rw [EncoderValue.addFields, hv', Option.map_some]
  | write parent ent fields =>
    obtain ⟨h, hh, rfl⟩ := Option.map_eq_some_iff.mp hp
    obtain ⟨v, hv, hsees⟩ := hsees parent h rfl hh
    have hline : Call.line (encodersOf st.calls) (.write parent ent fields) =
        EncoderValue.encodeEntry ⟨h.console, v⟩ ent fields := by
      rw [Call.line, show (encodersOf st.calls)[parent]?.join = _ from hv, Option.bind_some]
    show ((write st.calls.length h ent fields).bind _).wp _ _ _ _
    rw [Prog.wp_bind]
    refine wp_write hbare hsees hcall rfl (hwrites.trans hline) (fun hnone r' htidy hsent => ?_)
      fun out hout r' htidy hsent => ?_
    · exact ⟨htidy, hsent, rfl, hwrites.symm.trans hnone⟩
    · have hout' : Call.line (encodersOf st.calls) (.write parent ent fields) = some out :=
        hwrites.symm.trans hout
      refine ⟨htidy, ?_, fun _ => ⟨out, hout'⟩, fun ha => (by cases ha)⟩
      rw [hsent, hout', Option.toList_some]

/-! ## Runs -/

section Seen

variable {st : System} {res : Nat → Local} {c : Call} {β : Type} (f : Local → Option β)

/-- What a new call sees: what the call has that returned its encoder. -/
def seenBy (st : System) (res : Nat → Local) (c : Call) (f : Local → Option β) : Option β :=
  c.parent?.bind fun parent => (st.handle parent).bind fun _ => f (res parent)

theorem seenBy_eq {parent : Nat} {h : Handle} (hparent : c.parent? = some parent)
    (hh : st.handle parent = some h) : seenBy st res c f = f (res parent) := by
  rw [seenBy, hparent, Option.bind_some, hh, Option.bind_some]

theorem ended_of_seenBy {x : β} (hx : seenBy st res c f = some x) :
    ∃ j, st.run.Ended j ∧ f (res j) = some x := by
  obtain ⟨parent, -, hx⟩ := Option.bind_eq_some_iff.mp hx
  obtain ⟨h, hh, hx⟩ := Option.bind_eq_some_iff.mp hx
  exact ⟨parent, ⟨_, System.handle_eq_some hh, rfl⟩, hx⟩

/-- The task of a new call. -/
def taskOf [Host] (st : System) (res : Nat → Local) (c : Call) : Task where
  call := st.calls.length
  writes := c.line (encodersOf st.calls)
  seenBufs := fun b => seenBy st res c fun r => r.bufs b
  seenEncs := fun e => seenBy st res c fun r => r.encs e

end Seen

/-- Each call has what it owns in `res`; those that have not been made have nothing. -/
structure Sound [Host] (st : System) (res : Nat → Local) : Prop where
  holds : st.run.Holds machine spec (Owned st.lineOf)
    (fun i => Returned (st.encoderOf i) (st.lineOf i))
    (fun i => Panicked (st.encoderOf i) (st.lineOf i)) res
  length : st.run.threads.length = st.calls.length
  idle {i : Nat} (hi : st.calls.length ≤ i) : ∃ task, res i = .start task

namespace Sound

variable [Host] {st st' : System} {res : Nat → Local}

/-- Wherever calls are interrupted, they are tidy. -/
theorem tidy (h : Sound st res) (i : Nat) : (res i).Tidy := by
  cases hi : st.run.threads[i]? with
  | none =>
    have hge : st.calls.length ≤ i := h.length ▸ List.getElem?_eq_none_iff.mp hi
    obtain ⟨task, htask⟩ := h.idle hge
    rw [htask]
    exact Local.Bare.tidy ⟨rfl, rfl⟩
  | some p =>
    have hp := h.holds.wp hi
    cases p with
    | ret a => exact Returned.tidy hp
    | panic => exact Panicked.tidy hp
    | op o next => exact tidy_of_spec hp (h.holds.settled hi)

theorem start : Sound .start fun i => .start ⟨i, none, fun _ => none, fun _ => none⟩ where
  length := rfl
  idle := fun _ => ⟨_, rfl⟩
  holds := {
    wp := fun hi => by cases hi
    settled := fun hi => by cases hi
    inv := {
      buffers := .empty _
      encoders := .empty _
      slices := .empty _
      line := fun _ => rfl
      lineOwned := fun h => by cases h
      written := fun _ => rfl
      right := fun h => by cases h
      call := fun _ => rfl
      writes := fun _ => rfl
      seenBufs := fun h => by cases h
      seenEncs := fun h => by cases h } }

/-- A call goes on. -/
theorem advance (h : Sound st res) {c : Choice} {i : Nat} (hstep : st.step (.step c i) = some st') :
    ∃ res', Sound st' res' := by
  obtain ⟨run, hrun, rfl⟩ := Option.map_eq_some_iff.mp hstep
  obtain ⟨r, hholds⟩ := h.holds.step (machine_meets st.lineOf) hrun
  obtain ⟨o, next, hi, rfl⟩ := Machine.step_set hrun
  obtain ⟨hlt, -⟩ := List.getElem?_eq_some_iff.mp hi
  refine ⟨_, hholds, ?_, fun {j} hj => ?_⟩
  · rw [← h.length]
    exact List.length_set
  · rw [Function.update_of_ne (Nat.ne_of_gt (Nat.lt_of_lt_of_le (h.length ▸ hlt) hj))]
    exact h.idle hj

/-- A call is made. -/
theorem spawn (h : Sound st res) {c : Choice} {call : Call}
    (hstep : st.step (.call c call) = some st') : ∃ res', Sound st' res' := by
  obtain ⟨p, hp, hst'⟩ := Option.map_eq_some_iff.mp hstep
  have hcode : p.wp spec (.start (taskOf st res call))
      (Returned (call.encoder (encodersOf st.calls)) (call.line (encodersOf st.calls)))
      (Panicked (call.encoder (encodersOf st.calls)) (call.line (encodersOf st.calls))) := by
    refine wp_code hp rfl rfl fun parent hd hparent hhd => ?_
    have hret : Returned _ _ (some hd) (res parent) := h.holds.wp (System.handle_eq_some hhd)
    obtain ⟨v, b, refl, henc, hobj, hbuf⟩ := hret.made rfl
    exact ⟨v, henc, b, refl, (seenBy_eq (fun r => r.encs hd.ref) hparent hhd).trans hobj,
      (seenBy_eq (fun r => r.bufs b) hparent hhd).trans hbuf⟩
  -- The other calls are about what they were about.
  have hline : st'.lineOf st.calls.length = call.line (encodersOf st.calls) :=
    hst' ▸ System.lineOf_concat_self _ call
  have hlines : ∀ j ≠ st.calls.length, st'.lineOf j = st.lineOf j :=
    fun j hj => hst' ▸ System.lineOf_concat_ne _ call hj
  have hencoder : st'.encoderOf st.calls.length = call.encoder (encodersOf st.calls) :=
    hst' ▸ System.encoderOf_concat_self _ call
  have hencoders : ∀ j < st.calls.length, st'.encoderOf j = st.encoderOf j :=
    fun j hj => hst' ▸ System.encoderOf_concat_lt _ call hj
  obtain ⟨old, hold⟩ := h.idle (Nat.le_refl _)
  have hinv : Owned st'.lineOf st.run.Ended
      (Function.update res st.calls.length (.start (taskOf st res call))) st.run.shared :=
    h.holds.inv.assign hold hlines rfl hline.symm
      (fun b _ => ended_of_seenBy fun r => r.bufs b) (fun e _ => ended_of_seenBy fun r => r.encs e)
  rw [← hline, ← hencoder] at hcode
  rw [← h.length] at hcode hinv
  have hspawn : ∃ r, (machine.spawn c p st.run).Holds machine spec (Owned st'.lineOf)
      (fun i => Returned (st'.encoderOf i) (st'.lineOf i))
      (fun i => Panicked (st'.encoderOf i) (st'.lineOf i))
      (Function.update res st.run.threads.length r) := by
    refine h.holds.spawn (machine_meets st'.lineOf) hinv (fun i hi => ?_) hcode
    rw [h.length] at hi
    rw [hencoders i hi, hlines i (Nat.ne_of_lt hi)]
    exact ⟨rfl, rfl⟩
  obtain ⟨r, hholds⟩ := hspawn
  have hlen : st'.calls.length = st.calls.length + 1 := by
    rw [← hst', List.length_append, List.length_singleton]
  have hrun : machine.spawn c p st.run = st'.run := hst' ▸ rfl
  rw [hrun] at hholds
  refine ⟨_, hholds, ?_, fun {j} hj => ?_⟩
  · rw [hlen, ← h.length, ← hrun, Machine.spawn, List.length_append, List.length_singleton]
  · rw [hlen] at hj
    rw [h.length, Function.update_of_ne (Nat.ne_of_gt hj)]
    exact h.idle (Nat.le_of_lt hj)

theorem step (h : Sound st res) {ev : Event} (hstep : st.step ev = some st') :
    ∃ res', Sound st' res' := by
  cases ev with
  | call c call => exact h.spawn hstep
  | step c i => exact h.advance hstep

theorem runFrom (h : Sound st res) {evs : List Event} (hrun : st.runFrom evs = some st') :
    ∃ res', Sound st' res' := by
  induction evs generalizing st res with
  | nil => cases hrun; exact ⟨res, h⟩
  | cons ev evs ih =>
    obtain ⟨st₁, hstep, hrest⟩ := Option.bind_eq_some_iff.mp hrun
    obtain ⟨res₁, h₁⟩ := h.step hstep
    exact ih h₁ hrest

end Sound

/-- Encoders and buffers out of the pools are not shared and do not leak what they were used for, in
every interleaving of calls. A buffer is in at most one place. An encoder in the pool is as new.
What a call writes is its line, as the configuration and the fields of its encoder, its entry and
its fields give it; a call that returns has written it, once, and a call panics only where it would
panic without pools. -/
theorem objects_not_shared [Host] {evs : List Event} {st : System}
    (hrun : System.start.runFrom evs = some st) :
    (∀ b p q, st.run.shared.Keeps b p → st.run.shared.Keeps b q → p = q) ∧
      (∀ e ∈ st.run.shared.encoders.free, st.run.shared.encoders.object e = .zero) ∧
      (∀ call, ∀ bs ∈ st.run.shared.written call, st.lineOf call = some bs) ∧
      (∀ call, st.run.threads[call]? = some (.ret none) →
        ∃ bs, st.lineOf call = some bs ∧ st.run.shared.written call = [bs]) ∧
      ∀ call, st.run.threads[call]? = some .panic →
        st.encoderOf call = none ∧ st.lineOf call = none := by
  obtain ⟨res, h⟩ := Sound.start.runFrom hrun
  refine ⟨fun b p q hp hq => h.holds.inv.keeps_single h.tidy hp hq,
    fun e he => (h.holds.inv.encoders.free he).2.1, fun call bs hbs => ?_, fun call hret => ?_,
    fun call hpanic => ?_⟩
  · rw [h.holds.inv.written call] at hbs
    exact (h.holds.inv.writes call).symm.trans (h.holds.inv.right hbs)
  · have hdone : Returned _ _ none (res call) := h.holds.wp hret
    obtain ⟨bs, hbs⟩ := hdone.wrote rfl
    refine ⟨bs, hbs, ?_⟩
    rw [h.holds.inv.written call, hdone.sent, hbs, Option.toList_some]
  · have hdone : Panicked _ _ (res call) := h.holds.wp hpanic
    exact ⟨hdone.encoder, hdone.line⟩

/-- A field that is encoded by reflection. -/
def reflectedFlag : Field where
  key := utf8 "flag"
  type := .reflect
  integer := 0
  string := []
  interface := .reflected {
    id := 0
    json := .ok (utf8 "true" ++ [0x0A])
    json_line := by
      intro text h
      cases h
      exact ⟨utf8 "true", .bool true, rfl, .trueWord, by decide⟩ }

/-- A configuration under which an entry has nothing but its message. -/
def messageOnly : EncoderConfig :=
  { newDevelopmentEncoderConfig with levelKey := [], timeKey := [], callerKey := [] }

def entrySaying (message : String) : Entry where
  level := Level.info
  time := Time.ofUnixNano 0 Location.utc
  loggerName := []
  message := utf8 message
  caller := ⟨false, [], 0, []⟩
  stack := []

/-- The pools give what was put there last. -/
def latest : Choice := ⟨0, []⟩

/-- Calls that go on in turn, `n` times. -/
def turns (n : Nat) (calls : List Nat) : List Event :=
  (List.replicate n (calls.map fun call => Event.step latest call)).flatten

/-- Two entries at a time on an encoder that was made with a reflected field; the first has one,
too, and is overtaken. -/
def twoWrites : List Event :=
  [.call latest (.newEncoder false messageOnly)] ++ turns 1 [0] ++
    [.call latest (.withFields 0 [reflectedFlag])] ++ turns 3 [1] ++
    [.call latest (.write 1 (entrySaying "ping") [reflectedFlag]),
      .call latest (.write 1 (entrySaying "pong") [])] ++ turns 5 [2, 3] ++ turns 2 [2]

theorem objects_not_shared_twoWrites :
    let _ : Host := ⟨Location.utc⟩
    ∃ st, System.start.runFrom twoWrites = some st ∧
      st.lineOf 2 = some (utf8 "\x7b\"M\":\"ping\",\"flag\":true,\"flag\":true\x7d\n") ∧
      st.lineOf 3 = some (utf8 "\x7b\"M\":\"pong\",\"flag\":true\x7d\n") := by
  intro host
  have hrun : (System.start.runFrom twoWrites).any (fun st => decide
      (utf8 "\x7b\"M\":\"ping\",\"flag\":true,\"flag\":true\x7d\n" ∈ st.run.shared.written 2 ∧
        utf8 "\x7b\"M\":\"pong\",\"flag\":true\x7d\n" ∈ st.run.shared.written 3)) = true := by
    decide +kernel
  obtain ⟨st, hst, hwritten⟩ := (Option.any_eq_true ..).mp hrun
  obtain ⟨hping, hpong⟩ := of_decide_eq_true hwritten
  obtain ⟨-, -, hlines, -⟩ := objects_not_shared hst
  exact ⟨st, hst, hlines 2 _ hping, hlines 3 _ hpong⟩

/-- An entry on a console encoder, with a reflected field, up to where the buffer of its context has
been freed and the scratch buffer has not. -/
def givingBack : List Event :=
  [.call latest (.newEncoder true messageOnly)] ++ turns 1 [0] ++
    [.call latest (.write 0 (entrySaying "ping") [reflectedFlag])] ++ turns 7 [1]

/-- Between the two, the buffer lies in the pool and is still the `buf` of the context. -/
theorem context_keeps_freed_buffer :
    let _ : Host := ⟨Location.utc⟩
    ∃ st, System.start.runFrom givingBack = some st ∧
      st.run.shared.Holds 2 (.pool 0) ∧ st.run.shared.Holds 2 (.buf 1) := by
  intro host
  have hrun : (System.start.runFrom givingBack).any (fun st => decide
      (st.run.shared.Holds 2 (.pool 0) ∧ st.run.shared.Holds 2 (.buf 1))) = true := by
    decide +kernel
  obtain ⟨st, hst, hholds⟩ := (Option.any_eq_true ..).mp hrun
  exact ⟨st, hst, of_decide_eq_true hholds⟩

end Zap.Zapcore.Pooled
