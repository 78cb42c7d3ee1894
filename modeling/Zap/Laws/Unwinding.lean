import Zap.Laws.Programs
import Zap.Laws.Terminal
import Zap.Zapcore.Unwinding

/-!
# Where cores return

Encoders that panic and encoders that do not. Each operation on a core goes along with the operation of
`Zap.Zapcore.Core`, which cannot panic (`withFields?_tracks`, `check?_tracks`, `write?_tracks`,
`sync?_tracks`): it returns what that one returns, or it panics, and then it has called no `OnWrite`. So
a program of which no call has panicked is in a state of `Reachable` (`Reachable.returned`), and what is
proved about those states holds for it.

When they return is a matter of encoders and fields. `Steady` says of some encoders that they do not
panic on some fields, and that adding such fields gives such an encoder; a core is `Within` them if
its leaves have such encoders and its lazy cores such fields. Then the core is `Calm` in every state of
a program of which no call has panicked (`Calm.of_valid`), and no operation on it panics.
-/

set_option autoImplicit false

namespace Zap.Zapcore

open Data Attempt

variable {E F : Type} {b : Bool}

/-- The calls of `OnWrite` are `v`. -/
def OnWrites (v : List (CheckWriteHook × Entry × List F)) (w : World E F) : Prop :=
  onWritesOf w.trace = v

theorem OnWrites.decided {v : List (CheckWriteHook × Entry × List F)} {w : World E F}
    (h : OnWrites v w) (s : Sampler) (ent : Entry) (d : SamplingDecision) :
    OnWrites v (w.decided s ent d) ∧ (w.decided s ent d).cells = w.cells := by
  unfold World.decided
  cases s.hook with
  | none => exact ⟨h, rfl⟩
  | some hook => exact ⟨(onWritesOf_emit w rfl).trans h, rfl⟩

/-! ## Encoders and fields that do not panic -/

/-- The cells are as programs leave them none of whose calls has panicked. -/
structure Cells.Sound (content : Nat → Core E F false) (cells : Cells E F) : Prop where
  agrees : cells.Agrees content
  once : cells.Once

theorem Fills.sound {content : Nat → Core E F false} {n : Nat} {cells cells' : Cells E F}
    (h : Fills content n cells cells') (hsound : cells.Sound content) : cells'.Sound content :=
  ⟨h.agrees hsound.agrees, h.once hsound.once⟩

/-- Encoders that are `ok` do not panic on fields that are `fine`, and are `ok` with those added. -/
structure Steady [Encoder E F] [Panics E F] (ok : E → Prop) (fine : F → Prop) : Prop where
  addFields {enc : E} {fields : List F} (henc : ok enc) (hfields : ∀ f ∈ fields, fine f) :
    Panics.addFields enc fields = false ∧ ok (Encoder.addFields enc fields)
  encodeEntry {enc : E} {fields : List F} (henc : ok enc) (hfields : ∀ f ∈ fields, fine f)
    (ent : Entry) : Panics.encodeEntry enc ent fields = false

/-- What has registered are leaves whose encoders are `ok`, and hooks; and what is called before they
are written to makes no other fields of `fine` ones. -/
structure CheckedEntry.Within (ok : E → Prop) (fine : F → Prop) (ce : Option (CheckedEntry E F)) :
    Prop where
  cores : ∀ core ∈ CheckedEntry.registered ce,
    ∃ k, Kind.of core = some k ∧ ∀ leaf, k = .leaf leaf → ok leaf.enc
  before : ∀ ce', ce = some ce' → ∀ hook ∈ ce'.before, ∀ ent fields, (∀ f ∈ fields, fine f) →
    ∀ f ∈ (hook ent fields).2, fine f

namespace CheckedEntry.Within

variable {ok : E → Prop} {fine : F → Prop}

theorem none : CheckedEntry.Within ok fine (.none : Option (CheckedEntry E F)) where
  cores core hcore := by cases hcore
  before ce' h := by cases h

theorem addCore {ce : Option (CheckedEntry E F)} (h : CheckedEntry.Within ok fine ce) (ent : Entry)
    {core : Core E F b} {k : Kind E} (hk : Kind.of ⟨b, core⟩ = some k)
    (hok : ∀ leaf, k = .leaf leaf → ok leaf.enc) :
    CheckedEntry.Within ok fine (some (CheckedEntry.addCore ce ent core)) where
  cores core' hcore' := by
    have hmem : core' ∈ CheckedEntry.registered ce ++ [⟨b, core⟩] := by
      cases ce with
      | none => exact hcore'
      | some ce => exact hcore'
    rcases List.mem_append.mp hmem with hmem | hmem
    · exact h.cores core' hmem
    · rw [List.mem_singleton.mp hmem]
      exact ⟨k, hk, hok⟩
  before ce' heq hook hhook := by
    cases heq
    cases ce with
    | none => cases hhook
    | some ce => exact h.before ce rfl hook hhook

end CheckedEntry.Within

namespace Core

mutual
/-- The encoders of the leaves are `ok`, and the fields of lazy cores are `fine`. -/
def Within (ok : E → Prop) (fine : F → Prop) : Core E F b → Prop
  | .nop => True
  | .io core => ok core.enc
  | .multi cores => WithinAll ok fine cores
  | .hooked core _ => core.Within ok fine
  | .levelFilter core _ => core.Within ok fine
  | .sampler core _ => core.Within ok fine
  | .lazyWith _ _ original own => (∀ f ∈ own, fine f) ∧ original.Within ok fine
def WithinAll (ok : E → Prop) (fine : F → Prop) : List (Core E F b) → Prop
  | [] => True
  | core :: cores => core.Within ok fine ∧ WithinAll ok fine cores
end

variable {ok : E → Prop} {fine : F → Prop}

theorem within_cons {core : Core E F b} {cores : List (Core E F b)} :
    (multi (core :: cores)).Within ok fine ↔
      core.Within ok fine ∧ (multi cores).Within ok fine := Iff.rfl

variable [Encoder E F] [Panics E F]

theorem Within.made (hsteady : Steady ok fine) {core : Core E F b} (h : core.Within ok fine)
    {fss : List (List F)} (hfss : ∀ fs ∈ fss, ∀ f ∈ fs, fine f) : (core.made fss).Within ok fine := by
  induction core generalizing fss with
  | nop => trivial
  | io core =>
    have hfold : ∀ (fss : List (List F)) (core : IoCore E), ok core.enc →
        (∀ fs ∈ fss, ∀ f ∈ fs, fine f) → ok (fss.foldl IoCore.withFields core).enc := by
      intro fss
      induction fss with
      | nil => exact fun core h _ => h
      | cons fs fss ih =>
        intro core h hfss
        obtain ⟨hfs, hfss⟩ := List.forall_mem_cons.mp hfss
        exact ih (core.withFields fs) (hsteady.addFields h hfs).2 hfss
    exact hfold fss core h hfss
  | nil => trivial
  | cons core cores ih ihs => exact ⟨ih (within_cons.mp h).1 hfss, ihs (within_cons.mp h).2 hfss⟩
  | hooked core funcs ih => exact ih h hfss
  | levelFilter core level ih => exact ih h hfss
  | sampler core s ih => exact ih h hfss
  | lazyWith _ ref original own ih => exact ih h.2 (List.forall_mem_cons.mpr ⟨h.1, hfss⟩)

/-- What keeps the operations on a core from panicking: encoders and fields that do not, and a program
of which no call has. -/
structure Calm (ok : E → Prop) (fine : F → Prop) (content : Nat → Core E F false) (core : Core E F b)
    (w : World E F) : Prop where
  steady : Steady ok fine
  within : core.Within ok fine
  coherent : core.Coherent content
  below : ∃ n, core.Below n
  sound : w.cells.Sound content

variable {content : Nat → Core E F false} {w : World E F}
  {v : List (CheckWriteHook × Entry × List F)}

/-- A core of a program of which no call has panicked. -/
theorem Calm.of_valid {cores : List (Core E F true)} (h : Valid content w cores)
    (hsteady : Steady ok fine) {core : Core E F true} (hcore : core ∈ cores)
    (hin : core.Within ok fine) : core.Calm ok fine content w :=
  ⟨hsteady, hin, h.coherent core hcore, ⟨_, h.below core hcore⟩, h.agrees, h.once⟩

namespace Calm

theorem move {core : Core E F b} (h : core.Calm ok fine content w) {w' : World E F}
    (hsound : w'.cells.Sound content) : core.Calm ok fine content w' :=
  { h with sound := hsound }

theorem head {core : Core E F b} {cores : List (Core E F b)}
    (h : (multi (core :: cores)).Calm ok fine content w) : core.Calm ok fine content w :=
  ⟨h.steady, h.within.1, h.coherent.1, h.below.imp fun _ hn => hn.1, h.sound⟩

theorem tail {core : Core E F b} {cores : List (Core E F b)}
    (h : (multi (core :: cores)).Calm ok fine content w) : (multi cores).Calm ok fine content w :=
  ⟨h.steady, h.within.2, h.coherent.2, h.below.imp fun _ hn => hn.2, h.sound⟩

theorem hooked {core : Core E F b} {funcs : List Nat}
    (h : (Core.hooked core funcs).Calm ok fine content w) : core.Calm ok fine content w :=
  ⟨h.steady, h.within, h.coherent, h.below, h.sound⟩

theorem levelFilter {core : Core E F b} {level : LevelEnabler}
    (h : (Core.levelFilter core level).Calm ok fine content w) : core.Calm ok fine content w :=
  ⟨h.steady, h.within, h.coherent, h.below, h.sound⟩

theorem sampler {core : Core E F b} {s : Sampler}
    (h : (Core.sampler core s).Calm ok fine content w) : core.Calm ok fine content w :=
  ⟨h.steady, h.within, h.coherent, h.below.imp fun _ hn => hn.2, h.sound⟩

section

variable {hb : b = true} {ref : Nat} {wrapped : Core E F b} {own : List F}
  (h : (lazyWith hb ref wrapped own).Calm ok fine content w)

include h

theorem original : wrapped.Calm ok fine content w :=
  ⟨h.steady, h.within.2, h.coherent.2.2, ⟨ref, h.coherent.2.1⟩, h.sound⟩

theorem initOnce :
    (initOnce ref wrapped own w).1.Calm ok fine content (initOnce ref wrapped own w).2 := by
  obtain ⟨cells, hinit, hfills⟩ := initOnce_eq h.coherent h.sound.agrees
  rw [hinit]
  exact ⟨h.steady, h.within.2.made h.steady (List.forall_mem_singleton.mpr h.within.1),
    coherent_eager content _, ⟨ref, h.coherent.2.1.made [own]⟩, hfills.sound h.sound⟩

end

variable {core : Core E F b} (h : core.Calm ok fine content w)

include h

theorem withFields (fields : List F) : (core.withFields fields w).2.cells.Sound content := by
  obtain ⟨n, hbelow⟩ := h.below
  obtain ⟨cells, hwith, hfills⟩ := withFields_eq h.coherent hbelow h.sound.agrees fields
  rw [hwith]
  exact hfills.sound h.sound

/-- `With` gives such a core. -/
theorem made {fields : List F} (hfields : ∀ f ∈ fields, fine f) :
    (core.withFields fields w).1.Calm ok fine content (core.withFields fields w).2 := by
  obtain ⟨n, hbelow⟩ := h.below
  have hsound := h.withFields fields
  obtain ⟨cells, hwith, _⟩ := withFields_eq h.coherent hbelow h.sound.agrees fields
  rw [hwith] at hsound ⊢
  exact ⟨h.steady, h.within.made h.steady (List.forall_mem_singleton.mpr hfields),
    coherent_eager content _, ⟨n, hbelow.made [fields]⟩, hsound⟩

theorem check (ent : Entry) (ce : Option (CheckedEntry E F)) :
    (core.check ent ce w).2.cells.Sound content := by
  obtain ⟨n, hbelow⟩ := h.below
  exact (surveyed ent h.coherent hbelow ce w h.sound.agrees).cells.sound h.sound

variable [Environment E F]

theorem write (ent : Entry) (fields : List F) :
    (core.write ent fields w).2.cells.Sound content := by
  obtain ⟨n, hbelow⟩ := h.below
  exact (write_outward h.coherent hbelow ent fields w h.sound.agrees).cells.sound h.sound

theorem sync : (core.sync w).2.cells.Sound content := by
  obtain ⟨n, hbelow⟩ := h.below
  exact (sync_outward h.coherent hbelow w h.sound.agrees).cells.sound h.sound

end Calm

/-! ## `With` -/

/-- A tee with one more core in front. -/
def prepend (core : Core E F b) : Core E F b → Core E F b
  | .multi cores => .multi (core :: cores)
  | other => other

omit [Panics E F] in
theorem withFields_prepend (fields : List F) (w : World E F) (core : Core E F b)
    (cores : List (Core E F b)) :
    (multi (core :: cores)).withFields fields w =
      ((core.withFields fields w).1.prepend
          ((multi cores).withFields fields (core.withFields fields w).2).1,
        ((multi cores).withFields fields (core.withFields fields w).2).2) := by
  cases b <;> rfl

theorem withUsing?_cons
    (down : Core E F false → List F → World E F → Attempt (World E F) (Core E F false))
    (fields : List F) (w : World E F) (core : Core E F b) (cores : List (Core E F b)) :
    withUsing? down (multi (core :: cores)) fields w =
      (withUsing? down core fields w).bind fun core w =>
        (withUsing? down (multi cores) fields w).bind fun cores w =>
          (some (core.prepend cores), w) := by
  simp only [withUsing?, withAll?, Attempt.bind_assoc]
  rfl

omit [Panics E F] in
/-- `initOnce` goes along if `With` of the wrapped core does. In a program of which no call has panicked,
no `Once` is done whose cell is empty. -/
theorem doOnce_tracks {calm : Prop} {ref : Nat} {original : Core E F b} {own : List F}
    {made : World E F → Attempt (World E F) (Core E F false)} (hw : OnWrites v w)
    (honce : calm → w.cells.Once) (h : (made w).Tracks calm (OnWrites v) (original.withFields own w)) :
    (w.doOnce ref made).Tracks calm (OnWrites v) (initOnce ref original own w) := by
  unfold World.doOnce initOnce
  cases hmade : w.cells.made ref with
  | some core => exact tracks_of (core, w)
  | none =>
    simp only
    split
    next hspent =>
      refine tracks_panic (fun hcalm => ?_) hw _
      have hcount := honce hcalm ref
      rw [hmade] at hcount
      exact List.count_eq_zero.mp hcount hspent
    next =>
      obtain heq | ⟨hcalm, hnone, hquiet⟩ := h
      · rw [heq]
        exact .inl rfl
      · generalize made w = o at hnone hquiet
        obtain ⟨_ | core, w'⟩ := o
        · exact .inr ⟨hcalm, rfl, hquiet⟩
        · cases hnone

theorem withUsing?_tracks
    {down : Core E F false → List F → World E F → Attempt (World E F) (Core E F false)}
    (hdown : b = true → ∀ core fields w, OnWrites v w →
      (down core fields w).Tracks (core.Calm ok fine content w ∧ ∀ f ∈ fields, fine f) (OnWrites v)
        (core.withFields fields w))
    (core : Core E F b) (fields : List F) (w : World E F) (hw : OnWrites v w) :
    (withUsing? down core fields w).Tracks (core.Calm ok fine content w ∧ ∀ f ∈ fields, fine f)
      (OnWrites v) (core.withFields fields w) := by
  induction core generalizing fields w with
  | nop =>
    rw [withFields_nop]
    exact tracks_of (_, w)
  | io core =>
    rw [withFields_io, withUsing?, IoCore.withFields?]
    split
    next hpanics =>
      refine tracks_panic (fun h => ?_) hw _
      cases hpanics.symm.trans (h.1.steady.addFields h.1.within h.2).1
    next => exact tracks_of (_, w)
  | nil =>
    rw [withFields_nil]
    exact tracks_of (_, w)
  | cons core cores ih ihs =>
    have hquiet : OnWrites v (core.withFields fields w).2 :=
      (congrArg onWritesOf (core.withFields_trace fields w)).trans hw
    rw [withUsing?_cons, withFields_prepend]
    refine ((ih fields w hw).mono fun h => ⟨h.1.head, h.2⟩).bind ?_
    refine ((ihs fields _ hquiet).mono fun h => ?_).bind (tracks_of (_, _))
    exact ⟨h.1.tail.move (h.1.head.withFields fields), h.2⟩
  | hooked core funcs ih =>
    rw [withFields_hooked]
    exact ((ih fields w hw).mono fun h => ⟨h.1.hooked, h.2⟩).bind (tracks_of (_, _))
  | levelFilter core level ih =>
    rw [withFields_levelFilter]
    exact ((ih fields w hw).mono fun h => ⟨h.1.levelFilter, h.2⟩).bind (tracks_of (_, _))
  | sampler core s ih =>
    rw [withFields_sampler]
    exact ((ih fields w hw).mono fun h => ⟨h.1.sampler, h.2⟩).bind (tracks_of (_, _))
  | lazyWith hb ref original own ih =>
    have hquiet : OnWrites v (initOnce ref original own w).2 :=
      (congrArg onWritesOf (initOnce_trace ref original own w)).trans hw
    rw [withFields_lazyWith]
    refine Tracks.bind (doOnce_tracks hw (fun h => h.1.sound.once) ?_)
      ((hdown hb _ fields _ hquiet).mono fun h => ⟨h.1.initOnce, h.2⟩)
    exact (ih own w hw).mono fun h => ⟨h.1.original, h.1.within.1⟩

theorem withFields?_tracks (core : Core E F b) (fields : List F) (hw : OnWrites v w) :
    (core.withFields? fields w).Tracks (core.Calm ok fine content w ∧ ∀ f ∈ fields, fine f) (OnWrites v)
      (core.withFields fields w) := by
  cases b with
  | false => exact withUsing?_tracks (fun hb => by cases hb) core fields w hw
  | true =>
    exact withUsing?_tracks (fun _ => withUsing?_tracks fun hb => by cases hb) core fields w hw

theorem initOnce?_tracks (hb : b = true) (ref : Nat) (original : Core E F b) (own : List F)
    (hw : OnWrites v w) :
    (initOnce? ref original own w).Tracks ((lazyWith hb ref original own).Calm ok fine content w)
      (OnWrites v) (initOnce ref original own w) :=
  doOnce_tracks hw (fun h => h.sound.once)
    ((original.withFields?_tracks own hw).mono fun h => ⟨h.original, h.within.1⟩)

theorem withFields?_returned {core : Core E F b} {fields : List F} {made : Core E F false}
    {w' : World E F} (h : core.withFields? fields w = (some made, w')) :
    core.withFields fields w = (made, w') :=
  (@withFields?_tracks E F b (fun _ => True) (fun _ => True) _ _ (fun _ => .nop) w _ core fields
    rfl).returned h

/-! ## `Check` -/

omit [Encoder E F] [Panics E F] in
/-- A sampler's decision, around a `Check` that goes along. -/
theorem checkSampled_tracks {calm : Prop} {P : Option (CheckedEntry E F) → Prop} {s : Sampler}
    {enabled : Bool} {ent : Entry} {ce : Option (CheckedEntry E F)}
    {inner? : World E F → Attempt (World E F) (Option (CheckedEntry E F))}
    {inner : World E F → Option (CheckedEntry E F) × World E F} (hw : OnWrites v w) (hce : P ce)
    (h : ∀ w', OnWrites v w' → w'.cells = w.cells →
      (inner? w').Tracks calm (OnWrites v) (inner w') ∧ P (inner w').1) :
    Tracks calm (OnWrites v) (checkSampled s enabled ent inner? (some ce) w)
        (checkSampled s enabled ent inner ce w) ∧
      P (checkSampled s enabled ent inner ce w).1 := by
  have hw' : OnWrites v (w.incCheckReset s ent).2 := hw
  unfold checkSampled
  split
  next => exact ⟨tracks_of (ce, w), hce⟩
  next =>
    split
    next =>
      simp only
      split
      next => exact ⟨tracks_of (ce, _), hce⟩
      next => exact h _ (hw'.decided s ent _).1 (hw'.decided s ent _).2
    next => exact h w hw rfl

theorem checkUsing?_tracks {ent : Entry}
    {down : Core E F false → Entry → Option (CheckedEntry E F) → World E F →
      Attempt (World E F) (Option (CheckedEntry E F))}
    (hdown : b = true → ∀ core ce w, OnWrites v w →
      (down core ent ce w).Tracks (core.Calm ok fine content w) (OnWrites v) (core.check ent ce w) ∧
        (core.Calm ok fine content w → CheckedEntry.Within ok fine ce →
          CheckedEntry.Within ok fine (core.check ent ce w).1))
    (core : Core E F b) (ce : Option (CheckedEntry E F)) (w : World E F) (hw : OnWrites v w) :
    (checkUsing? down core ent ce w).Tracks (core.Calm ok fine content w) (OnWrites v)
        (core.check ent ce w) ∧
      (core.Calm ok fine content w → CheckedEntry.Within ok fine ce →
        CheckedEntry.Within ok fine (core.check ent ce w).1) := by
  induction core generalizing ce w with
  | nop =>
    rw [check_nop]
    exact ⟨tracks_of (ce, w), fun _ hce => hce⟩
  | io core =>
    rw [check_io, checkUsing?]
    split
    next =>
      refine ⟨tracks_of (_, w), fun h hce => hce.addCore ent rfl fun leaf hleaf => ?_⟩
      cases hleaf
      exact h.within
    next => exact ⟨tracks_of (ce, w), fun _ hce => hce⟩
  | nil =>
    rw [check_nil]
    exact ⟨tracks_of (ce, w), fun _ hce => hce⟩
  | cons core cores ih ihs =>
    obtain ⟨hfirst, hreg⟩ := ih ce w hw
    obtain ⟨hrest, hregs⟩ := ihs (core.check ent ce w).1 (core.check ent ce w).2
      ((core.check_quietly ent ce w).2.trans hw)
    have hmove : ∀ h : (multi (core :: cores)).Calm ok fine content w,
        (multi cores).Calm ok fine content (core.check ent ce w).2 :=
      fun h => h.tail.move (h.head.check ent ce)
    rw [check_cons]
    exact ⟨(hfirst.mono Calm.head).bind (hrest.mono hmove),
      fun h hce => hregs (hmove h) (hreg h.head hce)⟩
  | hooked core funcs ih =>
    obtain ⟨hinner, hreg⟩ := ih ce w hw
    rw [check_hooked]
    refine ⟨(hinner.mono Calm.hooked).bind (tracks_of (_, _)), fun h hce => ?_⟩
    have hreg := hreg h.hooked hce
    cases hdown : (core.check ent ce w).1 with
    | none => exact hce
    | some downstream =>
      rw [hdown] at hreg
      exact hreg.addCore ent rfl fun leaf h => by cases h
  | levelFilter core level ih =>
    rw [check_levelFilter, checkUsing?]
    split
    next => exact ⟨tracks_of (ce, w), fun _ hce => hce⟩
    next =>
      obtain ⟨hinner, hreg⟩ := ih ce w hw
      exact ⟨hinner.mono Calm.levelFilter, fun h => hreg h.levelFilter⟩
  | sampler core s ih =>
    rw [check_sampler, checkUsing?]
    refine checkSampled_tracks (P := fun out => Core.Calm ok fine content (.sampler core s) w →
      CheckedEntry.Within ok fine ce → CheckedEntry.Within ok fine out) hw (fun _ hce => hce)
      fun w' hw' hcells => ?_
    obtain ⟨hinner, hreg⟩ := ih ce w' hw'
    have hmove : ∀ h : (Core.sampler core s).Calm ok fine content w,
        core.Calm ok fine content w' := fun h => h.sampler.move (hcells ▸ h.sound)
    exact ⟨hinner.mono hmove, fun h => hreg (hmove h)⟩
  | lazyWith hb ref original own _ =>
    rw [check_lazyWith, checkUsing?]
    split
    next => exact ⟨tracks_of (ce, w), fun _ hce => hce⟩
    next =>
      obtain ⟨hmade, hreg⟩ := hdown hb (initOnce ref original own w).1 ce _
        ((congrArg onWritesOf (initOnce_trace ref original own w)).trans hw)
      exact ⟨(initOnce?_tracks hb ref original own hw).bind (hmade.mono Calm.initOnce),
        fun h => hreg h.initOnce⟩

theorem check?_tracks (core : Core E F b) (ent : Entry) (ce : Option (CheckedEntry E F))
    (hw : OnWrites v w) :
    (core.check? ent ce w).Tracks (core.Calm ok fine content w) (OnWrites v) (core.check ent ce w) ∧
      (core.Calm ok fine content w → CheckedEntry.Within ok fine ce →
        CheckedEntry.Within ok fine (core.check ent ce w).1) := by
  cases b with
  | false => exact checkUsing?_tracks (fun hb => by cases hb) core ce w hw
  | true =>
    exact checkUsing?_tracks (fun _ => checkUsing?_tracks fun hb => by cases hb) core ce w hw

theorem check?_returned {core : Core E F b} {ent : Entry} {ce ce' : Option (CheckedEntry E F)}
    {w' : World E F} (h : core.check? ent ce w = (some ce', w')) :
    core.check ent ce w = (ce', w') :=
  (@check?_tracks E F b (fun _ => True) (fun _ => True) _ _ (fun _ => .nop) w _ core ent ce
    rfl).1.returned h

end Core

/-! ## `Write` and `Sync` -/

section

variable [Encoder E F] [Panics E F] [Environment E F] {ok : E → Prop} {fine : F → Prop}
  {content : Nat → Core E F false} {w : World E F}
  {v : List (CheckWriteHook × Entry × List F)}

theorem IoCore.write?_tracks (core : IoCore E) (ent : Entry) (fields : List F) (hw : OnWrites v w) :
    (core.write? ent fields w).Tracks (Steady ok fine ∧ ok core.enc ∧ ∀ f ∈ fields, fine f)
      (OnWrites v) (core.write ent fields w) := by
  have hquiet : OnWrites v (w.emit (.write core ent fields)) := (onWritesOf_emit w rfl).trans hw
  unfold write?
  split
  next hpanics =>
    refine tracks_panic (fun h => ?_) hquiet _
    cases hpanics.symm.trans (h.1.encodeEntry h.2.1 h.2.2 ent)
  next => exact tracks_of _

namespace Core

theorem writeUsing?_tracks {ent : Entry} {fields : List F}
    {down : Core E F false → Entry → List F → World E F → Attempt (World E F) Errors}
    (hdown : b = true → ∀ core w,
      (down core ent fields w).Tracks (core.Calm ok fine content w ∧ ∀ f ∈ fields, fine f)
        (fun _ => True) (core.write ent fields w))
    (core : Core E F b) (w : World E F) :
    (writeUsing? down core ent fields w).Tracks
      (core.Calm ok fine content w ∧ ∀ f ∈ fields, fine f) (fun _ => True)
      (core.write ent fields w) := by
  induction core generalizing w with
  | nop =>
    rw [write_nop]
    exact tracks_of ([], w)
  | io core =>
    rw [write_io]
    exact (core.write?_tracks ent fields rfl).trivial.mono fun h => ⟨h.1.steady, h.1.within, h.2⟩
  | nil =>
    rw [write_nil]
    exact tracks_of ([], w)
  | cons core cores ih ihs =>
    rw [write_cons]
    refine ((ih w).mono fun h => ⟨h.1.head, h.2⟩).bind ?_
    refine ((ihs (core.write ent fields w).2).mono fun h => ?_).bind (tracks_of (_, _))
    exact ⟨h.1.tail.move (h.1.head.write ent fields), h.2⟩
  | hooked core funcs _ =>
    rw [write_hooked]
    exact tracks_of _
  | levelFilter core level ih =>
    rw [write_levelFilter]
    exact (ih w).mono fun h => ⟨h.1.levelFilter, h.2⟩
  | sampler core s ih =>
    rw [write_sampler]
    exact (ih w).mono fun h => ⟨h.1.sampler, h.2⟩
  | lazyWith hb ref original own _ =>
    rw [write_lazyWith]
    refine ((initOnce?_tracks hb ref original own rfl).trivial.mono And.left).bind ?_
    exact (hdown hb _ _).mono fun h => ⟨h.1.initOnce, h.2⟩

theorem write?_tracks (core : Core E F b) (ent : Entry) (fields : List F) (w : World E F) :
    (core.write? ent fields w).Tracks (core.Calm ok fine content w ∧ ∀ f ∈ fields, fine f)
      (fun _ => True) (core.write ent fields w) := by
  cases b with
  | false => exact writeUsing?_tracks (fun hb => by cases hb) core w
  | true => exact writeUsing?_tracks (fun _ => writeUsing?_tracks fun hb => by cases hb) core w

theorem write?_returned {core : Core E F b} {ent : Entry} {fields : List F} {errs : Errors}
    {w' : World E F} (h : core.write? ent fields w = (some errs, w')) :
    core.write ent fields w = (errs, w') :=
  (@write?_tracks E F b _ _ _ (fun _ => True) (fun _ => True) (fun _ => .nop) core ent fields
    w).returned h

theorem syncUsing?_tracks {down : Core E F false → World E F → Attempt (World E F) Errors}
    (hdown : b = true → ∀ core w,
      (down core w).Tracks (core.Calm ok fine content w) (fun _ => True) (core.sync w))
    (core : Core E F b) (w : World E F) :
    (syncUsing? down core w).Tracks (core.Calm ok fine content w) (fun _ => True) (core.sync w) := by
  induction core generalizing w with
  | nop =>
    rw [sync_nop]
    exact tracks_of ([], w)
  | io core =>
    rw [sync_io]
    exact tracks_of _
  | nil =>
    rw [sync_nil]
    exact tracks_of ([], w)
  | cons core cores ih ihs =>
    rw [sync_cons]
    refine ((ih w).mono Calm.head).bind ?_
    exact ((ihs (core.sync w).2).mono fun h => h.tail.move h.head.sync).bind (tracks_of (_, _))
  | hooked core funcs ih =>
    rw [sync_hooked]
    exact (ih w).mono Calm.hooked
  | levelFilter core level ih =>
    rw [sync_levelFilter]
    exact (ih w).mono Calm.levelFilter
  | sampler core s ih =>
    rw [sync_sampler]
    exact (ih w).mono Calm.sampler
  | lazyWith hb ref original own _ =>
    rw [sync_lazyWith]
    exact (initOnce?_tracks hb ref original own rfl).trivial.bind
      ((hdown hb _ _).mono Calm.initOnce)

theorem sync?_tracks (core : Core E F b) (w : World E F) :
    (core.sync? w).Tracks (core.Calm ok fine content w) (fun _ => True) (core.sync w) := by
  cases b with
  | false => exact syncUsing?_tracks (fun hb => by cases hb) core w
  | true => exact syncUsing?_tracks (fun _ => syncUsing?_tracks fun hb => by cases hb) core w

theorem sync?_returned {core : Core E F b} {errs : Errors} {w' : World E F}
    (h : core.sync? w = (some errs, w')) : core.sync w = (errs, w') :=
  (@sync?_tracks E F b _ _ _ (fun _ => True) (fun _ => True) (fun _ => .nop) core w).returned h

end Core

/-! ## `CheckedEntry.Write` -/

/-- `Write` on what registered. -/
def Kind.write? (k : Kind E) (ent : Entry) (fields : List F) (w : World E F) :
    Attempt (World E F) Errors :=
  match k with
  | .leaf core => core.write? ent fields w
  | .hooks funcs => .of (w.runHooks ent funcs)

theorem Core.write?_io (ent : Entry) (fields : List F) (w : World E F) (core : IoCore E) :
    (io core : Core E F b).write? ent fields w = core.write? ent fields w := by
  cases b <;> rfl

theorem Kind.write?_of {core : (b : Bool) × Core E F b} {k : Kind E} (h : Kind.of core = some k)
    (ent : Entry) (fields : List F) (w : World E F) :
    core.2.write? ent fields w = k.write? ent fields w := by
  obtain ⟨b, core⟩ := core
  cases core with
  | io core => cases h; exact Core.write?_io ent fields w core
  | hooked core funcs => cases h; cases b <;> rfl
  | nop => cases h
  | multi cores => cases h
  | levelFilter core level => cases h
  | sampler core s => cases h
  | lazyWith _ ref original own => cases h

namespace CheckedEntry

/-- What has registered, in order. -/
theorem writeCores?_tracks (ent : Entry) (fields : List F) {cores : List ((b : Bool) × Core E F b)}
    (h : ∀ core ∈ cores, (Kind.of core).isSome) (hw : OnWrites v w) :
    (writeCores? ent fields cores w).Tracks (Steady ok fine ∧ (∀ f ∈ fields, fine f) ∧
        ∀ core ∈ cores, ∃ k, Kind.of core = some k ∧ ∀ leaf, k = .leaf leaf → ok leaf.enc)
      (OnWrites v) (writeCores ent fields cores w) := by
  induction cores generalizing w with
  | nil => exact tracks_of ([], w)
  | cons core cores ih =>
    obtain ⟨hcore, hcores⟩ := List.forall_mem_cons.mp h
    obtain ⟨k, hk⟩ := Option.isSome_iff_exists.mp hcore
    have hone : (k.write? ent fields w).Tracks (Steady ok fine ∧ (∀ f ∈ fields, fine f) ∧
        ∀ leaf, k = .leaf leaf → ok leaf.enc) (OnWrites v) (k.write ent fields w) := by
      cases k with
      | hooks funcs => exact tracks_of _
      | leaf leaf =>
        exact (leaf.write?_tracks ent fields hw).mono fun h => ⟨h.1, h.2.2 leaf rfl, h.2.1⟩
    have hquiet : OnWrites v (core.2.write ent fields w).2 :=
      (writeCores_onWrites ent fields (List.forall_mem_singleton.mpr hcore) w).trans hw
    simp only [writeCores?, writeCores, Kind.write?_of hk, Kind.write_of hk] at hquiet ⊢
    refine (hone.mono fun h => ⟨h.1, h.2.1, ?_⟩).bind
      (((ih hcores hquiet).mono fun h => ⟨h.1, h.2.1, ?_⟩).bind (tracks_of (_, _)))
    · obtain ⟨k', hk', hok⟩ := h.2.2 core List.mem_cons_self
      cases hk.symm.trans hk'
      exact hok
    · exact (List.forall_mem_cons.mp h.2.2).2

theorem write?_tracks {ce : Option (CheckedEntry E F)}
    (h : ∀ core ∈ registered ce, (Kind.of core).isSome) (fields : List F) (hw : OnWrites v w) :
    (CheckedEntry.write? ce fields w).Tracks
      (Steady ok fine ∧ CheckedEntry.Within ok fine ce ∧ ∀ f ∈ fields, fine f) (OnWrites v)
      ((), CheckedEntry.write ce fields w) := by
  cases ce with
  | none => exact tracks_of ((), w)
  | some ce =>
    have hbefore : ∀ (hooks : List (Entry → List F → Entry × List F)) (p : Entry × List F),
        (∀ hook ∈ hooks, ∀ ent fields, (∀ f ∈ fields, fine f) → ∀ f ∈ (hook ent fields).2, fine f) →
        (∀ f ∈ p.2, fine f) → ∀ f ∈ (hooks.foldl (fun p hook => hook p.1 p.2) p).2, fine f := by
      intro hooks
      induction hooks with
      | nil => exact fun p _ hp => hp
      | cons hook hooks ih =>
        intro p hhooks hp
        obtain ⟨hhook, hhooks⟩ := List.forall_mem_cons.mp hhooks
        exact ih (hook p.1 p.2) hhooks (hhook p.1 p.2 hp)
    unfold CheckedEntry.write? CheckedEntry.write
    simp only
    split
    next => exact tracks_of ((), _)
    next =>
      refine Tracks.bind ((writeCores?_tracks _ _ h hw).mono fun hcalm => ⟨hcalm.1,
        hbefore ce.before (ce.entry, fields) (hcalm.2.1.before ce rfl) hcalm.2.2,
        hcalm.2.1.cores⟩) ?_
      cases ce.after <;> exact tracks_of ((), _)

omit [Encoder E F] [Panics E F] [Environment E F] in
theorem Within.kinds {ce : Option (CheckedEntry E F)} (h : CheckedEntry.Within ok fine ce) :
    ∀ core ∈ registered ce, (Kind.of core).isSome := by
  intro core hcore
  obtain ⟨k, hk, _⟩ := h.cores core hcore
  rw [hk]
  rfl

theorem write?_returned {ce : Option (CheckedEntry E F)}
    (hkinds : ∀ core ∈ registered ce, (Kind.of core).isSome) {fields : List F} {w' : World E F}
    (h : CheckedEntry.write? ce fields w = (some (), w')) : CheckedEntry.write ce fields w = w' :=
  congrArg Prod.snd
    ((@write?_tracks E F _ _ _ (fun _ => True) (fun _ => True) w _ ce hkinds fields rfl).returned h)

end CheckedEntry

/-! ### Leaves that panic -/

/-- From one world to the other, an entry is written to leaves in order, up to and including the first
one whose encoder panics. -/
structure Delivers {α : Type} (ent : Entry) (fields : List F) (leaves : List (IoCore E))
    (w : World E F) (o : Attempt (World E F) α) : Prop where
  writes : writesOf o.2.trace = writesOf w.trace ++
    (leaves.take (leaves.findIdx (fun core => Panics.encodeEntry core.enc ent fields) + 1)).map
      fun core => (core, ent, fields)
  outputs : outputsOf o.2.trace = outputsOf w.trace ++
    (leaves.take (leaves.findIdx fun core => Panics.encodeEntry core.enc ent fields)).filterMap
      fun core => core.emitted ent fields
  returns : o.1.isSome ↔ ∀ core ∈ leaves, Panics.encodeEntry core.enc ent fields = false

namespace Delivers

variable {α β : Type} {ent : Entry} {fields : List F} {leaves : List (IoCore E)} {w : World E F}
  {o : Attempt (World E F) α}

omit [Environment E F] in
/-- What is done with what is returned is no delivery. -/
theorem bind (h : Delivers ent fields leaves w o) {k : α → World E F → Attempt (World E F) β}
    (hk : ∀ a w, (k a w).1.isSome ∧ writesOf (k a w).2.trace = writesOf w.trace ∧
      outputsOf (k a w).2.trace = outputsOf w.trace) : Delivers ent fields leaves w (o.bind k) := by
  obtain ⟨_ | a, w'⟩ := o
  · exact ⟨h.writes, h.outputs, h.returns⟩
  · obtain ⟨hsome, hwrites, houtputs⟩ := hk a w'
    exact ⟨hwrites.trans h.writes, houtputs.trans h.outputs,
      ⟨fun _ => h.returns.mp rfl, fun _ => hsome⟩⟩

omit [Environment E F] in
/-- Hooks are called before. -/
theorem after {w' : World E F} (h : Delivers ent fields leaves w' o) {hooks : List (Nat × Entry)}
    (hcalls : Calls w w' [] [] hooks) : Delivers ent fields leaves w o := by
  refine ⟨?_, ?_, h.returns⟩
  · rw [h.writes, hcalls.writes, List.append_nil]
  · rw [h.outputs, hcalls.outputs, List.append_nil]

/-- A leaf is written to before. -/
theorem cons {core : IoCore E} (hcore : Panics.encodeEntry core.enc ent fields = false)
    (h : Delivers ent fields leaves (core.write ent fields w).2 o) :
    Delivers ent fields (core :: leaves) w o := by
  have hcalls := core.write_calls ent fields w
  refine ⟨?_, ?_, ?_⟩
  · rw [h.writes, hcalls.writes, List.append_assoc, List.findIdx_cons, hcore]
    rfl
  · rw [h.outputs, hcalls.outputs, List.append_assoc, List.findIdx_cons, hcore]
    simp only [cond_false, List.take_succ_cons, List.filterMap_cons]
    cases core.emitted ent fields <;> rfl
  · rw [h.returns, List.forall_mem_cons]
    exact ⟨fun hrest => ⟨hcore, hrest⟩, fun hall => hall.2⟩

omit [Environment E F] in
/-- The first leaf panics. -/
theorem panics {core : IoCore E} (hcore : Panics.encodeEntry core.enc ent fields = true) :
    Delivers ent fields (core :: leaves) w
      ((none, w.emit (.write core ent fields)) : Attempt (World E F) α) := by
  have hcalls := Calls.emit w (.write core ent fields)
  refine ⟨?_, ?_, iff_of_false (by simp) fun hall => ?_⟩
  · rw [List.findIdx_cons, hcore]
    exact hcalls.writes
  · rw [List.findIdx_cons, hcore]
    exact hcalls.outputs
  · rw [(List.forall_mem_cons.mp hall).1] at hcore
    cases hcore

end Delivers

theorem writeCores?_delivers (ent : Entry) (fields : List F)
    {cores : List ((b : Bool) × Core E F b)} {regs : List (Kind E)}
    (h : cores.map Kind.of = regs.map some) (w : World E F) :
    Delivers ent fields (regs.filterMap Kind.toLeaf) w
      (CheckedEntry.writeCores? ent fields cores w) := by
  induction cores generalizing regs w with
  | nil =>
    cases regs with
    | nil =>
      exact ⟨(List.append_nil _).symm, (List.append_nil _).symm,
        iff_of_true rfl (List.forall_mem_nil _)⟩
    | cons k regs => cases h
  | cons core cores ih =>
    cases regs with
    | nil => cases h
    | cons k regs =>
      obtain ⟨hk, hregs⟩ := List.cons_eq_cons.mp h
      have hrest : ∀ (err : Errors) w, Delivers ent fields (regs.filterMap Kind.toLeaf) w
          ((CheckedEntry.writeCores? ent fields cores w).bind fun errs w =>
            (some (err ++ errs), w)) :=
        fun err w => (ih hregs w).bind fun _ _ => ⟨rfl, rfl, rfl⟩
      simp only [CheckedEntry.writeCores?, Kind.write?_of hk]
      cases k with
      | hooks funcs => exact (hrest _ _).after (runHooks_calls ent funcs w)
      | leaf leaf =>
        cases hpanics : Panics.encodeEntry leaf.enc ent fields with
        | true =>
          simp only [Kind.write?, IoCore.write?, hpanics, ↓reduceIte]
          exact .panics hpanics
        | false =>
          simp only [Kind.write?, IoCore.write?, hpanics, Bool.false_eq_true, ↓reduceIte]
          exact .cons hpanics (hrest _ _)

/-- `Write` on a `CheckedEntry` that `Check` made from nothing. -/
theorem Registers.write? {ent : Entry} {regs : List (Kind E)} {ce : Option (CheckedEntry E F)}
    (h : Registers ent none regs ce) (fields : List F) (w : World E F) :
    Delivers ent fields (regs.filterMap Kind.toLeaf) w (CheckedEntry.write? ce fields w) := by
  rcases h.of_none with ⟨rfl, rfl⟩ | ⟨cores, rfl, hcores⟩
  · exact ⟨(List.append_nil _).symm, (List.append_nil _).symm,
      iff_of_true rfl (List.forall_mem_nil _)⟩
  · refine (writeCores?_delivers ent fields hcores w).bind fun errs w => ?_
    simp only
    split
    next => exact ⟨rfl, rfl, rfl⟩
    next => exact ⟨rfl, rfl, rfl⟩

/-- A program of which no call has panicked is in a state of `Reachable`: that is so for a call that
returns. -/
theorem Reachable.returned {w : World E F} {cores : List (Core E F true)} (h : Reachable w cores)
    {core : Core E F true} (hcore : core ∈ cores) (w' : World E F) :
    (∀ fields made, core.withFields? fields w = (some made, w') → Reachable w' (made.lift :: cores)) ∧
      (∀ ent ce ce', core.check? ent ce w = (some ce', w') → Reachable w' cores) ∧
      (∀ ent fields errs, core.write? ent fields w = (some errs, w') → Reachable w' cores) ∧
      (∀ errs, core.sync? w = (some errs, w') → Reachable w' cores) ∧
      ∀ ce fields, (∀ core ∈ CheckedEntry.registered ce, (Kind.of core).isSome) →
        CheckedEntry.write? ce fields w = (some (), w') → Reachable w' cores := by
  refine ⟨fun fields made hret => ?_, fun ent ce ce' hret => ?_, fun ent fields errs hret => ?_,
    fun errs hret => ?_, fun ce fields hkinds hret => ?_⟩
  · have hnext := h.withFields hcore fields
    rwa [Core.withFields?_returned hret] at hnext
  · have hnext := h.check hcore ent ce
    rwa [Core.check?_returned hret] at hnext
  · have hnext := h.write hcore ent fields
    rwa [Core.write?_returned hret] at hnext
  · have hnext := h.sync hcore
    rwa [Core.sync?_returned hret] at hnext
  · cases CheckedEntry.write?_returned hkinds hret
    exact h.writeEntry hkinds fields

end

end Zap.Zapcore
