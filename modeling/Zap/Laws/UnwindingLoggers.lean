import Zap.Laws.SteadyEncoders
import Zap.Laws.Terminal
import Zap.Unwinding

/-!
# Terminal hooks and panics

A message at `PanicLevel` or `FatalLevel`, or at `DPanicLevel` in development, ends with the logger's
hook if the method that logs it returns. If an encoder panics on the way, in `With` of a lazy core or in
`EncodeEntry`, the panic goes up to whoever called the method, and the hook is not called: a `Fatal` does
not exit then (`terminal_hook_unless_panic`, `no_terminal_hook_after_panic`).

Each method goes along with the one that cannot panic (`LogCall.run?_tracks`): if it returns it has done
the same, if it panics it has called no `OnWrite`, and with encoders that are `Steady` on the fields it
returns.
-/

set_option autoImplicit false

namespace Zap

open Data Zapcore Attempt

variable {E F V : Type}

section

variable [Encoder E F] [Panics E F] [Environment E F] [Process E F] [Format F V]
  {ok : E → Prop} {fine : F → Prop} {content : Nat → Core E F false} {w : World E F}
  {v : List (CheckWriteHook × Entry × List F)}

namespace Logger

section

variable (log : Logger E F) {n : Nat} (hcoh : log.core.Coherent content) (hbelow : log.core.Below n)
  (hagree : w.cells.Agrees content)

include hcoh hbelow hagree

omit [Panics E F] [Format F V] in
/-- `check` may fill the cells of lazy cores. -/
theorem check_fills (lvl : Level) (msg : Bytes) :
    Fills content n w.cells (log.check lvl msg w).2.cells ∧ (log.check lvl msg w).2.next = w.next := by
  have hcore := Core.surveyed (log.entry lvl msg w) hcoh hbelow none w hagree
  rcases log.check_cases lvl msg w with ⟨h, _⟩ | ⟨_, h⟩ | ⟨cores, _, h⟩
  · rw [h]
    exact ⟨.refl _, rfl⟩
  · rw [h]
    exact ⟨hcore.cells, hcore.next⟩
  · rw [h]
    rcases (log.annotate_cases _ _ _).2 with hw | ⟨time, hw⟩
    · rw [hw]
      exact ⟨hcore.cells, hcore.next⟩
    · rw [hw]
      exact ⟨hcore.cells, hcore.next⟩

omit [Panics E F] [Format F V] in
/-- So may a message. -/
theorem log_fills (method : Method) (msg : Bytes) (fields : List F) :
    Fills content n w.cells (log.log method msg fields w).cells ∧
      (log.log method msg fields w).next = w.next := by
  have hcheck := log.check_fills hcoh hbelow hagree method.level msg
  have hkinds : ∀ core ∈ CheckedEntry.registered (log.check method.level msg w).1,
      (Kind.of core).isSome := by
    rcases (log.check_checks method.level msg w).ready with ⟨hnone, _⟩ | ⟨ce, hsome, hready⟩
    · rw [hnone]
      exact List.forall_mem_nil _
    · rw [hsome]
      exact hready.cores
  have hwrite : Outward content n (log.check method.level msg w).2
      (log.log method msg fields w) := CheckedEntry.write_outward hkinds fields _
  obtain ⟨trace, cells, hrest⟩ := hwrite.rest
  have hnext := congrArg World.next hrest
  exact ⟨hcheck.1.trans hwrite.cells, hnext.trans hcheck.2⟩

end

omit [Panics E F] in
theorem checkCore_eq (log : Logger E F) (lvl : Level) (msg : Bytes) (w : World E F) :
    log.checkCore lvl msg w =
      log.conclude (log.entry lvl msg w) (log.core.check (log.entry lvl msg w) none w).1
        (log.core.check (log.entry lvl msg w) none w).2 := rfl

theorem check?_tracks (log : Logger E F) (lvl : Level) (msg : Bytes) (hw : OnWrites v w) :
    (log.check? lvl msg w).Tracks (log.core.Calm ok fine content w) (OnWrites v)
      (log.check lvl msg w) := by
  unfold check? check
  split
  next => exact tracks_of (none, w)
  next =>
    rw [checkCore_eq]
    exact (log.core.check?_tracks _ none hw).1.bind (tracks_of _)

theorem check?_returned {log : Logger E F} {lvl : Level} {msg : Bytes}
    {ce : Option (CheckedEntry E F)} {w' : World E F} (h : log.check? lvl msg w = (some ce, w')) :
    log.check lvl msg w = (ce, w') :=
  (@check?_tracks E F _ _ _ _ (fun _ => True) (fun _ => True) (fun _ => .nop) w _ log lvl msg
    rfl).returned h

/-- What `check` returns may be written without a panic. -/
theorem check_within {log : Logger E F} (h : log.core.Calm ok fine content w) (lvl : Level)
    (msg : Bytes) : CheckedEntry.Within ok fine (log.check lvl msg w).1 := by
  have hce := (log.core.check?_tracks (log.entry lvl msg w) none rfl).2 h .none
  rcases log.check_cases lvl msg w with ⟨heq, _⟩ | ⟨_, heq⟩ | ⟨cores, hsome, heq⟩
  · rw [heq]
    exact .none
  · rw [heq]
    cases log.terminal lvl with
    | none => exact .none
    | some hook =>
      exact ⟨List.forall_mem_nil _, fun ce hce => by cases hce; exact List.forall_mem_nil _⟩
  · obtain ⟨caller, stack, hannotate⟩ := (log.annotate_cases (log.entry lvl msg w)
      ⟨log.entry lvl msg w, none, false, log.terminal lvl, cores, []⟩
      (log.core.check (log.entry lvl msg w) none w).2).1
    rw [heq, hannotate]
    rw [hsome] at hce
    exact ⟨hce.cores, fun ce hce => by cases hce; exact List.forall_mem_nil _⟩

omit [Panics E F] in
theorem check_kinds (log : Logger E F) (lvl : Level) (msg : Bytes) (w : World E F) :
    ∀ core ∈ CheckedEntry.registered (log.check lvl msg w).1, (Kind.of core).isSome := by
  rcases (log.check_checks lvl msg w).ready with ⟨hnone, _⟩ | ⟨ce, hsome, hready⟩
  · rw [hnone]
    exact List.forall_mem_nil _
  · rw [hsome]
    exact hready.cores

/-- What `check` has returned is written, at any later time. -/
theorem write?_tracks (log : Logger E F) (lvl : Level) (msg : Bytes) (w : World E F)
    (fields : List F) {w' : World E F} (hw' : OnWrites v w') :
    (CheckedEntry.write? (log.check lvl msg w).1 fields w').Tracks
      (log.core.Calm ok fine content w ∧ ∀ f ∈ fields, fine f) (OnWrites v)
      ((), CheckedEntry.write (log.check lvl msg w).1 fields w') :=
  (CheckedEntry.write?_tracks (log.check_kinds lvl msg w) fields hw').mono fun h =>
    ⟨h.1.steady, check_within h.1 lvl msg, h.2⟩

theorem log?_tracks (log : Logger E F) (method : Method) (msg : Bytes) (fields : List F)
    (hw : OnWrites v w) :
    (log.log? method msg fields w).Tracks (log.core.Calm ok fine content w ∧ ∀ f ∈ fields, fine f)
      (OnWrites v) ((), log.log method msg fields w) :=
  ((log.check?_tracks method.level msg hw).mono And.left).bind
    (log.write?_tracks method.level msg w fields
      ((log.check_checks method.level msg w).onWrites.trans hw))

theorem check_calm {log : Logger E F} (h : log.core.Calm ok fine content w) (lvl : Level)
    (msg : Bytes) : log.core.Calm ok fine content (log.check lvl msg w).2 := by
  obtain ⟨n, hbelow⟩ := h.below
  exact h.move ((log.check_fills h.coherent hbelow h.sound.agrees lvl msg).1.sound h.sound)

theorem log_calm {log : Logger E F} (h : log.core.Calm ok fine content w) (method : Method)
    (msg : Bytes) (fields : List F) :
    log.core.Calm ok fine content (log.log method msg fields w) := by
  obtain ⟨n, hbelow⟩ := h.below
  exact h.move ((log.log_fills h.coherent hbelow h.sound.agrees method msg fields).1.sound h.sound)

end Logger

/-- The fields among arguments are `fine`, and so are those that are made of the arguments. -/
structure FineArgs (fine : F → Prop) (args : List (Arg F V)) : Prop where
  field (f : F) (h : .field f ∈ args) : fine f
  error (err : V) (h : .error err ∈ args) : fine (Format.error err)
  any (key : Bytes) (arg : Arg F V) (h : arg ∈ args) : fine (Format.any key arg)
  invalid (ps : List (Nat × Arg F V × Arg F V)) (hne : ps ≠ [])
    (h : ∀ p ∈ ps, p.2.1 ∈ args ∧ p.2.2 ∈ args) : fine (Format.invalid ps)

omit [Encoder E F] [Panics E F] [Environment E F] [Process E F] in
theorem fineArgs_nil : FineArgs fine ([] : List (Arg F V)) where
  field f h := by cases h
  error err h := by cases h
  any key arg h := by cases h
  invalid ps hne h := by
    obtain ⟨p, hp⟩ := List.exists_mem_of_ne_nil ps hne
    cases (h p hp).1

namespace SugaredLogger

variable (s : SugaredLogger E F)

omit [Panics E F] in
/-- What the loop of `sweetenFields` makes of the rest of `args`. -/
theorem sweeten_fine {args : List (Arg F V)} (hargs : FineArgs fine args) {rest : List (Arg F V)}
    (hrest : rest ⊆ args) (i : Nat) (seenError : Bool) {fields : List F}
    (hfields : ∀ f ∈ fields, fine f) {invalid : List (Nat × Arg F V × Arg F V)}
    (hinvalid : ∀ p ∈ invalid, p.2.1 ∈ args ∧ p.2.2 ∈ args) (w : World E F) :
    (∀ f ∈ (s.sweeten rest i seenError fields invalid w).1, fine f) ∧
      ∀ p ∈ (s.sweeten rest i seenError fields invalid w).2.1, p.2.1 ∈ args ∧ p.2.2 ∈ args := by
  have hmore : ∀ {fields : List F} {f : F}, (∀ f ∈ fields, fine f) → fine f →
      ∀ g ∈ fields ++ [f], fine g :=
    fun hfields hf => List.forall_mem_append.mpr ⟨hfields, List.forall_mem_singleton.mpr hf⟩
  fun_induction s.sweeten rest i seenError fields invalid w with
  | case1 => exact ⟨hfields, hinvalid⟩
  | case2 _ _ _ _ _ _ _ ih =>
    obtain ⟨hmem, hrest⟩ := List.cons_subset.mp hrest
    exact ih hrest (hmore hfields (hargs.field _ hmem)) hinvalid
  | case3 _ _ _ _ _ _ _ _ ih =>
    obtain ⟨hmem, hrest⟩ := List.cons_subset.mp hrest
    exact ih hrest (hmore hfields (hargs.error _ hmem)) hinvalid
  | case4 _ _ _ _ _ _ _ _ ih => exact ih (List.cons_subset.mp hrest).2 hfields hinvalid
  | case5 => exact ⟨hfields, hinvalid⟩
  | case6 _ _ _ _ _ _ _ _ ih =>
    obtain ⟨_, hrest⟩ := List.cons_subset.mp hrest
    obtain ⟨hval, hrest⟩ := List.cons_subset.mp hrest
    exact ih hrest (hmore hfields (hargs.any _ _ hval)) hinvalid
  | case7 _ _ _ _ _ _ _ _ _ _ _ ih =>
    obtain ⟨hkey, hrest⟩ := List.cons_subset.mp hrest
    obtain ⟨hval, hrest⟩ := List.cons_subset.mp hrest
    exact ih hrest hfields (List.forall_mem_append.mpr
      ⟨hinvalid, List.forall_mem_singleton.mpr ⟨hkey, hval⟩⟩)

theorem sweeten?_tracks {args rest : List (Arg F V)} (hrest : rest ⊆ args) (i : Nat)
    (seenError : Bool) (fields : List F) (invalid : List (Nat × Arg F V × Arg F V))
    (hw : OnWrites v w) :
    (s.sweeten? rest i seenError fields invalid w).Tracks
      (s.base.core.Calm ok fine content w ∧ FineArgs fine args) (OnWrites v)
      (((s.sweeten rest i seenError fields invalid w).1,
          (s.sweeten rest i seenError fields invalid w).2.1),
        (s.sweeten rest i seenError fields invalid w).2.2) := by
  have hone : ∀ {f : F}, fine f → ∀ g ∈ [f], fine g := fun hf => List.forall_mem_singleton.mpr hf
  -- along the loop without panics, since what follows a report is in the world after it
  fun_induction s.sweeten rest i seenError fields invalid w with
  | case1 => exact tracks_of ((_, _), _)
  | case2 _ _ _ _ _ _ _ ih => exact ih (List.cons_subset.mp hrest).2 hw
  | case3 _ _ _ _ _ _ _ hseen ih =>
    rw [sweeten?, if_pos hseen]
    exact ih (List.cons_subset.mp hrest).2 hw
  | case4 _ _ _ _ _ _ _ hseen ih =>
    obtain ⟨hmem, hrest⟩ := List.cons_subset.mp hrest
    rw [sweeten?, if_neg hseen]
    exact Tracks.bind ((s.base.log?_tracks _ _ _ hw).mono fun h => ⟨h.1, hone (h.2.error _ hmem)⟩)
      ((ih hrest ((s.base.log_onWrites (by decide) _ _ _).trans hw)).mono fun h =>
        ⟨Logger.log_calm h.1 _ _ _, h.2⟩)
  | case5 _ _ _ _ _ _ hfield herror =>
    obtain ⟨hmem, _⟩ := List.cons_subset.mp hrest
    rw [sweeten?]
    · exact Tracks.bind ((s.base.log?_tracks _ _ _ hw).mono fun h =>
        ⟨h.1, hone (h.2.any _ _ hmem)⟩) (tracks_of ((_, _), _))
    · exact hfield
    · exact herror
  | case6 _ _ _ _ _ _ _ _ ih =>
    exact ih (List.cons_subset.mp (List.cons_subset.mp hrest).2).2 hw
  | case7 _ _ _ _ _ _ _ _ hfield herror hstring ih =>
    rw [sweeten?]
    · exact ih (List.cons_subset.mp (List.cons_subset.mp hrest).2).2 hw
    · exact hfield
    · exact herror
    · exact hstring

theorem sweetenFields?_tracks (args : List (Arg F V)) (hw : OnWrites v w) :
    (s.sweetenFields? args w).Tracks (s.base.core.Calm ok fine content w ∧ FineArgs fine args)
        (OnWrites v) (s.sweetenFields args w) ∧
      (FineArgs fine args → ∀ f ∈ (s.sweetenFields args w).1, fine f) := by
  have hloop : Tracks (s.base.core.Calm ok fine content w ∧ FineArgs fine args) _ _ _ :=
    s.sweeten?_tracks (List.Subset.refl args) 0 false [] [] hw
  have hfine := fun hargs : FineArgs fine args => s.sweeten_fine hargs (List.Subset.refl args) 0 false
    (List.forall_mem_nil _) (List.forall_mem_nil _) w
  have hafter := s.sweeten_keeps (R := fun w w' => (s.base.core.Calm ok fine content w →
      s.base.core.Calm ok fine content w') ∧ (OnWrites v w → OnWrites v w')) (fun _ => ⟨id, id⟩)
    (fun h h' => ⟨h'.1 ∘ h.1, h'.2 ∘ h.2⟩)
    (fun msg fields w => ⟨fun h => Logger.log_calm h .error msg fields,
      (s.base.log_onWrites (by decide) msg fields w).trans⟩) args 0 false [] [] w
  unfold sweetenFields
  generalize s.sweeten args 0 false [] [] w = r at hloop hfine hafter ⊢
  obtain ⟨fields, invalid, w'⟩ := r
  refine ⟨hloop.bind ?_, fun h => ?_⟩
  · simp only
    split
    next => exact tracks_of (fields, w')
    next hne =>
      exact Tracks.bind ((s.base.log?_tracks _ _ _ (hafter.2 hw)).mono fun h => ⟨hafter.1 h.1,
        List.forall_mem_singleton.mpr (h.2.invalid invalid hne (hfine h.2).2)⟩)
        (tracks_of (fields, _))
  · simp only
    split <;> exact (hfine h).1

theorem write?_tracks (lvl : Level) (msg : Bytes) (context : List (Arg F V)) (hw : OnWrites v w) :
    (s.write? lvl msg context w).Tracks
      (s.base.core.Calm ok fine content w ∧ FineArgs fine context) (OnWrites v)
      ((), s.write lvl msg context w) := by
  have hcheck : Tracks (s.base.core.Calm ok fine content w ∧ FineArgs fine context) _ _ _ :=
    (s.base.check?_tracks lvl msg hw).mono And.left
  have hquiet : OnWrites v (s.base.check lvl msg w).2 :=
    (s.base.check_checks lvl msg w).onWrites.trans hw
  have hcalm := fun h : s.base.core.Calm ok fine content w => Logger.check_calm h lvl msg
  have hwrite : ∀ fields {w'}, OnWrites v w' →
      Tracks (s.base.core.Calm ok fine content w ∧ ∀ f ∈ fields, fine f) _
        (CheckedEntry.write? (s.base.check lvl msg w).1 fields w') _ :=
    fun fields _ hw' => s.base.write?_tracks lvl msg w fields hw'
  unfold write
  generalize s.base.check lvl msg w = r at hcheck hquiet hcalm hwrite ⊢
  obtain ⟨_ | ce, w'⟩ := r
  · exact hcheck.bind (tracks_of ((), w'))
  · obtain ⟨hfields, hfine⟩ := s.sweetenFields?_tracks context hquiet
    refine hcheck.bind ((hfields.mono fun h => ⟨hcalm h.1, h.2⟩).bind ?_)
    exact (hwrite _ ((s.sweetenFields_onWrites context w').trans hquiet)).mono fun h =>
      ⟨h.1, hfine h.2⟩

/-- The same for `log` and `logln`, which may return early. -/
theorem write?_tracks_early (lvl : Level) (msg : Bytes) (context : List (Arg F V))
    (hw : OnWrites v w) :
    Tracks (s.base.core.Calm ok fine content w ∧ FineArgs fine context) (OnWrites v)
      (if lvl < Level.dpanic && !s.base.core.enabled lvl then (some (), w)
        else s.write? lvl msg context w)
      ((), if lvl < Level.dpanic && !s.base.core.enabled lvl then w
        else s.write lvl msg context w) := by
  split
  next => exact tracks_of ((), w)
  next => exact s.write?_tracks lvl msg context hw

end SugaredLogger

namespace LogCall

/-- Make the call, on a logger or on a sugared logger with that base. -/
def run? (call : LogCall F V) (log : Logger E F) (w : World E F) : Attempt (World E F) Unit :=
  match call with
  | .log method msg fields => log.log? method msg fields w
  | .print method args => SugaredLogger.print? ⟨log⟩ method args w
  | .printf method template args => SugaredLogger.printf? ⟨log⟩ method template args w
  | .printw method msg keysAndValues => SugaredLogger.printw? ⟨log⟩ method msg keysAndValues w
  | .println method args => SugaredLogger.println? ⟨log⟩ method args w

end LogCall

/-- The fields of a call are `fine`: those that it is given, and those that are made of its
arguments. -/
def LogCall.Fine (fine : F → Prop) : LogCall F V → Prop
  | .log _ _ fields => ∀ f ∈ fields, fine f
  | .printw _ _ keysAndValues => FineArgs fine keysAndValues
  | _ => True

theorem LogCall.run?_tracks (call : LogCall F V) (log : Logger E F) (hw : OnWrites v w) :
    (call.run? log w).Tracks (log.core.Calm ok fine content w ∧ call.Fine fine) (OnWrites v)
      ((), call.run log w) := by
  cases call with
  | log method msg fields => exact log.log?_tracks method msg fields hw
  | print method args =>
    exact (SugaredLogger.write?_tracks_early ⟨log⟩ method.level _ [] hw).mono fun h =>
      ⟨h.1, fineArgs_nil⟩
  | printf method template args =>
    exact (SugaredLogger.write?_tracks_early ⟨log⟩ method.level _ [] hw).mono fun h =>
      ⟨h.1, fineArgs_nil⟩
  | printw method msg keysAndValues =>
    exact SugaredLogger.write?_tracks_early ⟨log⟩ method.level _ keysAndValues hw
  | println method args =>
    exact (SugaredLogger.write?_tracks_early ⟨log⟩ method.level _ [] hw).mono fun h =>
      ⟨h.1, fineArgs_nil⟩

theorem LogCall.run?_returned {call : LogCall F V} {log : Logger E F} {w' : World E F}
    (h : call.run? log w = (some (), w')) : call.run log w = w' :=
  congrArg Prod.snd ((@run?_tracks E F V _ _ _ _ _ (fun _ => True) (fun _ => True) (fun _ => .nop) w _
    call log rfl).returned h)

/-- A message to its end, as `Ends` says. If an encoder panics on the way, no hook is called. -/
structure Logger.Concludes (log : Logger E F) (lvl : Level) (msg : Bytes) (w : World E F) (o : Attempt (World E F) Unit) :
    Prop where
  returns (h : o.1.isSome) : ∃ ce w₁ fields w', log.check? lvl msg w = (some ce, w₁) ∧
    onWritesOf w'.trace = onWritesOf w.trace ∧ log.Ends lvl ce fields w' o.2
  panics (h : o.1 = none) : onWritesOf o.2.trace = onWritesOf w.trace


omit [Panics E F] in
theorem LogCall.run_ends (call : LogCall F V) (log : Logger E F) (w : World E F) :
    ∃ fields w', onWritesOf w'.trace = onWritesOf w.trace ∧
      log.Ends call.method.level (log.check call.method.level call.message w).1 fields w'
        (call.run log w) := by
  cases call with
  | log method msg fields =>
    have hchecks := log.check_checks method.level msg w
    exact ⟨fields, _, hchecks.onWrites, hchecks.write_ends fields _⟩
  | print method args => exact SugaredLogger.write_ends_early ⟨log⟩ method.level _ [] w
  | printf method template args => exact SugaredLogger.write_ends_early ⟨log⟩ method.level _ [] w
  | printw method msg keysAndValues =>
    exact SugaredLogger.write_ends_early ⟨log⟩ method.level _ keysAndValues w
  | println method args => exact SugaredLogger.write_ends_early ⟨log⟩ method.level _ [] w

/-- A method that returns has returned from `check`. -/
theorem LogCall.check?_isSome {call : LogCall F V} {log : Logger E F}
    (h : (call.run? log w).1.isSome) :
    (log.check? call.method.level call.message w).1.isSome := by
  have hsugared : ∀ {lvl msg} {context : List (Arg F V)},
      (if lvl < Level.dpanic && !log.core.enabled lvl then ((some (), w) : Attempt (World E F) Unit)
        else SugaredLogger.write? ⟨log⟩ lvl msg context w).1.isSome →
      (log.check? lvl msg w).1.isSome := by
    intro lvl msg context h
    split at h
    next hoff => rw [Logger.check?, if_pos hoff]; rfl
    next => exact isSome_of_bind h
  cases call with
  | log method msg fields => exact isSome_of_bind h
  | print method args => exact hsugared h
  | printf method template args => exact hsugared h
  | printw method msg keysAndValues => exact hsugared h
  | println method args => exact hsugared h

theorem LogCall.run?_concludes (call : LogCall F V) (log : Logger E F) (w : World E F) :
    log.Concludes call.method.level call.message w (call.run? log w) where
  returns h := by
    obtain ⟨ce, hce⟩ := Option.isSome_iff_exists.mp (check?_isSome h)
    have hcheck : log.check? call.method.level call.message w = (some ce, _) := Prod.ext hce rfl
    obtain ⟨fields, w', hw', hends⟩ := call.run_ends log w
    rw [Logger.check?_returned hcheck, run?_returned (eq_of_isSome h)] at hends
    exact ⟨ce, _, fields, w', hcheck, hw', hends⟩
  panics := (@run?_tracks E F V _ _ _ _ _ (fun _ => True) (fun _ => True) (fun _ => .nop) w _ call log
    rfl).panicked

/-- Whatever its cores and options are, a logger ends a message at the panic or fatal level, or in
development at the development panic level, with one call of its hook, after all cores that have
registered were written to; at other levels it calls no hook. That is so for an entry from `Check`
that is written at any later time, and for every method of a logger and of a sugared logger, if it
returns. If an encoder panics in it, no hook is called. All of them return where the encoders of the
logger do not panic on the fields of its lazy cores and of the call. The hook is the one that was
configured, unless that is `nil` or does nothing. -/
theorem terminal_hook_unless_panic (log : Logger E F) :
    (∀ (lvl : Level) (msg : Bytes) (w : World E F),
      onWritesOf (log.check? lvl msg w).2.trace = onWritesOf w.trace ∧
        ∀ ce w₁, log.check? lvl msg w = (some ce, w₁) → ∀ (fields : List F) (w' : World E F),
          ((CheckedEntry.write? ce fields w').1.isSome →
              log.Ends lvl ce fields w' (CheckedEntry.write? ce fields w').2) ∧
            ((CheckedEntry.write? ce fields w').1 = none →
              onWritesOf (CheckedEntry.write? ce fields w').2.trace = onWritesOf w'.trace)) ∧
    (∀ (call : LogCall F V) (w : World E F),
      log.Concludes call.method.level call.message w (call.run? log w)) ∧
    (∀ (ok : E → Prop) (fine : F → Prop) (w : World E F) (cores : List (Core E F true)),
      Steady ok fine → log.core.Within ok fine → Reachable w cores → log.core ∈ cores →
        (∀ lvl msg, ∃ ce w₁, log.check? lvl msg w = (some ce, w₁) ∧
          ∀ fields w', (∀ f ∈ fields, fine f) → (CheckedEntry.write? ce fields w').1.isSome) ∧
        ∀ call : LogCall F V, call.Fine fine → (call.run? log w).1.isSome) ∧
    (∀ default configured, (configured = none ∨ configured = some .noop →
        terminalHookOverride default configured = default) ∧
      ∀ hook, configured = some hook → hook ≠ .noop →
        terminalHookOverride default configured = hook) := by
  refine ⟨fun lvl msg w => ⟨?_, fun ce w₁ h fields w' => ?_⟩, fun call w => call.run?_concludes log w,
    ?_, ?_⟩
  · exact (@Logger.check?_tracks E F _ _ _ _ (fun _ => True) (fun _ => True) (fun _ => .nop) w _ log lvl
      msg rfl).ends (log.check_checks lvl msg w).onWrites
  · obtain rfl : (log.check lvl msg w).1 = ce := congrArg Prod.fst (Logger.check?_returned h)
    have hkinds := log.check_kinds lvl msg w
    refine ⟨fun hsome => ?_, (@CheckedEntry.write?_tracks E F _ _ _ (fun _ => True) (fun _ => True) w' _
      _ hkinds fields rfl).panicked⟩
    rw [← CheckedEntry.write?_returned hkinds (eq_of_isSome hsome)]
    exact (log.check_checks lvl msg w).write_ends fields w'
  · intro ok fine w cores hsteady hin hreach hcore
    obtain ⟨content, hvalid⟩ := hreach.valid
    have hcalm : log.core.Calm ok fine content w := .of_valid hvalid hsteady hcore hin
    refine ⟨fun lvl msg => ⟨_, _, (log.check?_tracks lvl msg rfl).eq hcalm, fun fields w' hfields => ?_⟩,
      fun call hcall => ?_⟩
    · rw [(log.write?_tracks lvl msg w fields rfl).eq ⟨hcalm, hfields⟩]
      rfl
    · rw [(call.run?_tracks log rfl).eq ⟨hcalm, hcall⟩]
      rfl
  · refine fun default configured => ⟨?_, ?_⟩
    · rintro (rfl | rfl)
      · rfl
      · rfl
    · rintro hook rfl hne
      cases hook with
      | noop => exact absurd rfl hne
      | goexit => rfl
      | panic => rfl
      | fatal => rfl
      | custom id => rfl

end

/-! ## Fields of `zapcore` -/

section

variable [Host] {any : Bytes → Arg Zapcore.Field V → Zapcore.Field}

theorem marshalInvalidPairs_returns {refl : Option Reflected → Option Bytes}
    {ps : List (Nat × Arg Zapcore.Field V × Arg Zapcore.Field V)}
    (h : ∀ p ∈ ps, ∀ key, (any key p.2.1).Fine ∧ (any key p.2.2).Fine) (err : Option Bytes) :
    Returns refl (marshalInvalidPairs any ps err) := by
  induction ps generalizing err with
  | nil => rfl
  | cons p ps ih =>
    obtain ⟨hp, hps⟩ := List.forall_mem_cons.mp h
    have hpair : Returns refl (marshalInvalidPair any p) := by
      rw [marshalInvalidPair, Returns, Marshaler.transcript, Option.isSome_map]
      refine returns_andThen_const.mpr ⟨(hp _).1 refl, ?_⟩
      exact returns_andThen_const.mpr ⟨(hp _).2 refl, rfl⟩
    obtain ⟨r, hr⟩ := returns_iff_exists.mp hpair
    rw [marshalInvalidPairs, Returns, Marshaler.transcript, hr, Option.bind_some, Option.isSome_map]
    exact ih hps _

/-- Pairs whose keys are not strings are reported without a panic if their fields are. -/
theorem FineArgs.ofFields {sprint sprintln : List (Arg Zapcore.Field V) → Bytes}
    {sprintf : Bytes → List (Arg Zapcore.Field V) → Bytes} {error : V → Zapcore.Field}
    {args : List (Arg Zapcore.Field V)} (hfield : ∀ f, .field f ∈ args → f.Fine)
    (herror : ∀ err, .error err ∈ args → (error err).Fine)
    (hany : ∀ key, ∀ arg ∈ args, (any key arg).Fine) :
    let _ := Format.ofFields any sprint sprintln sprintf error
    FineArgs Zapcore.Field.Fine args := by
  intro _
  refine ⟨hfield, herror, hany, fun ps _ hps refl => ?_⟩
  have harray : Returns refl (marshalInvalidPairs any ps none) :=
    marshalInvalidPairs_returns (fun p hp key => ⟨hany key _ (hps p hp).1, hany key _ (hps p hp).2⟩)
      none
  obtain ⟨r, hr⟩ := returns_iff_exists.mp harray
  have hreport : Returns refl (reportError (utf8 "invalid") r.2) := by cases r.2 <;> rfl
  show Returns refl (.addArray (utf8 "invalid") (marshalInvalidPairs any ps none)
    (reportError (utf8 "invalid")))
  rw [Returns, Marshaler.transcript, hr, Option.bind_some, Option.isSome_map]
  exact hreport

end

theorem terminal_hook_unless_panic_fatalw :
    let _ : Host := ⟨Location.utc⟩
    let _ := Environment.reliable (Option JsonEncoder) Zapcore.Field
    let _ : Process (Option JsonEncoder) Zapcore.Field :=
      ⟨fun _ _ => .ofUnixNano 0 Location.utc, fun _ _ _ => [], 0, 0, 0⟩
    let any : Bytes → Arg Zapcore.Field Unit → Zapcore.Field := fun key _ => ⟨key, .bool, 1, [], .nil⟩
    let _ := Format.ofFields any (fun _ => []) (fun _ => []) (fun _ _ => []) fun _ => any [] (.other ())
    let log := { (Logger.newNop : Logger (Option JsonEncoder) Zapcore.Field) with
      core := .io (jsonLeaf Level.info 0) }
    let o := LogCall.run? (.printw .fatal (utf8 "m") [.other (), .other ()]) log .start
    o.1.isSome ∧ ∃ ent fields, onWritesOf o.2.trace = [(.fatal, ent, fields)] := by
  intro _ _ _ any _ log o
  have hany : ∀ key, ∀ arg ∈ [Arg.other (), Arg.other ()], (any key arg).Fine := fun _ _ _ _ => rfl
  have hargs : FineArgs Zapcore.Field.Fine [Arg.other (), Arg.other ()] :=
    FineArgs.ofFields (fun f h => by simp at h) (fun err h => by simp at h) hany
  have hlog : Reachable World.start [log.core] := Reachable.start.newCore _ _ _
  obtain ⟨_, hcalls, hreturns, _⟩ := terminal_hook_unless_panic (V := Unit) log
  have hsome : o.1.isSome := (hreturns _ _ .start _ steady_json
    ⟨newJSONEncoder newProductionEncoderConfig false, rfl, fun _ => nofun⟩ hlog
    List.mem_cons_self).2 _ hargs
  obtain ⟨ce, w₁, fields, w', _, hw', ent, reports, _, hends⟩ := (hcalls _ .start).returns hsome
  exact ⟨hsome, ent, fields, hends.trans (congrArg (· ++ _) hw')⟩

/-- A fatal message with fields that panic: the panic comes out of `Fatal`, and no hook is called. -/
theorem no_terminal_hook_after_panic :
    let _ : Host := ⟨Location.utc⟩
    let _ := Environment.reliable (Option JsonEncoder) Zapcore.Field
    let _ : Process (Option JsonEncoder) Zapcore.Field :=
      ⟨fun _ _ => .ofUnixNano 0 Location.utc, fun _ _ _ => [], 0, 0, 0⟩
    let log := { (Logger.newNop : Logger (Option JsonEncoder) Zapcore.Field) with
      core := .io (jsonLeaf Level.info 0) }
    let o := log.log? .fatal (utf8 "m") [nilArray] .start
    log.terminal Level.fatal = some .fatal ∧ o.1 = none ∧ onWritesOf o.2.trace = [] := by
  intro _ _ _ log o
  let leaf : Core (Option JsonEncoder) Zapcore.Field true := .io (jsonLeaf Level.info 0)
  have hcheck : log.check? Level.fatal (utf8 "m") .start = (some (some
      ⟨log.entry Level.fatal (utf8 "m") .start, some 0, false, some .fatal, [⟨true, leaf⟩], []⟩),
      .start) := rfl
  have hnone : o.1 = none := by
    have hpanics := jsonLeaf_encodeEntry_panics Level.info 0 (log.entry Level.fatal (utf8 "m") .start)
    simp only [o, Logger.log?, Method.level, hcheck, Attempt.bind, CheckedEntry.write?,
      CheckedEntry.writeCores?, List.foldl_nil, leaf, Core.write?_io, IoCore.write?, hpanics,
      Bool.false_eq_true, ↓reduceIte]
  exact ⟨rfl, hnone, (@Logger.log?_tracks _ _ _ _ _ _ (fun _ => True) (fun _ => True) (fun _ => .nop)
    .start _ log .fatal (utf8 "m") [nilArray] rfl).panicked hnone⟩

end Zap
