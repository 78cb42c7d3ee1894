import Zap.Data.Ownership
import Zap.Zapcore.PooledEncoder

/-!
# Who owns the encoders and buffers

A call owns the objects that it has taken out of the pools or made, and may read the encoder that it
was made on, which belongs to a call that has returned. `spec` says what each operation needs and
leaves; wherever a call can be interrupted, its buffers are each in one place.
-/

set_option autoImplicit false

namespace Zap.Zapcore.Pooled

open Data

/-! ## Resources -/

/-- What a call is about, from when it is made: its number, the line that it writes, and the objects
of the encoder that it reads. -/
structure Task where
  call : Nat
  writes : Option Bytes
  seenBufs : Nat → Option Bytes
  seenEncs : Nat → Option EncoderObject

/-- What a call has: its objects, the line returned to it, and what it has written. -/
structure Local where
  task : Task
  bufs : Nat → Option Bytes
  encs : Nat → Option EncoderObject
  slices : Nat → Option (Slice AppendCall)
  line : Option Nat
  sent : List Bytes

namespace Local

/-- A call before it does anything. -/
def start (task : Task) : Local where
  task := task
  bufs := fun _ => none
  encs := fun _ => none
  slices := fun _ => none
  line := none
  sent := []

/-- The buffer `b` of a call is at a place. -/
def At (r : Local) (b : Nat) : Place → Prop
  | .pool _ => False
  | .buf e => ∃ obj, r.encs e = some obj ∧ obj.buf = some b ∧ obj.freed = false
  | .reflectBuf e => ∃ obj, r.encs e = some obj ∧ obj.reflectBuf = some b
  | .line call => call = r.task.call ∧ r.line = some b

/-- A call owns the buffers that its encoders and its line refer to, and refers to each once. -/
structure Tidy (r : Local) : Prop where
  owned {b : Nat} {p : Place} (h : r.At b p) : ∃ bs, r.bufs b = some bs
  single {b : Nat} {p q : Place} (hp : r.At b p) (hq : r.At b q) : p = q

/-- Reading a buffer: one's own, or one of the encoder that the call is about. -/
def Reads (r : Local) (b : Nat) (bs : Bytes) : Prop :=
  r.bufs b = some bs ∨ r.task.seenBufs b = some bs

def ReadsEncoder (r : Local) (e : Nat) (obj : EncoderObject) : Prop :=
  r.encs e = some obj ∨ r.task.seenEncs e = some obj

def setBuf (r : Local) (b : Nat) (x : Option Bytes) : Local :=
  { r with bufs := Function.update r.bufs b x }

/-- Without a buffer that has been freed, which may have been the line. -/
def freeBuf (r : Local) (b : Nat) : Local :=
  { r.setBuf b none with line := if r.line = some b then none else r.line }

def setEnc (r : Local) (e : Nat) (x : Option EncoderObject) : Local :=
  { r with encs := Function.update r.encs e x }

def setSlice (r : Local) (a : Nat) (x : Option (Slice AppendCall)) : Local :=
  { r with slices := Function.update r.slices a x }

end Local

/-- What each operation needs and leaves. A pool gives any object that the call does not know. -/
def spec : OpSpec Op Op.Res Local
  | .getBuffer, r, post =>
    r.Tidy ∧ ∀ b, r.bufs b = none → r.task.seenBufs b = none → post b (r.setBuf b (some []))
  | .freeBuffer b, r, post =>
    r.Tidy ∧ (∃ bs, r.bufs b = some bs) ∧ post () (r.freeBuf b)
  | .getEncoder, r, post =>
    r.Tidy ∧ ∀ e, r.encs e = none → r.task.seenEncs e = none → post e (r.setEnc e (some .zero))
  | .putEncoder e, r, post => r.Tidy ∧ r.encs e = some .zero ∧ post () (r.setEnc e none)
  | .getSlice, r, post =>
    r.Tidy ∧ ∀ a s, r.slices a = none → s.toList = [] → post a (r.setSlice a (some s))
  | .putSlice a, r, post =>
    r.Tidy ∧ (∃ s, r.slices a = some s ∧ s.toList = []) ∧ post () (r.setSlice a none)
  | .write call b, r, post =>
    r.Tidy ∧ r.task.call = call ∧
      ∃ bs, r.bufs b = some bs ∧ r.task.writes = some bs ∧ post () { r with sent := r.sent ++ [bs] }
  | .newEncoder obj, r, post =>
    ∀ e, r.encs e = none → r.task.seenEncs e = none → post e (r.setEnc e (some obj))
  | .load b, r, post => ∃ bs, r.Reads b bs ∧ post bs r
  | .store b bs, r, post => (∃ old, r.bufs b = some old) ∧ post () (r.setBuf b (some bs))
  | .scribble b, r, post =>
    (∃ old, r.bufs b = some old) ∧ ∀ junk, post () (r.setBuf b (some junk))
  | .loadEncoder e, r, post => ∃ obj, r.ReadsEncoder e obj ∧ post obj r
  | .storeEncoder e obj, r, post => (∃ old, r.encs e = some old) ∧ post () (r.setEnc e (some obj))
  | .loadSlice a, r, post => ∃ s, r.slices a = some s ∧ post s r
  | .storeSlice a s, r, post => (∃ old, r.slices a = some old) ∧ post () (r.setSlice a (some s))
  | .returnLine call b, r, post =>
    r.task.call = call ∧ (∃ bs, r.bufs b = some bs) ∧ post () { r with line := some b }

/-- An operation before which a call can be interrupted finds it tidy. -/
theorem tidy_of_spec {o : Op} {r : Local} {post : o.Res → Local → Prop} (h : spec o r post)
    (ho : o.silent = false) : r.Tidy := by
  cases o
  case getBuffer | freeBuffer | getEncoder | putEncoder | getSlice | putSlice | write => exact h.1
  all_goals cases ho

/-! ## The objects and their owners -/

/-- The calls own all objects outside the pools, each of them one; `lines` are what they write. -/
structure Owned (lines : Nat → Option Bytes) (ended : Nat → Prop) (res : Nat → Local)
    (s : Objects) : Prop where
  buffers : s.buffers.Split (fun _ => True) fun i => (res i).bufs
  encoders : s.encoders.Split (fun obj => obj = .zero) fun i => (res i).encs
  slices : s.slices.Split (fun a => a.toList = []) fun i => (res i).slices
  line (i : Nat) : s.line i = (res i).line
  lineOwned {i b : Nat} (h : (res i).line = some b) : ∃ bs, (res i).bufs b = some bs
  written (i : Nat) : s.written i = (res i).sent
  right {i : Nat} {bs : Bytes} (h : bs ∈ (res i).sent) : (res i).task.writes = some bs
  call (i : Nat) : (res i).task.call = i
  writes (i : Nat) : (res i).task.writes = lines i
  seenBufs {i b : Nat} {bs : Bytes} (h : (res i).task.seenBufs b = some bs) :
    ∃ j, ended j ∧ (res j).bufs b = some bs
  seenEncs {i e : Nat} {obj : EncoderObject} (h : (res i).task.seenEncs e = some obj) :
    ∃ j, ended j ∧ (res j).encs e = some obj

namespace Owned

variable {lines : Nat → Option Bytes} {ended : Nat → Prop} {res : Nat → Local} {s s' : Objects}
  {i : Nat} {r : Local}

/-- A call that has not ended changes what it has, and the objects accordingly. -/
theorem change (h : Owned lines ended res s) (hi : ¬ ended i) (htask : r.task = (res i).task)
    (hbuffers : s'.buffers.Split (fun _ => True)
      (Function.update (fun j => (res j).bufs) i r.bufs))
    (hencoders : s'.encoders.Split (fun obj => obj = .zero)
      (Function.update (fun j => (res j).encs) i r.encs))
    (hslices : s'.slices.Split (fun a => a.toList = [])
      (Function.update (fun j => (res j).slices) i r.slices))
    (hline : s'.line = Function.update s.line i r.line)
    (hlineOwned : ∀ b, r.line = some b → ∃ bs, r.bufs b = some bs)
    (hwritten : s'.written = Function.update s.written i r.sent)
    (hright : ∀ bs ∈ r.sent, r.task.writes = some bs) :
    Owned lines ended (Function.update res i r) s' := by
  have hproj : ∀ {β : Type} (f : Local → β),
      (fun j => f (Function.update res i r j)) = Function.update (fun j => f (res j)) i (f r) :=
    fun f => funext fun j => Function.apply_update (fun _ => f) res i r j
  have htasks : (fun j => (Function.update res i r j).task) = fun j => (res j).task := by
    rw [hproj Local.task, htask, Function.update_eq_self]
  -- What has ended is another call, so what it has stays.
  have hother : ∀ {j}, ended j → Function.update res i r j = res j := by
    intro j hj
    exact Function.update_of_ne (by rintro rfl; exact hi hj) _ _
  constructor
  case buffers => rwa [hproj Local.bufs]
  case encoders => rwa [hproj Local.encs]
  case slices => rwa [hproj Local.slices]
  case line =>
    rw [hline, show s.line = fun j => (res j).line from funext h.line]
    exact fun j => (congrFun (hproj Local.line) j).symm
  case lineOwned =>
    intro j b hj
    by_cases hji : j = i
    · subst hji
      rw [Function.update_self] at hj ⊢
      exact hlineOwned b hj
    · rw [Function.update_of_ne hji] at hj ⊢
      exact h.lineOwned hj
  case written =>
    rw [hwritten, show s.written = fun j => (res j).sent from funext h.written]
    exact fun j => (congrFun (hproj Local.sent) j).symm
  case right =>
    intro j bs hbs
    by_cases hj : j = i
    · subst hj
      rw [Function.update_self] at hbs ⊢
      exact hright bs hbs
    · rw [Function.update_of_ne hj] at hbs ⊢
      exact h.right hbs
  case call => exact fun j => (congrArg Task.call (congrFun htasks j)).trans (h.call j)
  case writes => exact fun j => (congrArg Task.writes (congrFun htasks j)).trans (h.writes j)
  case seenBufs =>
    intro j b bs hj
    rw [congrFun htasks j] at hj
    obtain ⟨k, hk, hown⟩ := h.seenBufs hj
    exact ⟨k, hk, by rwa [hother hk]⟩
  case seenEncs =>
    intro j e obj hj
    rw [congrFun htasks j] at hj
    obtain ⟨k, hk, hown⟩ := h.seenEncs hj
    exact ⟨k, hk, by rwa [hother hk]⟩

/-- What the call did not change. -/
theorem line_self (h : Owned lines ended res s) (i : Nat) :
    s.line = Function.update s.line i (res i).line := by
  rw [← h.line i, Function.update_eq_self]

theorem written_self (h : Owned lines ended res s) (i : Nat) :
    s.written = Function.update s.written i (res i).sent := by
  rw [← h.written i, Function.update_eq_self]

theorem split_self {α : Type} {p : Pool α} {ready : α → Prop} (f : Local → Nat → Option α)
    (h : p.Split ready fun j => f (res j)) (i : Nat) :
    p.Split ready (Function.update (fun j => f (res j)) i (f (res i))) :=
  (Function.update_eq_self i fun j => f (res j)).symm ▸ h

/-- A call writes to a buffer, of its own or new. -/
theorem changeBufs (h : Owned lines ended res s) (hi : ¬ ended i) {b : Nat} {bs : Bytes}
    {buffers : Pool Bytes}
    (hbuffers : buffers.Split (fun _ => True)
      (Pool.reown (fun j => (res j).bufs) i b (some bs))) :
    Owned lines ended (Function.update res i ((res i).setBuf b (some bs)))
      { s with buffers := buffers } := by
  refine h.change hi rfl hbuffers (split_self Local.encs h.encoders i)
    (split_self Local.slices h.slices i) (h.line_self i) (fun b' hline => ?_) (h.written_self i)
    (fun _ => h.right)
  by_cases hb : b' = b
  · exact ⟨bs, by rw [hb]; exact Function.update_self b _ _⟩
  · obtain ⟨bs', hbs'⟩ := h.lineOwned hline
    exact ⟨bs', (Function.update_of_ne hb _ _).trans hbs'⟩

/-- A change of the encoders of a call. -/
theorem changeEncs (h : Owned lines ended res s) (hi : ¬ ended i) {e : Nat}
    {x : Option EncoderObject} {encoders : Pool EncoderObject}
    (hencoders : encoders.Split (fun obj => obj = .zero)
      (Pool.reown (fun j => (res j).encs) i e x)) :
    Owned lines ended (Function.update res i ((res i).setEnc e x))
      { s with encoders := encoders } :=
  h.change hi rfl (split_self Local.bufs h.buffers i) hencoders
    (split_self Local.slices h.slices i) (h.line_self i) (fun _ => h.lineOwned) (h.written_self i)
    (fun _ => h.right)

/-- A change of the slices of a call. -/
theorem changeSlices (h : Owned lines ended res s) (hi : ¬ ended i) {a : Nat}
    {x : Option (Slice AppendCall)} {slices : Pool (Slice AppendCall)}
    (hslices : slices.Split (fun a => a.toList = [])
      (Pool.reown (fun j => (res j).slices) i a x)) :
    Owned lines ended (Function.update res i ((res i).setSlice a x)) { s with slices := slices } :=
  h.change hi rfl (split_self Local.bufs h.buffers i) (split_self Local.encs h.encoders i) hslices
    (h.line_self i) (fun _ => h.lineOwned) (h.written_self i) (fun _ => h.right)

/-- A call frees a buffer; if it is its line, there is no line left. -/
theorem free (h : Owned lines ended res s) (hi : ¬ ended i) {b : Nat} {bs : Bytes}
    (hb : (res i).bufs b = some bs) :
    Owned lines ended (Function.update res i ((res i).freeBuf b))
      { s with
        buffers := s.buffers.put b
        line := fun call => if s.line call = some b then none else s.line call } := by
  refine h.change hi rfl (h.buffers.put hb trivial) (split_self Local.encs h.encoders i)
    (split_self Local.slices h.slices i) (funext fun j => ?_) (fun b' hline => ?_)
    (h.written_self i) (fun _ => h.right)
  · show (if s.line j = some b then none else s.line j) =
      Function.update s.line i (if (res i).line = some b then none else (res i).line) j
    by_cases hj : j = i
    · rw [hj, Function.update_self, h.line i]
    · -- The buffer belongs to this call, so it is not the line of another one.
      have hne : s.line j ≠ some b := by
        intro hline
        rw [h.line j] at hline
        obtain ⟨bs', hbs'⟩ := h.lineOwned hline
        exact hj (h.buffers.single hbs' hb)
      rw [Function.update_of_ne hj, if_neg hne]
  · replace hline : (if (res i).line = some b then none else (res i).line) = some b' := hline
    split at hline
    · cases hline
    · next hne =>
      obtain ⟨bs', hbs'⟩ := h.lineOwned hline
      have hb' : b' ≠ b := by
        rintro rfl
        exact hne hline
      exact ⟨bs', (Function.update_of_ne hb' _ _).trans hbs'⟩

/-- A call gets its line. -/
theorem returned (h : Owned lines ended res s) (hi : ¬ ended i) {b : Nat} {bs : Bytes}
    (hb : (res i).bufs b = some bs) :
    Owned lines ended (Function.update res i { res i with line := some b })
      { s with line := Function.update s.line i (some b) } :=
  h.change hi rfl (split_self Local.bufs h.buffers i) (split_self Local.encs h.encoders i)
    (split_self Local.slices h.slices i) rfl (fun _ hline => ⟨bs, Option.some.inj hline ▸ hb⟩)
    (h.written_self i) (fun _ => h.right)

/-- A call writes its line. -/
theorem wrote (h : Owned lines ended res s) (hi : ¬ ended i) {bs : Bytes}
    (hbs : (res i).task.writes = some bs) :
    Owned lines ended (Function.update res i { res i with sent := (res i).sent ++ [bs] })
      { s with out := s.out ++ [(i, bs)] } := by
  refine h.change hi rfl (split_self Local.bufs h.buffers i) (split_self Local.encs h.encoders i)
    (split_self Local.slices h.slices i) (h.line_self i) (fun _ => h.lineOwned)
    (funext fun j => ?_) (fun bs' hmem => ?_)
  · rw [← h.written i]
    by_cases hj : j = i
    · subst hj
      rw [Function.update_self]
      simp only [Objects.written, List.filter_append, List.map_append, List.filter_cons,
        decide_true, if_true, List.filter_nil, List.map_cons, List.map_nil]
    · rw [Function.update_of_ne hj]
      simp only [Objects.written, List.filter_append, List.filter_cons, Ne.symm hj, decide_false,
        Bool.false_eq_true, if_false, List.filter_nil, List.append_nil]
  · obtain hmem | hmem := List.mem_append.mp hmem
    · exact h.right hmem
    · rwa [List.mem_singleton.mp hmem]

/-- A call reads what is there. -/
theorem reads (h : Owned lines ended res s) {b : Nat} {bs : Bytes} (hb : (res i).Reads b bs) :
    s.buffers.object b = bs := by
  obtain hb | hb := hb
  · exact (h.buffers.owned hb).2
  · obtain ⟨j, -, hj⟩ := h.seenBufs hb
    exact (h.buffers.owned hj).2

theorem readsEncoder (h : Owned lines ended res s) {e : Nat} {obj : EncoderObject}
    (he : (res i).ReadsEncoder e obj) : s.encoders.object e = obj := by
  obtain he | he := he
  · exact (h.encoders.owned he).2
  · obtain ⟨j, -, hj⟩ := h.seenEncs he
    exact (h.encoders.owned hj).2

/-- A buffer that nobody owns is not one that the call reads. -/
theorem unseenBuf (h : Owned lines ended res s) {b : Nat} (hb : ∀ j, (res j).bufs b = none) :
    (res i).task.seenBufs b = none := by
  cases hseen : (res i).task.seenBufs b with
  | none => rfl
  | some bs =>
    obtain ⟨j, -, hj⟩ := h.seenBufs hseen
    rw [hb j] at hj
    cases hj

theorem unseenEnc (h : Owned lines ended res s) {e : Nat} (he : ∀ j, (res j).encs e = none) :
    (res i).task.seenEncs e = none := by
  cases hseen : (res i).task.seenEncs e with
  | none => rfl
  | some obj =>
    obtain ⟨j, -, hj⟩ := h.seenEncs hseen
    rw [he j] at hj
    cases hj

/-- A new call gets its task. -/
theorem assign (h : Owned lines ended res s) {lines' : Nat → Option Bytes} {old task : Task}
    (hidle : res i = .start old) (hlines : ∀ j ≠ i, lines' j = lines j) (hcall : task.call = i)
    (hwrites : task.writes = lines' i)
    (hseenBufs : ∀ b bs, task.seenBufs b = some bs → ∃ j, ended j ∧ (res j).bufs b = some bs)
    (hseenEncs : ∀ e obj, task.seenEncs e = some obj → ∃ j, ended j ∧ (res j).encs e = some obj) :
    Owned lines' ended (Function.update res i (.start task)) s := by
  -- What calls have does not depend on their tasks.
  have hsame : ∀ {β : Type} (f : Local → β), f (.start old) = f (.start task) →
      ∀ j, f (Function.update res i (.start task) j) = f (res j) := by
    intro β f hf j
    by_cases hj : j = i
    · rw [hj, Function.update_self, hidle, hf]
    · rw [Function.update_of_ne hj]
  have hbufs := hsame Local.bufs rfl
  have hencs := hsame Local.encs rfl
  have hline := hsame Local.line rfl
  have hsent := hsame Local.sent rfl
  have htask : ∀ {j}, j ≠ i → (Function.update res i (.start task) j).task = (res j).task :=
    fun hj => by rw [Function.update_of_ne hj]
  have htaskSelf : (Function.update res i (.start task) i).task = task := by
    rw [Function.update_self]
    rfl
  constructor
  case buffers => exact (funext hbufs : (fun j => _) = _) ▸ h.buffers
  case encoders => exact (funext hencs : (fun j => _) = _) ▸ h.encoders
  case slices => exact (funext (hsame Local.slices rfl) : (fun j => _) = _) ▸ h.slices
  case line => exact fun j => (h.line j).trans (hline j).symm
  case lineOwned =>
    intro j b hj
    rw [hline j] at hj
    rw [hbufs j]
    exact h.lineOwned hj
  case written => exact fun j => (h.written j).trans (hsent j).symm
  case right =>
    intro j bs hbs
    by_cases hj : j = i
    · rw [hj, hsent i, hidle] at hbs
      cases hbs
    · rw [hsent j] at hbs
      rw [htask hj]
      exact h.right hbs
  case call =>
    intro j
    by_cases hj : j = i
    · rw [hj, htaskSelf, hcall]
    · rw [htask hj, h.call j]
  case writes =>
    intro j
    by_cases hj : j = i
    · rw [hj, htaskSelf, hwrites]
    · rw [htask hj, h.writes j, hlines j hj]
  case seenBufs =>
    intro j b bs hseen
    have hold : ∃ k, ended k ∧ (res k).bufs b = some bs := by
      by_cases hj : j = i
      · rw [hj, htaskSelf] at hseen
        exact hseenBufs b bs hseen
      · rw [htask hj] at hseen
        exact h.seenBufs hseen
    obtain ⟨k, hk, hown⟩ := hold
    exact ⟨k, hk, by rwa [hbufs k]⟩
  case seenEncs =>
    intro j e obj hseen
    have hold : ∃ k, ended k ∧ (res k).encs e = some obj := by
      by_cases hj : j = i
      · rw [hj, htaskSelf] at hseen
        exact hseenEncs e obj hseen
      · rw [htask hj] at hseen
        exact h.seenEncs hseen
    obtain ⟨k, hk, hown⟩ := hold
    exact ⟨k, hk, by rwa [hencs k]⟩

/-- Outside the pool, the place of a buffer belongs to a call. -/
theorem at_of_keeps (h : Owned lines ended res s) {b : Nat} {p : Place} (hp : s.Keeps b p)
    (hpool : ∀ k, p ≠ .pool k) : ∃ i, (res i).At b p := by
  obtain ⟨hholds, hfreed⟩ := hp
  cases p with
  | pool k => exact absurd rfl (hpool k)
  | buf e =>
    obtain ⟨⟨hlt, hfree⟩, hbuf⟩ := hholds
    obtain ⟨i, obj, hobj⟩ := h.encoders.total hlt hfree
    obtain rfl := (h.encoders.owned hobj).2
    exact ⟨i, _, hobj, hbuf, hfreed e rfl⟩
  | reflectBuf e =>
    obtain ⟨⟨hlt, hfree⟩, hbuf⟩ := hholds
    obtain ⟨i, obj, hobj⟩ := h.encoders.total hlt hfree
    obtain rfl := (h.encoders.owned hobj).2
    exact ⟨i, _, hobj, hbuf⟩
  | line call => exact ⟨call, (h.call call).symm, (h.line call).symm.trans hholds⟩

/-- When the calls are tidy, a buffer is in one place. -/
theorem keeps_single (h : Owned lines ended res s) (htidy : ∀ i, (res i).Tidy) {b : Nat}
    {p q : Place} (hp : s.Keeps b p) (hq : s.Keeps b q) : p = q := by
  -- What a call refers to does not lie in the pool.
  have hapart : ∀ {k i : Nat} {p : Place}, s.buffers.free[k]? = some b → ¬ (res i).At b p := by
    intro k i p hk hat
    obtain ⟨bs, hbs⟩ := (htidy i).owned hat
    exact h.buffers.not_free hbs (List.mem_of_getElem? hk)
  by_cases hpool : ∃ k, p = .pool k
  · obtain ⟨k, rfl⟩ := hpool
    by_cases hpool' : ∃ k', q = .pool k'
    · obtain ⟨k', rfl⟩ := hpool'
      have hk : s.buffers.free[k]? = some b := hp.1
      have hk' : s.buffers.free[k']? = some b := hq.1
      obtain ⟨hlt, -⟩ := List.getElem?_eq_some_iff.mp hk
      rw [(List.getElem?_inj hlt h.buffers.nodup).mp (hk.trans hk'.symm)]
    · obtain ⟨i, hat⟩ := h.at_of_keeps hq (not_exists.mp hpool')
      exact absurd hat (hapart hp.1)
  · obtain ⟨i, hat⟩ := h.at_of_keeps hp (not_exists.mp hpool)
    by_cases hpool' : ∃ k', q = .pool k'
    · obtain ⟨k', rfl⟩ := hpool'
      exact absurd hat (hapart hq.1)
    · obtain ⟨j, hat'⟩ := h.at_of_keeps hq (not_exists.mp hpool')
      obtain ⟨bs, hbs⟩ := (htidy i).owned hat
      obtain ⟨bs', hbs'⟩ := (htidy j).owned hat'
      obtain rfl := h.buffers.single hbs hbs'
      exact (htidy i).single hat hat'

end Owned

/-- The operations do what `spec` says. -/
theorem machine_meets (lines : Nat → Option Bytes) : machine.Meets spec (Owned lines) := by
  constructor
  case mono =>
    intro ended ended' res s hle h
    refine { h with seenBufs := fun hseen => ?_, seenEncs := fun hseen => ?_ }
    · obtain ⟨j, hj, hown⟩ := h.seenBufs hseen
      exact ⟨j, hle j hj, hown⟩
    · obtain ⟨j, hj, hown⟩ := h.seenEncs hseen
      exact ⟨j, hle j hj, hown⟩
  case exec =>
    intro ended res s i o post c hi h hspec
    cases o with
    | getBuffer =>
      obtain ⟨-, hpost⟩ := hspec
      obtain ⟨hnone, -, hsplit⟩ := h.buffers.get [] trivial c.pick i
      have hset := hsplit.set (Pool.reown_self _) []
      rw [Pool.reown_reown] at hset
      exact ⟨_, hpost _ (hnone i) (h.unseenBuf hnone), h.changeBufs hi hset⟩
    | freeBuffer b =>
      obtain ⟨-, ⟨bs, hbs⟩, hpost⟩ := hspec
      exact ⟨_, hpost, h.free hi hbs⟩
    | getEncoder =>
      obtain ⟨-, hpost⟩ := hspec
      obtain ⟨hnone, hzero, hsplit⟩ := h.encoders.get .zero rfl c.pick i
      rw [hzero] at hsplit
      exact ⟨_, hpost _ (hnone i) (h.unseenEnc hnone), h.changeEncs hi hsplit⟩
    | putEncoder e =>
      obtain ⟨-, hzero, hpost⟩ := hspec
      exact ⟨_, hpost, h.changeEncs hi (h.encoders.put hzero rfl)⟩
    | getSlice =>
      obtain ⟨-, hpost⟩ := hspec
      obtain ⟨hnone, hempty, hsplit⟩ := h.slices.get (.ofList []) rfl c.pick i
      exact ⟨_, hpost _ _ (hnone i) hempty, h.changeSlices hi hsplit⟩
    | putSlice a =>
      obtain ⟨-, ⟨v, hv, hempty⟩, hpost⟩ := hspec
      exact ⟨_, hpost, h.changeSlices hi (h.slices.put hv hempty)⟩
    | write call b =>
      obtain ⟨-, hcall, bs, hbs, hwrites, hpost⟩ := hspec
      obtain rfl : i = call := (h.call i).symm.trans hcall
      obtain rfl := (h.buffers.owned hbs).2
      exact ⟨_, hpost, h.wrote hi hwrites⟩
    | newEncoder obj =>
      obtain ⟨hnone, hsplit⟩ := h.encoders.alloc i obj
      exact ⟨_, hspec _ (hnone i) (h.unseenEnc hnone), h.changeEncs hi hsplit⟩
    | load b =>
      obtain ⟨bs, hbs, hpost⟩ := hspec
      obtain rfl := h.reads hbs
      exact ⟨res i, hpost, by rwa [Function.update_eq_self]⟩
    | store b bs =>
      obtain ⟨⟨old, hold⟩, hpost⟩ := hspec
      exact ⟨_, hpost, h.changeBufs hi (h.buffers.set hold bs)⟩
    | scribble b =>
      obtain ⟨⟨old, hold⟩, hpost⟩ := hspec
      exact ⟨_, hpost c.junk, h.changeBufs hi (h.buffers.set hold c.junk)⟩
    | loadEncoder e =>
      obtain ⟨obj, hobj, hpost⟩ := hspec
      obtain rfl := h.readsEncoder hobj
      exact ⟨res i, hpost, by rwa [Function.update_eq_self]⟩
    | storeEncoder e obj =>
      obtain ⟨⟨old, hold⟩, hpost⟩ := hspec
      exact ⟨_, hpost, h.changeEncs hi (h.encoders.set hold obj)⟩
    | loadSlice a =>
      obtain ⟨v, hv, hpost⟩ := hspec
      obtain rfl := (h.slices.owned hv).2
      exact ⟨res i, hpost, by rwa [Function.update_eq_self]⟩
    | storeSlice a v =>
      obtain ⟨⟨old, hold⟩, hpost⟩ := hspec
      exact ⟨_, hpost, h.changeSlices hi (h.slices.set hold v)⟩
    | returnLine call b =>
      obtain ⟨hcall, ⟨bs, hbs⟩, hpost⟩ := hspec
      obtain rfl : i = call := (h.call i).symm.trans hcall
      exact ⟨_, hpost, h.returned hi hbs⟩

end Zap.Zapcore.Pooled
