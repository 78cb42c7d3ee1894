import Zap.Laws.Appends
import Zap.Laws.PoolOwnership

/-!
# One call among others

What the code of a call does to its resource. A call that works on an encoder owns it together with
its buffers, and then the encoder stands for a `JsonEncoder`: `Local.enc`. The methods do to what it
stands for what the methods of `JsonEncoder` do, whatever was in the objects that the pools gave.
-/

set_option autoImplicit false

namespace Zap.Zapcore.Pooled

open Data

/-! ## Encoders that stand for values -/

/-- The object of an encoder: `b` is its buffer, and `refl` the scratch buffer for reflected values
with what is in it. -/
def objectOf (v : JsonEncoder) (b : Nat) (refl : Option (Nat × Bytes)) : EncoderObject where
  config := some v.cfg
  buf := some b
  spaced := v.spaced
  openNamespaces := v.openNamespaces
  reflectBuf := refl.map Prod.fst
  reflectEnc := refl.map fun x => (v.cfg.reflectedEncoder, x.1)
  freed := false

namespace Local

def scratch (r : Local) : Option (Nat × Bytes) → Local
  | none => r
  | some (b, bs) => r.setBuf b (some bs)

/-- A call that owns encoder `e`, which stands for `v`, on top of what it has in `r`. -/
def enc (r : Local) (e b : Nat) (v : JsonEncoder) (refl : Option (Nat × Bytes)) : Local :=
  ((r.scratch refl).setBuf b (some v.buf)).setEnc e (some (objectOf v b refl))

/-- A call that has no encoder and no line. -/
structure Bare (r : Local) : Prop where
  encs : r.encs = fun _ => none
  line : r.line = none

/-- The buffers of an encoder are apart from those in `r`, and from each other. -/
structure Fits (r : Local) (b : Nat) (refl : Option (Nat × Bytes)) : Prop extends r.Bare where
  buf : r.bufs b = none
  scratch {b' : Nat} {bs : Bytes} (h : refl = some (b', bs)) : r.bufs b' = none ∧ b' ≠ b

variable {r : Local} {e b b' : Nat} {v v' : JsonEncoder} {refl : Option (Nat × Bytes)} {bs : Bytes}

theorem Bare.tidy (h : r.Bare) : r.Tidy := by
  have hno : ∀ {b p}, ¬ r.At b p := by
    intro b p hp
    cases p with
    | pool i => exact hp
    | buf e =>
      obtain ⟨obj, hobj, -⟩ := hp
      rw [h.encs] at hobj
      cases hobj
    | reflectBuf e =>
      obtain ⟨obj, hobj, -⟩ := hp
      rw [h.encs] at hobj
      cases hobj
    | line call =>
      obtain ⟨-, hline⟩ := hp
      rw [h.line] at hline
      cases hline
  exact ⟨fun hp => absurd hp hno, fun hp => absurd hp hno⟩

theorem Bare.setBuf (h : r.Bare) (b : Nat) (x : Option Bytes) : (r.setBuf b x).Bare :=
  ⟨h.encs, h.line⟩

theorem Bare.setSlice (h : r.Bare) (a : Nat) (x : Option (Slice AppendCall)) :
    (r.setSlice a x).Bare :=
  ⟨h.encs, h.line⟩

theorem Bare.fits (h : r.Bare) (hb : r.bufs b = none) : r.Fits b none :=
  { h with buf := hb, scratch := fun hrefl => by cases hrefl }

/-! ### What one has and what one changes -/

@[simp]
theorem enc_task : (r.enc e b v refl).task = r.task := by
  cases refl <;> rfl

@[simp]
theorem enc_sent : (r.enc e b v refl).sent = r.sent := by
  cases refl <;> rfl

theorem enc_encs : (r.enc e b v refl).encs e = some (objectOf v b refl) :=
  Function.update_self e _ _

theorem enc_buf : (r.enc e b v refl).bufs b = some v.buf := Function.update_self b _ _

theorem enc_scratch (h : b' ≠ b) : (r.enc e b v (some (b', bs))).bufs b' = some bs :=
  (Function.update_of_ne h _ _).trans (Function.update_self b' _ _)

/-- A buffer that neither the encoder nor the rest has. -/
theorem enc_fresh (h : (r.enc e b v none).bufs b' = none) : r.bufs b' = none ∧ b' ≠ b := by
  have hb : b' ≠ b := by
    rintro rfl
    rw [enc_buf] at h
    cases h
  exact ⟨(Function.update_of_ne hb _ _).symm.trans h, hb⟩

/-- A buffer of the rest is none of the encoder's. -/
theorem Fits.ne (h : r.Fits b refl) (hb' : r.bufs b' = some bs) :
    b' ≠ b ∧ ∀ x, refl = some x → b' ≠ x.1 := by
  constructor
  · rintro rfl
    rw [h.buf] at hb'
    cases hb'
  · rintro x rfl rfl
    rw [(h.scratch rfl).1] at hb'
    cases hb'

theorem enc_other (h : r.Fits b refl) (hb' : r.bufs b' = some bs) :
    (r.enc e b v refl).bufs b' = some bs := by
  obtain ⟨hb, hscratch⟩ := h.ne hb'
  refine (Function.update_of_ne hb _ _).trans ?_
  cases refl with
  | none => exact hb'
  | some x => exact (Function.update_of_ne (hscratch x rfl) _ _).trans hb'

theorem setEnc_setEnc (r : Local) (e : Nat) (x y : Option EncoderObject) :
    (r.setEnc e x).setEnc e y = r.setEnc e y := by
  simp only [setEnc, Function.update_idem]

theorem setBuf_setBuf (r : Local) (b : Nat) (x y : Option Bytes) :
    (r.setBuf b x).setBuf b y = r.setBuf b y := by
  simp only [setBuf, Function.update_idem]

theorem setBuf_comm (r : Local) (h : b' ≠ b) (x y : Option Bytes) :
    (r.setBuf b x).setBuf b' y = (r.setBuf b' y).setBuf b x := by
  simp only [setBuf, Function.update_comm h]

theorem setSlice_setSlice (r : Local) (a : Nat) (x y : Option (Slice AppendCall)) :
    (r.setSlice a x).setSlice a y = r.setSlice a y := by
  simp only [setSlice, Function.update_idem]

theorem setSlice_setBuf (r : Local) (a b : Nat) (x : Option (Slice AppendCall))
    (y : Option Bytes) : (r.setSlice a x).setBuf b y = (r.setBuf b y).setSlice a x := rfl

theorem setEnc_setBuf (r : Local) (e b : Nat) (x : Option EncoderObject) (y : Option Bytes) :
    (r.setEnc e x).setBuf b y = (r.setBuf b y).setEnc e x := rfl

/-- What is there already. -/
theorem setBuf_self {x : Option Bytes} (h : r.bufs b = x) : r.setBuf b x = r := by
  rw [setBuf, ← h, Function.update_eq_self]

theorem setEnc_self {x : Option EncoderObject} (h : r.encs e = x) : r.setEnc e x = r := by
  rw [setEnc, ← h, Function.update_eq_self]

theorem setSlice_self {a : Nat} {x : Option (Slice AppendCall)} (h : r.slices a = x) :
    r.setSlice a x = r := by
  rw [setSlice, ← h, Function.update_eq_self]

/-- Without a line, freeing a buffer is no longer having it. -/
theorem freeBuf_eq (h : r.line = none) (b : Nat) : r.freeBuf b = r.setBuf b none := by
  simp only [freeBuf, setBuf, h, reduceCtorEq, if_false]

theorem freeBuf_setEnc (hline : r.line = none) (hb : r.bufs b = none) {x : Option Bytes}
    {obj : Option EncoderObject} :
    ((r.setBuf b x).setEnc e obj).freeBuf b = r.setEnc e obj := by
  have hline' : ((r.setBuf b x).setEnc e obj).line = none := hline
  rw [freeBuf_eq hline', setEnc_setBuf, setBuf_setBuf, setBuf_self hb]

/-- A method has changed what the encoder stands for. -/
theorem enc_method (hcfg : v'.cfg = v.cfg) (hspaced : v'.spaced = v.spaced) :
    ((r.enc e b v refl).setBuf b (some v'.buf)).setEnc e
        (some { objectOf v b refl with openNamespaces := v'.openNamespaces }) =
      r.enc e b v' refl := by
  have hobj : { objectOf v b refl with openNamespaces := v'.openNamespaces } =
      objectOf v' b refl := by
    simp only [objectOf, hcfg, hspaced]
  rw [hobj, enc, setEnc_setBuf, setEnc_setEnc, setBuf_setBuf, enc]

theorem enc_setBuf (bs : Bytes) :
    (r.enc e b v refl).setBuf b (some bs) = r.enc e b { v with buf := bs } refl := by
  rw [enc, setEnc_setBuf, setBuf_setBuf]
  rfl

/-- A buffer of the rest has other contents. -/
theorem enc_setOther (h : r.Fits b refl) (hb' : r.bufs b' = some bs) (x : Option Bytes) :
    (r.enc e b v refl).setBuf b' x = (r.setBuf b' x).enc e b v refl := by
  obtain ⟨hb, hscratch⟩ := h.ne hb'
  rw [enc, setEnc_setBuf, setBuf_comm _ hb, enc]
  cases refl with
  | none => rfl
  | some y => rw [scratch, setBuf_comm _ (hscratch y rfl), scratch]

theorem Fits.setOther (h : r.Fits b refl) (hb' : r.bufs b' = some bs) (x : Option Bytes) :
    (r.setBuf b' x).Fits b refl := by
  obtain ⟨hb, hscratch⟩ := h.ne hb'
  refine { h.toBare.setBuf b' x with buf := ?_, scratch := fun {c cs} hrefl => ?_ }
  · exact (Function.update_of_ne hb.symm _ _).trans h.buf
  · obtain ⟨hfresh, hne⟩ := h.scratch hrefl
    exact ⟨(Function.update_of_ne (hscratch _ hrefl).symm _ _).trans hfresh, hne⟩

/-- The scratch buffer has other contents. -/
theorem enc_setScratch (h : b' ≠ b) (bs' : Bytes) :
    (r.enc e b v (some (b', bs))).setBuf b' (some bs') = r.enc e b v (some (b', bs')) := by
  rw [enc, setEnc_setBuf, setBuf_comm _ h, scratch, setBuf_setBuf]
  rfl

/-! ### Where the buffers are -/

/-- A call with one encoder, whose buffers it has. -/
theorem Bare.tidy_setEnc (h : r.Bare) {obj : EncoderObject}
    (hbuf : ∀ b, obj.buf = some b → obj.freed = false →
      (∃ bs, r.bufs b = some bs) ∧ obj.reflectBuf ≠ some b)
    (hscratch : ∀ b, obj.reflectBuf = some b → ∃ bs, r.bufs b = some bs) :
    (r.setEnc e (some obj)).Tidy := by
  have hcases : ∀ {b p}, (r.setEnc e (some obj)).At b p →
      p = .buf e ∧ obj.buf = some b ∧ obj.freed = false ∨
        p = .reflectBuf e ∧ obj.reflectBuf = some b := by
    have hone : ∀ {e' obj'}, (r.setEnc e (some obj)).encs e' = some obj' → e' = e ∧ obj' = obj := by
      intro e' obj' hobj
      by_cases he : e' = e
      · subst he
        exact ⟨rfl, (Option.some.inj ((Function.update_self e' _ _).symm.trans hobj)).symm⟩
      · have hnone := (Function.update_of_ne he _ _).symm.trans hobj
        rw [h.encs] at hnone
        cases hnone
    intro b p hp
    cases p with
    | pool i => exact hp.elim
    | buf e' =>
      obtain ⟨obj', hobj, hb, hfreed⟩ := hp
      obtain ⟨rfl, rfl⟩ := hone hobj
      exact .inl ⟨rfl, hb, hfreed⟩
    | reflectBuf e' =>
      obtain ⟨obj', hobj, hb⟩ := hp
      obtain ⟨rfl, rfl⟩ := hone hobj
      exact .inr ⟨rfl, hb⟩
    | line call => exact absurd (hp.2.symm.trans h.line) (fun h => by cases h)
  constructor
  · intro b p hp
    obtain ⟨-, hb, hfreed⟩ | ⟨-, hb⟩ := hcases hp
    · exact (hbuf b hb hfreed).1
    · exact hscratch b hb
  · intro b p q hp hq
    obtain ⟨rfl, hb, hfreed⟩ | ⟨rfl, hb⟩ := hcases hp
    · obtain ⟨rfl, -⟩ | ⟨-, hb'⟩ := hcases hq
      · rfl
      · exact absurd hb' (hbuf b hb hfreed).2
    · obtain ⟨-, hb', hfreed⟩ | ⟨rfl, -⟩ := hcases hq
      · exact absurd hb (hbuf b hb' hfreed).2
      · rfl

/-- An encoder without buffers. -/
theorem Bare.tidy_empty (h : r.Bare) {obj : EncoderObject} (hbuf : obj.buf = none)
    (hscratch : obj.reflectBuf = none) : (r.setEnc e (some obj)).Tidy :=
  h.tidy_setEnc (fun b hb => by rw [hbuf] at hb; cases hb)
    (fun b hb => by rw [hscratch] at hb; cases hb)

theorem Bare.scratch (h : r.Bare) (refl : Option (Nat × Bytes)) : (r.scratch refl).Bare := by
  cases refl with
  | none => exact h
  | some x => exact h.setBuf x.1 (some x.2)

theorem Fits.tidy (h : r.Fits b refl) : (r.enc e b v refl).Tidy := by
  refine ((h.toBare.scratch refl).setBuf b (some v.buf)).tidy_setEnc ?_ ?_
  · intro b' hb' _
    cases hb'
    refine ⟨⟨v.buf, Function.update_self b _ _⟩, fun hrefl => ?_⟩
    obtain ⟨x, rfl, hx⟩ := Option.map_eq_some_iff.mp hrefl
    exact (h.scratch rfl).2 hx
  · intro b' hb'
    obtain ⟨x, rfl, rfl⟩ := Option.map_eq_some_iff.mp hb'
    exact ⟨x.2, enc_scratch (e := e) (v := v) (h.scratch rfl).2⟩

/-- The encoder has got a scratch buffer. -/
theorem enc_newScratch (h : b' ≠ b) :
    ((r.enc e b v none).setBuf b' (some bs)).setEnc e
        (some { objectOf v b none with
          reflectBuf := some b', reflectEnc := some (v.cfg.reflectedEncoder, b') }) =
      r.enc e b v (some (b', bs)) := by
  rw [enc, setEnc_setBuf, setEnc_setEnc, setBuf_comm _ h]
  rfl

end Local

/-! ## Methods -/

section Methods

variable {r : Local} {e b : Nat} {v : JsonEncoder} {refl : Option (Nat × Bytes)}
  {fail : Local → Prop}

/-- Following a pointer that may be nil. -/
theorem wp_deref {α β : Type} {x : Option α} {k : α → Code β} {post : β → Local → Prop}
    (hnone : x = none → fail r) (hsome : ∀ a, x = some a → (k a).wp spec r post fail) :
    ((deref x).bind k).wp spec r post fail := by
  cases x with
  | none => exact hnone rfl
  | some a => exact hsome a rfl

/-- A method does to the encoder what it does to the value that the encoder stands for. -/
theorem wp_method {f : JsonEncoder → Option JsonEncoder}
    {post : Unit → Local → Prop}
    (hsteady : ∀ v', f v = some v' → v'.cfg = v.cfg ∧ v'.spaced = v.spaced)
    (hfail : f v = none → fail (r.enc e b v refl))
    (hpost : ∀ v', f v = some v' → post () (r.enc e b v' refl)) :
    (method e f).wp spec (r.enc e b v refl) post fail := by
  refine ⟨objectOf v b refl, .inl Local.enc_encs, v.buf, .inl Local.enc_buf, ?_⟩
  refine wp_deref hfail fun v' hv' => ?_
  refine ⟨⟨v.buf, Local.enc_buf⟩, ⟨objectOf v b refl, Local.enc_encs⟩, ?_⟩
  obtain ⟨hcfg, hspaced⟩ := hsteady v' hv'
  exact Local.enc_method hcfg hspaced ▸ hpost v' hv'

theorem wp_edit {f : JsonEncoder → JsonEncoder} {post : Unit → Local → Prop}
    (hsteady : (f v).cfg = v.cfg ∧ (f v).spaced = v.spaced)
    (hpost : post () (r.enc e b (f v) refl)) :
    (edit e f).wp spec (r.enc e b v refl) post fail :=
  wp_method (fun _ hv' => Option.some.inj hv' ▸ hsteady) (fun hv => by cases hv)
    (fun _ hv' => Option.some.inj hv' ▸ hpost)

theorem wp_resetReflectBuf (h : r.Fits b refl) {post : Unit → Local → Prop}
    (hpost : ∀ b', r.Fits b (some (b', [])) → post () (r.enc e b v (some (b', [])))) :
    (resetReflectBuf e).wp spec (r.enc e b v refl) post fail := by
  refine ⟨objectOf v b refl, .inl Local.enc_encs, ?_⟩
  cases refl with
  | none =>
    refine ⟨h.tidy, fun b' hb' _ => ?_⟩
    obtain ⟨hfresh, hne⟩ := Local.enc_fresh hb'
    refine ⟨⟨_, Local.enc_encs⟩, ?_⟩
    have hfit : r.Fits b (some (b', [])) :=
      { h with scratch := fun heq => by cases heq; exact ⟨hfresh, hne⟩ }
    exact Local.enc_newScratch hne ▸ hpost b' hfit
  | some x =>
    obtain ⟨hfresh, hne⟩ := h.scratch rfl
    refine ⟨⟨x.2, Local.enc_scratch hne⟩, ?_⟩
    have hfit : r.Fits b (some (x.1, [])) :=
      { h with scratch := fun heq => by cases heq; exact ⟨hfresh, hne⟩ }
    exact Local.enc_setScratch hne [] ▸ hpost x.1 hfit

theorem wp_encode {f : ReflectedEncoder} {w : Nat} {obj : Reflected} {old : Bytes}
    {post : Option Bytes → Local → Prop} (hold : r.bufs w = some old)
    (herr : ∀ err junk, f obj = .error err → post (some err) (r.setBuf w (some junk)))
    (hok : ∀ text, f obj = .ok text → post none (r.setBuf w (some (old ++ text)))) :
    (encode (f, w) obj).wp spec r post fail := by
  unfold encode
  split
  next err hcase => exact ⟨⟨old, hold⟩, fun junk => herr err junk hcase⟩
  next text hcase => exact ⟨old, .inl hold, ⟨old, hold⟩, hok text hcase⟩

/-- A reflected value is encoded to what it is encoded to without a pool: the scratch buffer is
empty, whatever was in it. -/
theorem wp_encodeReflected (h : r.Fits b refl) {val : Option Reflected}
    {post : Except Bytes Bytes → Local → Prop}
    (hpost : ∀ refl', r.Fits b refl' → post (v.encodeReflected val) (r.enc e b v refl')) :
    (encodeReflected e val).wp spec (r.enc e b v refl) post fail := by
  cases val with
  | none => exact hpost refl h
  | some obj =>
    show ((resetReflectBuf e).bind _).wp _ _ _ _
    rw [Prog.wp_bind]
    refine wp_resetReflectBuf h fun b' hfit => ?_
    obtain ⟨hfresh, hne⟩ := hfit.scratch rfl
    have hfits : ∀ bs, r.Fits b (some (b', bs)) := fun bs =>
      { hfit with scratch := fun heq => by cases heq; exact ⟨hfresh, hne⟩ }
    refine ⟨objectOf v b (some (b', [])), .inl Local.enc_encs, ?_⟩
    show ((encode (v.cfg.reflectedEncoder, b') obj).bind _).wp _ _ _ _
    rw [Prog.wp_bind]
    refine wp_encode (Local.enc_scratch hne) (fun err junk hcase => ?_) (fun text hcase => ?_)
    · have hval : v.encodeReflected (some obj) = .error err := by
        simp only [JsonEncoder.encodeReflected, hcase]
      rw [hval] at hpost
      rw [Local.enc_setScratch hne]
      exact hpost _ (hfits junk)
    · have hval : v.encodeReflected (some obj) = .ok (JsonEncoder.trimNewline text) := by
        simp only [JsonEncoder.encodeReflected, hcase]
      rw [hval] at hpost
      rw [Local.enc_setScratch hne]
      refine ⟨text, .inl (Local.enc_scratch hne), ⟨text, Local.enc_scratch hne⟩, ?_⟩
      rw [Local.enc_setScratch hne]
      refine ⟨JsonEncoder.trimNewline text, .inl (Local.enc_scratch hne), ?_⟩
      exact hpost _ (hfits _)

end Methods

/-! ## Marshalers -/

/-- On encoder `e`, which stands for `v`, a program returns or panics as `res` says, with what `e`
stands for afterwards. -/
def Computes {α : Type} (r : Local) (e b : Nat) (v : JsonEncoder) (p : Code α)
    (res : Option (JsonEncoder × α)) : Prop :=
  ∀ (refl : Option (Nat × Bytes)) (post : α → Local → Prop) (fail : Local → Prop), r.Fits b refl →
    (res = none → ∀ v' refl', r.Fits b refl' → fail (r.enc e b v' refl')) →
    (∀ v' a refl', res = some (v', a) → r.Fits b refl' → post a (r.enc e b v' refl')) →
    p.wp spec (r.enc e b v refl) post fail

namespace Computes

variable {α β : Type} {r : Local} {e b : Nat} {v : JsonEncoder} {res : Option (JsonEncoder × α)}

theorem ret (a : α) : Computes r e b v (.ret a) (some (v, a)) := by
  intro refl post fail h _ hpost
  exact hpost v a refl rfl h

theorem panic : Computes r e b v (.panic : Code α) none := by
  intro refl post fail h hfail _
  exact hfail rfl v refl h

theorem bind {p : Code α} {k : α → Code β} {g : JsonEncoder → α → Option (JsonEncoder × β)}
    (hp : Computes r e b v p res)
    (hk : ∀ v' a, res = some (v', a) → Computes r e b v' (k a) (g v' a)) :
    Computes r e b v (p.bind k) (res.bind fun x => g x.1 x.2) := by
  intro refl post fail h hfail hpost
  rw [Prog.wp_bind]
  refine hp refl _ fail h (fun hnone => hfail (by rw [hnone]; rfl)) fun v' a refl' hres h' => ?_
  refine hk v' a hres refl' post fail h' (fun hnone => hfail ?_) fun v'' c refl'' hsome => hpost v'' c refl'' ?_
  · rw [hres]
    exact hnone
  · rw [hres]
    exact hsome

theorem method {f : JsonEncoder → Option JsonEncoder}
    (hsteady : ∀ v', f v = some v' → v'.cfg = v.cfg ∧ v'.spaced = v.spaced) :
    Computes r e b v (method e f) ((f v).map fun v' => (v', ())) := by
  intro refl post fail h hfail hpost
  refine wp_method hsteady (fun hnone => hfail (by rw [hnone]; rfl) v refl h) fun v' hv' => ?_
  exact hpost v' () refl (by rw [hv']; rfl) h

theorem edit_bind {f : JsonEncoder → JsonEncoder} {p : Code α}
    (hsteady : (f v).cfg = v.cfg ∧ (f v).spaced = v.spaced) (hp : Computes r e b (f v) p res) :
    Computes r e b v ((edit e f).bind fun _ => p) res := by
  intro refl post fail h hfail hpost
  rw [Prog.wp_bind]
  exact wp_edit hsteady (hp refl post fail h hfail hpost)

/-- A last method, and an answer. -/
theorem edit_ret (f : JsonEncoder → JsonEncoder) (a : α)
    (hsteady : (f v).cfg = v.cfg ∧ (f v).spaced = v.spaced) :
    Computes r e b v ((edit e f).bind fun _ => .ret a) (some (f v, a)) :=
  edit_bind hsteady (ret a)

theorem reflected_bind {f : JsonEncoder → JsonEncoder} {val : Option Reflected}
    {k : Option Bytes → Code α} (hsteady : (f v).cfg = v.cfg ∧ (f v).spaced = v.spaced)
    (herr : ∀ err, v.encodeReflected val = .error err → Computes r e b v (k (some err)) res)
    (hok : ∀ bs, v.encodeReflected val = .ok bs → Computes r e b ((f v).write bs) (k none) res) :
    Computes r e b v ((writeReflected e val f).bind k) res := by
  intro refl post fail h hfail hpost
  show (((encodeReflected e val).bind _).bind k).wp _ _ _ _
  rw [Prog.wp_bind, Prog.wp_bind]
  refine wp_encodeReflected h fun refl' h' => ?_
  cases hval : v.encodeReflected val with
  | error err => exact herr err hval refl' post fail h' hfail hpost
  | ok bs =>
    show ((edit e _).bind _).wp _ _ _ _
    rw [Prog.wp_bind]
    exact wp_edit hsteady (hok bs hval refl' post fail h' hfail hpost)

theorem appendArray {p : Code (Option Bytes)} {marshal : JsonEncoder → JsonEncoder.Result}
    (hp : ∀ v', Computes r e b v' p (marshal v')) :
    Computes r e b v (appendArray e p) (v.appendArray marshal) := by
  refine edit_bind ?_ ((hp _).bind fun v' err _ =>
    edit_ret (fun enc => enc.write [0x5D]) err ⟨rfl, rfl⟩)
  rw [v.addElementSeparator_write]
  exact ⟨rfl, rfl⟩

theorem appendObject {p : Code (Option Bytes)} {marshal : JsonEncoder → JsonEncoder.Result}
    (hp : ∀ v', Computes r e b v' p (marshal v')) :
    Computes r e b v (appendObject e p) (v.appendObject marshal) := by
  intro refl post fail h hfail hpost
  refine ⟨objectOf v b refl, .inl Local.enc_encs, ?_⟩
  refine edit_bind ?_ ((hp _).bind fun v' err _ => edit_ret (fun enc =>
    { (enc.write [0x7D]).closeOpenNamespaces with openNamespaces := v.openNamespaces }) err
      ⟨rfl, rfl⟩) refl post fail h hfail hpost
  rw [JsonEncoder.addElementSeparator_write]
  exact ⟨rfl, rfl⟩

end Computes

/-- A marshaler does to the encoder what it does to the value that the encoder stands for. -/
theorem computes_run {r : Local} {e b : Nat} {i : Interface} (m : Marshaler i) (v : JsonEncoder) :
    Computes r e b v (run m e) (JsonEncoder.run m v) := by
  have hkey : ∀ (v : JsonEncoder) key, Extends (fun _ => True) v (v.addKey key) :=
    fun v key => .addKey (textClass_univ v.cfg) v key
  induction m generalizing v with
  | done err => exact .ret err
  | panic => exact .panic
  | add key s next ih =>
    have hval := Extends.appendScalar (textClass_univ v.cfg) (hkey v key).cfg s
    exact .edit_bind ((hkey v key).trans (textClass_univ v.cfg) hval).steady (ih _)
  | addBinary key val next ih =>
    have hval := Extends.appendString (textClass_univ v.cfg) (v.addKey key) (base64 val)
    exact .edit_bind ((hkey v key).trans (textClass_univ v.cfg) hval).steady (ih _)
  | addReflected key val next ih =>
    refine .reflected_bind (hkey v key).steady (fun err herr => ?_) (fun bs hbs => ?_)
    · simp only [JsonEncoder.run, herr]
      exact ih _ _
    · simp only [JsonEncoder.run, hbs]
      exact ih _ _
  | addArray key arr next iharr ih =>
    refine .edit_bind (hkey v key).steady ?_
    exact .bind (.appendArray iharr) fun v' err _ => ih err v'
  | addObject key obj next ihobj ih =>
    refine .edit_bind (hkey v key).steady ?_
    exact .bind (.appendObject ihobj) fun v' err _ => ih err v'
  | openNamespace key next ih =>
    exact .edit_bind (Extends.openNamespace (textClass_univ v.cfg) v key).steady (ih _)
  | append s next ih =>
    exact .edit_bind (Extends.appendScalar (textClass_univ v.cfg) rfl s).steady (ih _)
  | appendReflected val next ih =>
    refine .reflected_bind ?_ (fun err herr => ?_) (fun bs hbs => ?_)
    · rw [v.addElementSeparator_eq]
      exact ⟨rfl, rfl⟩
    · simp only [JsonEncoder.run, herr]
      exact ih _ _
    · simp only [JsonEncoder.run, hbs]
      exact ih _ _
  | appendArray arr next iharr ih => exact .bind (.appendArray iharr) fun v' err _ => ih err v'
  | appendObject obj next ihobj ih => exact .bind (.appendObject ihobj) fun v' err _ => ih err v'

theorem computes_addFields [Host] {r : Local} {e b : Nat} (fields : List Field) (v : JsonEncoder) :
    Computes r e b v (addFields e fields) ((v.addFields fields).map fun v' => (v', ())) := by
  have hrun : ((v.addFields fields).map fun v' => (v', ())) =
      (JsonEncoder.run (Zapcore.addFields fields) v).bind fun x => some (x.1, ()) := by
    rw [JsonEncoder.addFields]
    cases JsonEncoder.run (Zapcore.addFields fields) v <;> rfl
  rw [hrun]
  exact .bind (computes_run _ v) fun v' _ _ => .ret ()

/-! ## Encoders out of the pool and back -/

/-- The encoder that a call reads stands for `v`. -/
def Task.Sees (t : Task) (e : Nat) (v : JsonEncoder) : Prop :=
  ∃ b refl, t.seenEncs e = some (objectOf v b refl) ∧ t.seenBufs b = some v.buf

section Calls

variable {r : Local} {parent e b : Nat} {v : JsonEncoder} {refl : Option (Nat × Bytes)}
  {fail : Local → Prop}

theorem wp_clone (h : r.Bare) (hsees : r.task.Sees parent v) {post : Nat → Local → Prop}
    (hpost : ∀ e b, r.Fits b none → post e (r.enc e b v.clone none)) :
    (clone parent).wp spec r post fail := by
  obtain ⟨bp, refl, henc, hbuf⟩ := hsees
  refine ⟨h.tidy, fun e he _ => ?_⟩
  have hown : ∀ {x}, (r.setEnc e (some x)).encs e = some x := Function.update_self e _ _
  refine ⟨objectOf v bp refl, .inr henc, .zero, .inl hown, ⟨.zero, hown⟩, ?_⟩
  rw [Local.setEnc_setEnc]
  refine ⟨h.tidy_empty rfl rfl, fun b hb _ => ?_⟩
  refine ⟨_, .inl hown, ⟨_, hown⟩, ?_⟩
  rw [Local.setEnc_setBuf, Local.setEnc_setEnc]
  exact hpost e b (h.fits hb)

theorem wp_cloneContext (h : r.Bare) (hsees : r.task.Sees parent v) {post : Nat → Local → Prop}
    (hpost : ∀ e b, r.Fits b none → post e (r.enc e b v none)) :
    (cloneContext parent).wp spec r post fail := by
  show ((clone parent).bind _).wp _ _ _ _
  rw [Prog.wp_bind]
  refine wp_clone h hsees fun e b hfit => ?_
  obtain ⟨bp, refl, henc, hbuf⟩ := hsees
  refine ⟨objectOf v bp refl, .inr henc, v.buf, .inr hbuf, ?_⟩
  refine ⟨objectOf v.clone b none, .inl Local.enc_encs, [], .inl Local.enc_buf, ?_⟩
  refine ⟨⟨[], Local.enc_buf⟩, ?_⟩
  rw [Local.enc_setBuf]
  exact hpost e b hfit

/-- `putJSONEncoder` frees the scratch buffer and leaves the rest. -/
theorem wp_putJSONEncoder (h : r.Bare) {obj : EncoderObject} {post : Unit → Local → Prop}
    (hobj : obj.reflectBuf = refl.map Prod.fst)
    (hscratch : ∀ b' bs, refl = some (b', bs) → r.bufs b' = none)
    (htidy : ((r.scratch refl).setEnc e (some obj)).Tidy) (hpost : post () r) :
    (putJSONEncoder e).wp spec ((r.scratch refl).setEnc e (some obj)) post fail := by
  have hown : ∀ {r' : Local} {x}, (r'.setEnc e (some x)).encs e = some x :=
    Function.update_self e _ _
  -- What remains to be done without the scratch buffer.
  have hrest : ((storeEncoder e .zero).bind fun _ => putEncoder e).wp spec
      (r.setEnc e (some obj)) post fail := by
    refine ⟨⟨obj, hown⟩, ?_⟩
    rw [Local.setEnc_setEnc]
    refine ⟨h.tidy_empty rfl rfl, hown, ?_⟩
    rw [Local.setEnc_setEnc, Local.setEnc_self (congrFun h.encs e)]
    exact hpost
  refine ⟨obj, .inl hown, ?_⟩
  show ((freeIfAny obj.reflectBuf).bind _).wp _ _ _ _
  rw [Prog.wp_bind, hobj]
  cases refl with
  | none => exact hrest
  | some x =>
    refine ⟨htidy, ⟨x.2, Function.update_self x.1 _ _⟩, ?_⟩
    rw [Local.scratch, Local.freeBuf_setEnc h.line (hscratch x.1 x.2 rfl)]
    exact hrest

theorem Local.Fits.scratch_buf (h : r.Fits b refl) : (r.scratch refl).bufs b = none := by
  cases refl with
  | none => exact h.buf
  | some x => exact (Function.update_of_ne (h.scratch rfl).2.symm _ _).trans h.buf

/-- The context is given back with its buffers. -/
theorem wp_giveBack (h : r.Fits b refl) {post : Unit → Local → Prop} (hpost : post () r) :
    (giveBack e).wp spec (r.enc e b v refl) post fail := by
  have hbare := h.toBare.scratch refl
  refine ⟨objectOf v b refl, .inl Local.enc_encs, h.tidy, ⟨v.buf, Local.enc_buf⟩, ?_⟩
  rw [Local.enc, Local.freeBuf_setEnc hbare.line h.scratch_buf]
  refine ⟨⟨_, Function.update_self e _ _⟩, ?_⟩
  rw [Local.setEnc_setEnc]
  refine wp_putJSONEncoder h.toBare rfl (fun b' bs hrefl => (h.scratch hrefl).1) ?_ hpost
  refine hbare.tidy_setEnc (fun b' _ hfreed => by cases hfreed) fun b' hb' => ?_
  obtain ⟨x, rfl, rfl⟩ := Option.map_eq_some_iff.mp hb'
  exact ⟨x.2, Function.update_self x.1 _ _⟩

/-- What an encoder wrote stays when it is given back without its buffer. -/
theorem wp_putJSONEncoder_line (h : r.Fits b refl) {post : Unit → Local → Prop}
    (hpost : post () (r.setBuf b (some v.buf))) :
    (putJSONEncoder e).wp spec (r.enc e b v refl) post fail := by
  have hswap : (r.scratch refl).setBuf b (some v.buf) =
      (r.setBuf b (some v.buf)).scratch refl := by
    cases refl with
    | none => rfl
    | some x => exact Local.setBuf_comm r (h.scratch rfl).2.symm _ _
  have htidy : (r.enc e b v refl).Tidy := h.tidy
  rw [Local.enc, hswap] at htidy ⊢
  refine wp_putJSONEncoder (h.toBare.setBuf b (some v.buf)) rfl (fun b' bs hrefl => ?_) htidy hpost
  obtain ⟨hfresh, hne⟩ := h.scratch hrefl
  exact (Function.update_of_ne hne _ _).trans hfresh

/-! ## Entries -/

theorem encodeMetadata_steady {ent : Entry} {final : JsonEncoder}
    (h : v.encodeMetadata ent = some final) :
    final.cfg = v.cfg ∧ final.spaced = v.spaced := by
  rw [v.encodeMetadata_eq] at h
  obtain ⟨ms, -, rfl⟩ := Option.map_eq_some_iff.mp h
  exact ⟨(v.clone.write [0x7B]).addMembers_cfg ms, (v.clone.write [0x7B]).addMembers_spaced ms⟩

theorem encodeEnd_steady (ent : Entry) :
    (encodeEnd ent v).cfg = v.cfg ∧ (encodeEnd ent v).spaced = v.spaced := by
  rw [encodeEnd, v.closeOpenNamespaces.encodeStack_eq]
  exact ⟨v.closeOpenNamespaces.addMembers_cfg _, v.closeOpenNamespaces.addMembers_spaced _⟩

/-- `EncodeEntry` of the JSON encoder returns a buffer with the line, and has nothing else. -/
theorem wp_encodeEntry [Host] (h : r.Bare) (hsees : r.task.Sees parent v) {ent : Entry}
    {fields : List Field} {post : Nat → Local → Prop}
    (hfail : v.encodeEntry ent fields = none → ∀ r', r'.Tidy → r'.sent = r.sent → fail r')
    (hpost : ∀ l out, v.encodeEntry ent fields = some out → r.bufs l = none →
      post l (r.setBuf l (some out))) :
    (encodeEntry parent ent fields).wp spec r post fail := by
  have hentry : v.encodeEntry ent fields = (v.encodeMetadata ent).bind fun final =>
      ((final.spliceContext v.buf).addFields fields).bind fun full =>
        some (encodeEnd ent full).buf := rfl
  show ((clone parent).bind _).wp _ _ _ _
  rw [Prog.wp_bind]
  refine wp_clone h hsees fun e b hfit => ?_
  obtain ⟨bp, refl, henc, hbuf⟩ := hsees
  show ((method e (encodeMetadata ent)).bind _).wp _ _ _ _
  rw [Prog.wp_bind]
  refine wp_method (fun final hfinal => encodeMetadata_steady hfinal) (fun hnone => ?_)
    fun final hfinal => ?_
  · refine hfail ?_ _ hfit.tidy rfl
    rw [hentry, show v.encodeMetadata ent = none from hnone, Option.bind_none]
  rw [show v.encodeMetadata ent = some final from hfinal, Option.bind_some] at hentry
  refine ⟨objectOf v bp refl, .inr henc, v.buf, .inr hbuf, ?_⟩
  show ((edit e fun enc => enc.spliceContext v.buf).bind _).wp _ _ _ _
  rw [Prog.wp_bind]
  refine wp_edit (Extends.spliceContext (textClass_univ final.cfg) final trivial).steady ?_
  show ((addFields e fields).bind _).wp _ _ _ _
  rw [Prog.wp_bind]
  refine computes_addFields fields _ none _ fail hfit (fun hnone v' refl' hfit' => ?_)
    fun full _ refl' hfull hfit' => ?_
  · refine hfail ?_ _ hfit'.tidy Local.enc_sent
    rw [hentry, Option.map_eq_none_iff.mp hnone, Option.bind_none]
  obtain ⟨full, hfields, heq⟩ := Option.map_eq_some_iff.mp hfull
  cases heq
  rw [hfields, Option.bind_some] at hentry
  show ((edit e (encodeEnd ent)).bind _).wp _ _ _ _
  rw [Prog.wp_bind]
  refine wp_edit (encodeEnd_steady ent) ?_
  refine ⟨objectOf (encodeEnd ent full) b refl', .inl Local.enc_encs, ?_⟩
  show ((putJSONEncoder e).bind _).wp _ _ _ _
  rw [Prog.wp_bind]
  exact wp_putJSONEncoder_line hfit' (hpost b _ hentry hfit.buf)

theorem toList_foldl_push {α : Type} (l : List α) (s : Slice α) :
    (l.foldl Slice.push s).toList = s.toList ++ l := by
  induction l generalizing s with
  | nil => rw [List.append_nil]; rfl
  | cons a l ih => rw [List.foldl_cons, ih, Slice.toList_push, List.append_assoc, List.singleton_append]

/-- Whatever slice the pool gave, the metadata is printed. -/
theorem wp_printMetadata (h : r.Bare) (hsees : r.task.Sees parent v) {ent : Entry} {line : Nat}
    {bs : Bytes} (hline : r.bufs line = some bs) {post : Unit → Local → Prop}
    (hpost : post () (r.setBuf line (some (bs ++ v.cfg.consoleSeparator.intercalate
      (((console v.cfg).metadata ent).map fprint))))) :
    (printMetadata parent line ent).wp spec r post fail := by
  obtain ⟨bp, refl, henc, -⟩ := hsees
  refine ⟨h.tidy, fun arr elems harr hempty => ?_⟩
  have hown : ∀ {r' : Local} {x}, (r'.setSlice arr (some x)).slices arr = some x :=
    Function.update_self arr _ _
  refine ⟨objectOf v bp refl, .inr henc, elems, hown, ⟨elems, hown⟩, ?_⟩
  rw [Local.setSlice_setSlice]
  refine ⟨_, hown, bs, .inl hline, ⟨bs, hline⟩, ?_⟩
  rw [Local.setSlice_setBuf]
  refine ⟨_, hown, ⟨_, hown⟩, ?_⟩
  rw [Local.setSlice_setSlice]
  refine ⟨((h.setBuf _ _).setSlice _ _).tidy, ⟨_, hown, rfl⟩, ?_⟩
  have hslices : ∀ x, (r.setBuf line x).setSlice arr none = r.setBuf line x :=
    fun x => Local.setSlice_self harr
  rw [Local.setSlice_setSlice, hslices, toList_foldl_push, hempty, List.nil_append]
  exact hpost

/-- The context of the encoder and the fields are written behind the line, and everything else that
was taken for it is given back, also after a panic. -/
theorem wp_writeContext [Host] (h : r.Bare) (hsees : r.task.Sees parent v) {line : Nat} {bs : Bytes}
    (hline : r.bufs line = some bs) {extra : List Field} {post : Unit → Local → Prop}
    (hfail : v.addFields extra = none → fail r)
    (hpost : ∀ context, v.addFields extra = some context →
      post () (r.setBuf line (some (appendContext v.cfg context.closeOpenNamespaces.buf bs)))) :
    (writeContext parent line extra).wp spec r post fail := by
  show ((cloneContext parent).bind _).wp _ _ _ _
  rw [Prog.wp_bind]
  refine wp_cloneContext h hsees fun e b hfit => ?_
  obtain ⟨bp, refl, henc, -⟩ := hsees
  rw [Prog.wp_defer]
  show ((addFields e extra).bind _).wp _ _ _ _
  rw [Prog.wp_bind]
  refine computes_addFields extra v none _ _ hfit (fun hnone v' refl' hfit' => ?_)
    fun context _ refl' hcontext hfit' => ?_
  · exact wp_giveBack hfit' (hfail (Option.map_eq_none_iff.mp hnone))
  obtain ⟨context, hfields, heq⟩ := Option.map_eq_some_iff.mp hcontext
  cases heq
  show ((edit e fun enc => enc.closeOpenNamespaces).bind _).wp _ _ _ _
  rw [Prog.wp_bind]
  refine wp_edit ⟨rfl, rfl⟩ ?_
  have hother : (r.enc e b context.closeOpenNamespaces refl').bufs line = some bs := Local.enc_other hfit' hline
  refine ⟨objectOf context.closeOpenNamespaces b refl', .inl Local.enc_encs, _, .inl Local.enc_buf, ?_⟩
  refine ⟨objectOf v bp refl, .inr ?_, bs, .inl hother, ⟨bs, hother⟩, ?_⟩
  · rw [Local.enc_task]
    exact henc
  rw [Local.enc_setOther hfit' hline]
  exact wp_giveBack (hfit'.setOther hline _) (hpost context hfields)

theorem encodeConsoleEntry_eq [Host] (v : JsonEncoder) (ent : Entry) (fields : List Field) :
    ConsoleEncoder.encodeEntry ⟨v⟩ ent fields = (v.addFields fields).bind fun context =>
      some (appendEnd v.cfg ent (appendContext v.cfg context.closeOpenNamespaces.buf
        (appendMessage v.cfg ent (v.cfg.consoleSeparator.intercalate
          (((console v.cfg).metadata ent).map fprint))))) := by
  rw [ConsoleEncoder.encodeEntry, ConsoleEncoder.writeContext]
  cases v.addFields fields with
  | none => rfl
  | some context =>
    simp only [Option.bind_eq_bind, Option.bind_some, appendContext]
    split <;> rfl

/-- `EncodeEntry` of the console encoder returns a buffer with the line, and has nothing else. -/
theorem wp_encodeConsoleEntry [Host] (h : r.Bare) (hsees : r.task.Sees parent v) {ent : Entry}
    {fields : List Field} {post : Nat → Local → Prop}
    (hfail : ConsoleEncoder.encodeEntry ⟨v⟩ ent fields = none →
      ∀ r', r'.Tidy → r'.sent = r.sent → fail r')
    (hpost : ∀ l out, ConsoleEncoder.encodeEntry ⟨v⟩ ent fields = some out → r.bufs l = none →
      post l (r.setBuf l (some out))) :
    (encodeConsoleEntry parent ent fields).wp spec r post fail := by
  have hentry := encodeConsoleEntry_eq v ent fields
  refine ⟨h.tidy, fun line hfresh _ => ?_⟩
  have hown : ∀ {x}, (r.setBuf line (some x)).bufs line = some x := Function.update_self line _ _
  show ((printMetadata parent line ent).bind _).wp _ _ _ _
  rw [Prog.wp_bind]
  refine wp_printMetadata (h.setBuf line _) hsees hown ?_
  rw [Local.setBuf_setBuf]
  obtain ⟨bp, refl, henc, hbuf⟩ := hsees
  refine ⟨objectOf v bp refl, .inr henc, _, .inl hown, ⟨_, hown⟩, ?_⟩
  rw [Local.setBuf_setBuf]
  show ((writeContext parent line fields).bind _).wp _ _ _ _
  rw [Prog.wp_bind]
  refine wp_writeContext (h.setBuf line _) ⟨bp, refl, henc, hbuf⟩ hown (fun hnone => ?_)
    fun context hcontext => ?_
  · refine hfail ?_ _ (h.setBuf line _).tidy rfl
    rw [hentry, hnone, Option.bind_none]
  rw [hcontext, Option.bind_some] at hentry
  rw [Local.setBuf_setBuf]
  refine ⟨_, .inl hown, ⟨_, hown⟩, ?_⟩
  rw [Local.setBuf_setBuf]
  exact hpost line _ hentry hfresh

end Calls

end Zap.Zapcore.Pooled
