import Zap.Data.JsonBuild

/-!
# Spaces outside string literals

A reader that only keeps track of string literals is at one of three places: outside, inside, or
behind a backslash. Spaces outside mean nothing and may be dropped. A writer with two styles puts
a space behind each of its own colons and commas, or none; `Piece` says which of its bytes these
are. `agrees_iff` is the law of such a writer: its two styles differ in nothing but the spaces a
reader drops, and these stand behind its colons and commas, iff the texts between them are
`Clear`. Complete JSON values end outside, and scalars have no space outside.
-/

set_option autoImplicit false

namespace Zap.Data.Json

/-! ## Reading string literals -/

/-- Where the reader is. -/
inductive Place where
  | outside
  | inside
  | escaped
  deriving DecidableEq

/-- Where the reader is after one more byte. -/
def Place.next : Place → UInt8 → Place
  | .outside, b => if b = 0x22 then .inside else .outside
  | .inside, b => if b = 0x22 then .outside else if b = 0x5C then .escaped else .inside
  | .escaped, _ => .inside

/-- Where the reader is after a text. -/
def Place.after (q : Place) (t : Bytes) : Place := t.foldl Place.next q

/-- The text without its spaces outside. -/
def unspace : Place → Bytes → Bytes
  | _, [] => []
  | q, b :: t => if q = .outside ∧ b = 0x20 then unspace q t else b :: unspace (q.next b) t

/-- For each space outside, the byte in front of it; `prev` is the one in front of the text. -/
def beforeSpaces : Place → Option UInt8 → Bytes → List (Option UInt8)
  | _, _, [] => []
  | q, prev, b :: t =>
    if q = .outside ∧ b = 0x20 then prev :: beforeSpaces q (some b) t
    else beforeSpaces (q.next b) (some b) t

section Reading

variable (q : Place) (prev : Option UInt8)

@[simp] theorem Place.after_cons (b : UInt8) (t : Bytes) : q.after (b :: t) = (q.next b).after t :=
  rfl

theorem Place.after_append (t u : Bytes) : q.after (t ++ u) = (q.after t).after u :=
  List.foldl_append

theorem unspace_append (t u : Bytes) :
    unspace q (t ++ u) = unspace q t ++ unspace (q.after t) u := by
  induction t generalizing q with
  | nil => rfl
  | cons b t ih =>
    rw [List.cons_append, unspace, unspace]
    split
    · next h =>
      obtain ⟨rfl, rfl⟩ := h
      exact ih .outside
    · rw [ih, List.cons_append]
      rfl

/-- Each byte is kept, or it is a space outside. -/
theorem length_unspace (t : Bytes) :
    (unspace q t).length + (beforeSpaces q prev t).length = t.length := by
  induction t generalizing q prev with
  | nil => rfl
  | cons b t ih =>
    rw [unspace, beforeSpaces, List.length_cons, ← ih (q.next b) (some b)]
    split
    · next h =>
      obtain ⟨rfl, rfl⟩ := h
      exact (Nat.add_assoc _ _ 1).symm
    · rw [List.length_cons]
      omega

theorem unspace_sublist (t : Bytes) : (unspace q t).Sublist t := by
  induction t generalizing q with
  | nil => exact .slnil
  | cons b t ih =>
    rw [unspace]
    split
    · exact (ih q).cons b
    · exact (ih _).cons_cons b

theorem unspace_eq_self_iff (t : Bytes) : unspace q t = t ↔ beforeSpaces q prev t = [] := by
  have hlen := length_unspace q prev t
  constructor
  · intro h
    rw [h] at hlen
    exact List.length_eq_zero_iff.mp (by omega)
  · intro h
    rw [h, List.length_nil] at hlen
    exact (unspace_sublist q t).eq_of_length (by omega)

theorem beforeSpaces_append (t u : Bytes) :
    ∃ prev', beforeSpaces q prev (t ++ u) =
      beforeSpaces q prev t ++ beforeSpaces (q.after t) prev' u := by
  induction t generalizing q prev with
  | nil => exact ⟨prev, rfl⟩
  | cons b t ih =>
    rw [List.cons_append, beforeSpaces, beforeSpaces]
    split
    · next h =>
      obtain ⟨rfl, rfl⟩ := h
      obtain ⟨prev', h'⟩ := ih .outside (some 0x20)
      exact ⟨prev', by rw [h']; rfl⟩
    · exact ih _ _

end Reading

/-! ## Two styles -/

/-- The bytes behind which the spaced style has a space. -/
inductive Mark where
  | colon
  | comma

def Mark.byte : Mark → UInt8
  | .colon => 0x3A
  | .comma => 0x2C

/-- What a writer writes: a text that is the same in both styles, which may come from elsewhere,
or a colon or comma of its own. -/
inductive Piece where
  | text (foreign : Bool) (x : Bytes)
  | mark (m : Mark)

/-- A piece in one of the styles. -/
def Piece.render (spaced : Bool) : Piece → Bytes
  | .text _ x => x
  | .mark m => m.byte :: space spaced

/-- The pieces in one of the styles. -/
def render (spaced : Bool) (ps : List Piece) : Bytes := ps.flatMap (Piece.render spaced)

/-- The writer's own colons and commas. -/
def marks : List Piece → List (Option UInt8)
  | [] => []
  | .text _ _ :: ps => marks ps
  | .mark m :: ps => some m.byte :: marks ps

/-- The two styles of the pieces are the same but for spaces outside string literals, and in the
spaced style these stand behind the writer's own colons and commas, one each. -/
def Agrees (ps : List Piece) : Prop :=
  unspace .outside (render true ps) = unspace .outside (render false ps) ∧
    beforeSpaces .outside none (render true ps) = marks ps

/-- No text has a space outside string literals, and all colons and commas are outside. -/
def Clear : Place → List Piece → Prop
  | _, [] => True
  | q, .text _ x :: ps => unspace q x = x ∧ Clear (q.after x) ps
  | q, .mark _ :: ps => q = .outside ∧ Clear .outside ps

section Styles

variable (spaced : Bool)

@[simp] theorem render_nil : render spaced [] = [] := rfl

theorem render_cons (p : Piece) (ps : List Piece) :
    render spaced (p :: ps) = p.render spaced ++ render spaced ps := rfl

theorem render_append (ps qs : List Piece) :
    render spaced (ps ++ qs) = render spaced ps ++ render spaced qs := List.flatMap_append

theorem Place.outside_next (m : Mark) : Place.outside.next m.byte = .outside := by
  cases m <;> rfl

/-- A colon or comma, with its space or without, leaves the reader at the same place. -/
theorem Place.after_mark (q : Place) (m : Mark) :
    q.after (m.byte :: space spaced) = q.next m.byte := by
  cases q <;> cases m <;> cases spaced <;> rfl

theorem clear_append (q : Place) (ps qs : List Piece) :
    Clear q (ps ++ qs) ↔ Clear q ps ∧ Clear (q.after (render false ps)) qs := by
  induction ps generalizing q with
  | nil => exact (and_iff_right trivial).symm
  | cons p ps ih =>
    rw [render_cons, Place.after_append]
    cases p with
    | text foreign x =>
      rw [List.cons_append, Clear, Clear, ih, and_assoc]
      rfl
    | mark m =>
      rw [List.cons_append, Clear, Clear, ih, and_assoc]
      refine and_congr_right fun hq => ?_
      rw [hq, Piece.render, Place.after_mark, Place.outside_next]

/-- Both styles of clear pieces lose all spaces outside and nothing else. -/
theorem Clear.unspace_render {q : Place} {ps : List Piece} (h : Clear q ps) :
    unspace q (render spaced ps) = render false ps := by
  induction ps generalizing q with
  | nil => rfl
  | cons p ps ih =>
    rw [render_cons, render_cons, unspace_append]
    cases p with
    | text foreign x =>
      obtain ⟨hx, hrest⟩ := h
      rw [Piece.render, hx, ih hrest]
      rfl
    | mark m =>
      obtain ⟨rfl, hrest⟩ := h
      rw [Piece.render, Place.after_mark, Place.outside_next, ih hrest]
      cases m <;> cases spaced <;> rfl

theorem Clear.beforeSpaces_render {q : Place} {ps : List Piece} (h : Clear q ps)
    (prev : Option UInt8) : beforeSpaces q prev (render true ps) = marks ps := by
  induction ps generalizing q prev with
  | nil => rfl
  | cons p ps ih =>
    rw [render_cons]
    cases p with
    | text foreign x =>
      obtain ⟨hx, hrest⟩ := h
      obtain ⟨prev', happend⟩ := beforeSpaces_append q prev x (render true ps)
      rw [Piece.render, happend, (unspace_eq_self_iff q prev x).mp hx, ih hrest]
      rfl
    | mark m =>
      obtain ⟨rfl, hrest⟩ := h
      have hspace := ih hrest (some 0x20)
      cases m <;> exact congrArg (List.cons _) hspace

/-- How many colons and commas are not outside. -/
def swallowed : Place → List Piece → Nat
  | _, [] => 0
  | q, .text _ x :: ps => swallowed (q.after x) ps
  | q, .mark m :: ps => (if q = .outside then 0 else 1) + swallowed (q.next m.byte) ps

theorem length_render (ps : List Piece) :
    (render true ps).length = (render false ps).length + (marks ps).length := by
  induction ps with
  | nil => rfl
  | cons p ps ih =>
    rw [render_cons, render_cons, List.length_append, List.length_append, ih]
    cases p with
    | text foreign x => exact (Nat.add_assoc _ _ _).symm
    | mark m =>
      simp only [Piece.render, marks, space, ↓reduceIte, Bool.false_eq_true, List.length_cons,
        List.length_nil]
      omega

/-- The spaces outside in the spaced style are those of the texts, and one for each colon and comma
that is outside. -/
theorem length_beforeSpaces (q : Place) (prev prev' : Option UInt8) (ps : List Piece) :
    (beforeSpaces q prev (render true ps)).length + swallowed q ps =
      (beforeSpaces q prev' (render false ps)).length + (marks ps).length := by
  induction ps generalizing q prev prev' with
  | nil => rfl
  | cons p ps ih =>
    rw [render_cons, render_cons]
    cases p with
    | text foreign x =>
      obtain ⟨c, hc⟩ := beforeSpaces_append q prev x (render true ps)
      obtain ⟨c', hc'⟩ := beforeSpaces_append q prev' x (render false ps)
      have hx := length_unspace q prev x
      have hx' := length_unspace q prev' x
      have hrest := ih (q.after x) c c'
      simp only [Piece.render, hc, hc', List.length_append, swallowed, marks]
      omega
    | mark m =>
      have hrest := ih (q.next m.byte) (some 0x20) (some m.byte)
      have hspaced : beforeSpaces q prev (Piece.render true (.mark m) ++ render true ps) =
          (if q = .outside then [some m.byte] else []) ++
            beforeSpaces (q.next m.byte) (some 0x20) (render true ps) := by
        cases q <;> cases m <;> rfl
      have hcompact : beforeSpaces q prev' (Piece.render false (.mark m) ++ render false ps) =
          beforeSpaces (q.next m.byte) (some m.byte) (render false ps) := by
        cases q <;> cases m <;> rfl
      rw [hspaced, hcompact, swallowed, marks, List.length_append, List.length_cons]
      split
      · rw [List.length_singleton]
        omega
      · rw [List.length_nil]
        omega

theorem clear_of_unspace {q : Place} {ps : List Piece}
    (hspaces : unspace q (render false ps) = render false ps) (hmarks : swallowed q ps = 0) :
    Clear q ps := by
  induction ps generalizing q with
  | nil => trivial
  | cons p ps ih =>
    rw [render_cons, unspace_append] at hspaces
    cases p with
    | text foreign x =>
      have hx := (unspace_sublist q x).length_le
      have hrest := (unspace_sublist (q.after x) (render false ps)).length_le
      have hlen := congrArg List.length hspaces
      rw [List.length_append, List.length_append] at hlen
      obtain ⟨htext, htail⟩ := List.append_inj hspaces (show (unspace q x).length = x.length by
        simp only [Piece.render] at hlen
        omega)
      exact ⟨htext, ih htail hmarks⟩
    | mark m =>
      rw [swallowed] at hmarks
      have hq : q = .outside := by
        by_contra hne
        rw [if_neg hne] at hmarks
        omega
      subst hq
      rw [if_pos rfl, Nat.zero_add, Place.outside_next] at hmarks
      refine ⟨rfl, ih ?_ hmarks⟩
      cases m <;> exact List.append_cancel_left hspaces

/-- The styles agree iff the pieces are clear. -/
theorem agrees_iff (ps : List Piece) : Agrees ps ↔ Clear .outside ps := by
  constructor
  · rintro ⟨hsame, hmarks⟩
    -- the spaced style loses as many bytes as it has more, so the compact style loses none
    have hspaced := length_unspace .outside none (render true ps)
    have hcompact := length_unspace .outside none (render false ps)
    have hlen := length_render ps
    have hcount := length_beforeSpaces .outside none none ps
    rw [hmarks] at hspaced hcount
    rw [hsame] at hspaced
    refine clear_of_unspace ((unspace_eq_self_iff .outside none _).mpr ?_) (by omega)
    exact List.length_eq_zero_iff.mp (by omega)
  · intro h
    exact ⟨(h.unspace_render true).trans (h.unspace_render false).symm,
      h.beforeSpaces_render none⟩

end Styles

/-! ## Neutral texts -/

/-- A text that has no space outside and leaves the reader outside. -/
def Neutral (x : Bytes) : Prop := unspace .outside x = x ∧ Place.outside.after x = .outside

theorem Neutral.append {x y : Bytes} (hx : Neutral x) (hy : Neutral y) : Neutral (x ++ y) := by
  refine ⟨?_, ?_⟩
  · rw [unspace_append, hx.1, hx.2, hy.1]
  · rw [Place.after_append, hx.2, hy.2]

/-- Pieces with neutral texts are clear. -/
theorem clear_of_neutral {ps : List Piece}
    (h : ∀ foreign x, .text foreign x ∈ ps → Neutral x) : Clear .outside ps := by
  induction ps with
  | nil => trivial
  | cons p ps ih =>
    have hrest := ih fun foreign x hx => h foreign x (List.mem_cons_of_mem _ hx)
    cases p with
    | text foreign x =>
      obtain ⟨hspace, hplace⟩ := h foreign x List.mem_cons_self
      exact ⟨hspace, by rwa [hplace]⟩
    | mark m => exact ⟨rfl, hrest⟩

theorem after_of_forall {t : Bytes} (h : ∀ b ∈ t, b ≠ 0x22) : Place.outside.after t = .outside := by
  induction t with
  | nil => rfl
  | cons b t ih =>
    obtain ⟨hquote, hrest⟩ := List.forall_mem_cons.mp h
    rw [Place.after_cons, Place.next, if_neg hquote, ih hrest]

/-- A text of bytes that are neither quotes nor spaces. -/
theorem neutral_of_forall {t : Bytes} (h : ∀ b ∈ t, b ≠ 0x20 ∧ b ≠ 0x22) : Neutral t := by
  refine ⟨?_, after_of_forall fun b hb => (h b hb).2⟩
  induction t with
  | nil => rfl
  | cons b t ih =>
    obtain ⟨⟨hspace, hquote⟩, hrest⟩ := List.forall_mem_cons.mp h
    rw [unspace, if_neg fun hb => hspace hb.2, Place.next, if_neg hquote, ih hrest]

/-- A text that does not leave the inside of a literal. -/
def Interior (t : Bytes) : Prop := Place.inside.after t = .inside ∧ unspace .inside t = t

theorem Interior.append {x y : Bytes} (hx : Interior x) (hy : Interior y) : Interior (x ++ y) := by
  refine ⟨?_, ?_⟩
  · rw [Place.after_append, hx.1, hy.1]
  · rw [unspace_append, hx.1, hx.2, hy.2]

theorem interior_of_forall {t : Bytes} (h : ∀ b ∈ t, b ≠ 0x22 ∧ b ≠ 0x5C) : Interior t := by
  induction t with
  | nil => exact ⟨rfl, rfl⟩
  | cons b t ih =>
    obtain ⟨⟨hquote, hslash⟩, hrest⟩ := List.forall_mem_cons.mp h
    have hnext : Place.inside.next b = .inside := by
      rw [Place.next, if_neg hquote, if_neg hslash]
    obtain ⟨hplace, htext⟩ := ih hrest
    refine ⟨?_, ?_⟩
    · rw [Place.after_cons, hnext, hplace]
    · rw [unspace, if_neg fun hb => (by cases hb.1), hnext, htext]

theorem interior_escape (e : UInt8) : Interior [0x5C, e] := by
  refine ⟨rfl, ?_⟩
  rw [unspace, if_neg (by decide), unspace, if_neg fun h => (by cases h.1)]
  rfl

theorem hexDigit_ne {b : UInt8} {n : Nat} (h : hexDigit b = some n) : b ≠ 0x22 ∧ b ≠ 0x5C := by
  refine ⟨?_, ?_⟩ <;> (rintro rfl; revert h; decide +revert)

theorem hex4_ne {a b c d : UInt8} {u : Nat} (h : hex4 a b c d = some u) :
    ∀ e ∈ [a, b, c, d], e ≠ 0x22 ∧ e ≠ 0x5C := by
  obtain ⟨_, ha, h⟩ := Option.bind_eq_some_iff.mp h
  obtain ⟨_, hb, h⟩ := Option.bind_eq_some_iff.mp h
  obtain ⟨_, hc, h⟩ := Option.bind_eq_some_iff.mp h
  obtain ⟨_, hd, _⟩ := Option.bind_eq_some_iff.mp h
  simp only [List.forall_mem_cons, hexDigit_ne ha, hexDigit_ne hb, hexDigit_ne hc, hexDigit_ne hd,
    ne_eq, not_false_eq_true, and_self, List.not_mem_nil, false_implies, implies_true]

theorem Chars.interior {t : Bytes} {us : List CodeUnit} (h : Chars t us) : Interior t := by
  induction h with
  | nil => exact ⟨rfl, rfl⟩
  | plain hb _ ih =>
    refine Interior.append (x := [_]) (interior_of_forall fun c hc => ?_) ih
    rw [List.mem_singleton.mp hc]
    exact ⟨(isPlain_ne hb).1, (isPlain_ne hb).2.1⟩
  | rune hc _ ih =>
    refine Interior.append (interior_of_forall fun b hb => ?_) ih
    have hge := hc.ge b hb
    exact ⟨fun h => absurd (h ▸ hge) (by decide), fun h => absurd (h ▸ hge) (by decide)⟩
  | escape he _ ih => exact (interior_escape _).append ih
  | hex hu _ ih => exact (interior_escape 0x75).append ((interior_of_forall (hex4_ne hu)).append ih)

/-- Behind a string literal the reader is outside. -/
theorem Chars.after {k : Bytes} {us : List CodeUnit} (h : Chars k us) (r : Bytes) :
    Place.outside.after (0x22 :: (k ++ 0x22 :: r)) = Place.outside.after r := by
  rw [Place.after_cons, show Place.outside.next 0x22 = .inside from rfl, Place.after_append,
    h.interior.1]
  rfl

theorem Chars.neutral {t : Bytes} {us : List CodeUnit} (h : Chars t us) :
    Neutral (0x22 :: (t ++ [0x22])) := by
  refine ⟨?_, h.after []⟩
  rw [unspace, if_neg (by decide), show Place.outside.next 0x22 = .inside from rfl,
    unspace_append, h.interior.2, h.interior.1]
  rfl

/-! ## JSON values -/

theorem isDigit_ne {b : UInt8} (h : isDigit b = true) : b ≠ 0x20 ∧ b ≠ 0x22 := by
  refine ⟨?_, ?_⟩ <;> (rintro rfl; revert h; decide)

theorem Number.neutral {t : Bytes} (h : Number t) : Neutral t := by
  have hdigits : ∀ {ds : Bytes}, Digits ds → Neutral ds :=
    fun hds => neutral_of_forall fun b hb => isDigit_ne (hds.2 b hb)
  obtain ⟨sign, int, frac, exp, rfl, hsign, hint, hfrac, hexp⟩ := h
  have hsign : Neutral sign := by rcases hsign with rfl | rfl <;> exact ⟨rfl, rfl⟩
  have hfrac : Neutral frac := by
    rcases hfrac with rfl | ⟨ds, rfl, hds⟩
    · exact ⟨rfl, rfl⟩
    · exact Neutral.append (x := [0x2E]) ⟨rfl, rfl⟩ (hdigits hds)
  have hexp : Neutral exp := by
    rcases hexp with rfl | ⟨e, es, ds, rfl, he, hes, hds⟩
    · exact ⟨rfl, rfl⟩
    · have he : Neutral [e] := by rcases he with rfl | rfl <;> exact ⟨rfl, rfl⟩
      have hes : Neutral es := by rcases hes with rfl | rfl | rfl <;> exact ⟨rfl, rfl⟩
      exact he.append (hes.append (hdigits hds))
  exact ((hsign.append (hdigits hint.1)).append hfrac).append hexp

/-- A value without parts. -/
def isScalar : Json → Bool
  | .arr _ => false
  | .obj _ => false
  | _ => true

theorem Derives.neutral {t : Bytes} {v : Json} (h : Derives .value t v) (hv : isScalar v = true) :
    Neutral t := by
  cases h with
  | null => exact ⟨by decide, by decide⟩
  | trueWord => exact ⟨by decide, by decide⟩
  | falseWord => exact ⟨by decide, by decide⟩
  | num hn => exact hn.neutral
  | str hc => exact hc.neutral
  | emptyArr _ => cases hv
  | arr _ => cases hv
  | emptyObj _ => cases hv
  | obj _ => cases hv

theorem Ws.after {w : Bytes} (h : Ws w) : Place.outside.after w = .outside :=
  after_of_forall fun b hb hq => by
    have hws := h b hb
    rw [hq] at hws
    cases hws

/-- A value, and the inside of an array or an object, leaves the reader outside. -/
theorem Derives.after {c : Category} {t : Bytes} {v : Json} (h : Derives c t v) :
    Place.outside.after t = .outside := by
  have hopen : ∀ b, Place.outside.next b = .outside → ∀ t,
      Place.outside.after (b :: t) = Place.outside.after t := by
    intro b hb t
    rw [Place.after_cons, hb]
  induction h with
  | null => rfl
  | trueWord => rfl
  | falseWord => rfl
  | num hn => exact hn.neutral.2
  | str hc => exact hc.neutral.2
  | emptyArr hw => rw [hopen 0x5B rfl, Place.after_append, hw.after]; rfl
  | arr _ ih => rw [hopen 0x5B rfl, Place.after_append, ih]; rfl
  | emptyObj hw => rw [hopen 0x7B rfl, Place.after_append, hw.after]; rfl
  | obj _ ih => rw [hopen 0x7B rfl, Place.after_append, ih]; rfl
  | lastElem hw₁ _ hw₂ ih =>
    rw [Place.after_append, hw₁.after, Place.after_append, ih, hw₂.after]
  | consElem hw₁ _ hw₂ _ ih ihrest =>
    rw [Place.after_append, hw₁.after, Place.after_append, ih, Place.after_append, hw₂.after,
      hopen 0x2C rfl, ihrest]
  | lastMember hw₁ hk hw₂ hw₃ _ hw₄ ih =>
    rw [Place.after_append, hw₁.after, hk.after, Place.after_append, hw₂.after, hopen 0x3A rfl,
      Place.after_append, hw₃.after, Place.after_append, ih, hw₄.after]
  | consMember hw₁ hk hw₂ hw₃ _ hw₄ _ ih ihrest =>
    rw [Place.after_append, hw₁.after, hk.after, Place.after_append, hw₂.after, hopen 0x3A rfl,
      Place.after_append, hw₃.after, Place.after_append, ih, Place.after_append, hw₄.after,
      hopen 0x2C rfl, ihrest]

end Zap.Data.Json
