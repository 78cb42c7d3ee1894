import Zap.Data.JsonBuild

/-!
# Where the parts of a JSON text end

The grammar leaves no choice: where one value begins and the next one ends can be read off the
text. `value_cut` says so for a value at the front of a text, by the parser, which is complete. A
text behind the colon of a member is a value and perhaps further members (`Sequel`), and what is
known of its front is known of the derivation. So a text can be put to the test by what it is
written into: `single_of_both` says that a text that may stand both behind a colon and between
brackets is one value.
-/

set_option autoImplicit false

namespace Zap.Data.Json

/-! ## Cuts -/

theorem ws_cut {w w' r r' : Bytes} (hw : Ws w) (hw' : Ws w') (hr : Stops isWs r)
    (hr' : Stops isWs r') (h : w ++ r = w' ++ r') : w = w' ∧ r = r' := by
  have hrest : r = r' := by rw [← dropWs hw hr, h, dropWs hw' hr']
  subst hrest
  exact ⟨List.append_cancel_right h, rfl⟩

/-- A value at the front of a text ends where it ends in every derivation. -/
theorem value_cut {t t' r r' : Bytes} {v v' : Json} (ht : Derives .value t v)
    (ht' : Derives .value t' v') (hr : Follow r) (hr' : Follow r') (h : t ++ r = t' ++ r') :
    t = t' ∧ r = r' := by
  have hparse := ht.completes r (t.length + t'.length + 1) hr (by omega)
  rw [h, ht'.completes r' (t.length + t'.length + 1) hr' (by omega)] at hparse
  have hrest : r' = r := congrArg Prod.snd (Option.some.inj hparse)
  subst hrest
  exact ⟨List.append_cancel_right h, rfl⟩

theorem key_cut {k k' r r' : Bytes} {us us' : List CodeUnit} (hk : Chars k us) (hk' : Chars k' us')
    (h : k ++ 0x22 :: r = k' ++ 0x22 :: r') : r = r' := by
  have hparse := parseChars_complete hk r (k.length + k'.length + 1) (by omega)
  rw [h, parseChars_complete hk' r' (k.length + k'.length + 1) (by omega)] at hparse
  exact (congrArg Prod.snd (Option.some.inj hparse)).symm

theorem follow_of_ws {w : Bytes} (hw : Ws w) : Follow w := by
  cases w with
  | nil => exact fun b hb => by cases hb
  | cons b w =>
    have h := follow_ws (List.forall_mem_nil fun b => isWs b = true) (b := b) (r := w)
    have hb := hw b List.mem_cons_self
    simp only [isWs, Bool.or_eq_true, beq_iff_eq] at hb
    rcases hb with ((rfl | rfl) | rfl) | rfl
    all_goals exact h (by decide)

/-! ## What follows a value -/

/-- What may follow a value inside an array or an object: white space, or a comma and more. -/
def Continues (c : Category) (r : Bytes) : Prop :=
  Ws r ∨ ∃ w s v, r = w ++ 0x2C :: s ∧ Ws w ∧ Derives c s v

/-- A value and what may follow it. -/
def Sequel (c : Category) (s : Bytes) : Prop :=
  ∃ w t r v, s = w ++ (t ++ r) ∧ Ws w ∧ Derives .value t v ∧ Continues c r

theorem Continues.follow {c : Category} {r : Bytes} (h : Continues c r) : Follow r := by
  obtain hw | ⟨w, s, v, rfl, hw, _⟩ := h
  · exact follow_of_ws hw
  · exact follow_ws hw (by decide) s

/-- Behind white space comes a comma, if anything. -/
theorem Continues.comma {c : Category} {w s : Bytes} {b : UInt8} (h : Continues c (w ++ b :: s))
    (hw : Ws w) (hb : isWs b = false) : b = 0x2C ∧ ∃ v, Derives c s v := by
  obtain hall | ⟨w', s', v, heq, hw', hs⟩ := h
  · rw [hall b (List.mem_append_right _ List.mem_cons_self)] at hb
    cases hb
  · obtain ⟨_, hrest⟩ := ws_cut hw hw' (stops_cons hb s) (stops_cons (by decide) s') heq
    cases hrest
    exact ⟨rfl, v, hs⟩

/-- A value at the front of a sequel is the value of the sequel. -/
theorem Sequel.continues {c : Category} {w t r : Bytes} {v : Json}
    (h : Sequel c (w ++ (t ++ r))) (hw : Ws w) (ht : Derives .value t v) (hr : Follow r) :
    Continues c r := by
  obtain ⟨w', t', r', v', heq, hw', ht', hcont⟩ := h
  obtain ⟨_, hrest⟩ := ws_cut hw hw' (ht.stopsWs r) (ht'.stopsWs r') heq
  obtain ⟨_, hrest⟩ := value_cut ht ht' hr hcont.follow hrest
  exact hrest ▸ hcont

theorem Derives.elems_sequel {s : Bytes} {v : Json} (h : Derives .elems s v) : Sequel .elems s := by
  cases h with
  | lastElem hw₁ ht hw₂ => exact ⟨_, _, _, _, rfl, hw₁, ht, .inl hw₂⟩
  | consElem hw₁ ht hw₂ he => exact ⟨_, _, _, _, rfl, hw₁, ht, .inr ⟨_, _, _, rfl, hw₂, he⟩⟩

/-- Members are a key, a colon and a sequel. -/
theorem Derives.members_sequel {s : Bytes} {v : Json} (h : Derives .members s v) :
    ∃ w k us w' r, s = w ++ 0x22 :: (k ++ 0x22 :: (w' ++ 0x3A :: r)) ∧ Ws w ∧ Chars k us ∧ Ws w' ∧
      Sequel .members r := by
  cases h with
  | lastMember hw₁ hk hw₂ hw₃ ht hw₄ =>
    exact ⟨_, _, _, _, _, rfl, hw₁, hk, hw₂, _, _, _, _, rfl, hw₃, ht, .inl hw₄⟩
  | consMember hw₁ hk hw₂ hw₃ ht hw₄ hm =>
    exact ⟨_, _, _, _, _, rfl, hw₁, hk, hw₂, _, _, _, _, rfl, hw₃, ht,
      .inr ⟨_, _, _, rfl, hw₄, hm⟩⟩

/-- A key at the front of the members is the key of the first. -/
theorem Derives.sequel_of_key {k r : Bytes} {us : List CodeUnit} {v : Json}
    (h : Derives .members (keyText false k ++ r) v) (hk : Chars k us) : Sequel .members r := by
  obtain ⟨w, k', us', w', r', heq, hw, hk', hw', hseq⟩ := h.members_sequel
  obtain ⟨_, hrest⟩ := ws_cut (w := []) Ws.nil hw (stops_cons (by decide) _)
    (stops_cons (by decide) _) heq
  have hkey : k ++ 0x22 :: (0x3A :: r) = k' ++ 0x22 :: (w' ++ 0x3A :: r') := by
    simpa [keyText, space] using hrest
  obtain ⟨_, hcolon⟩ := ws_cut (w := []) Ws.nil hw' (stops_cons (by decide) _)
    (stops_cons (by decide) _) (key_cut hk hk' hkey)
  cases hcolon
  exact hseq

/-- A value at the front of members is a key: behind it comes a colon. -/
theorem Derives.colon {m x w t r : Bytes} {v v' : Json} (hm : Derives .members m v)
    (h : m ++ x = w ++ (t ++ r)) (hw : Ws w) (ht : Derives .value t v') (hr : Follow r) :
    (r.dropWhile isWs).head? = some 0x3A := by
  obtain ⟨w', k, us, w'', r', rfl, hw', hk, hw'', _⟩ := hm.members_sequel
  have hkey : Derives .value (0x22 :: (k ++ [0x22])) (.str (assemble us)) := .str hk
  have heq : w' ++ ((0x22 :: (k ++ [0x22])) ++ (w'' ++ 0x3A :: (r' ++ x))) = w ++ (t ++ r) := by
    rw [← h]
    simp only [List.append_assoc, List.cons_append, List.nil_append]
  obtain ⟨_, hrest⟩ := ws_cut hw' hw (hkey.stopsWs _) (ht.stopsWs _) heq
  obtain ⟨_, hrest⟩ := value_cut hkey ht (follow_ws hw'' (by decide) _) hr hrest
  rw [← hrest, dropWs hw'' (stops_cons (by decide) _)]
  rfl

/-- Members behind a comma and elements behind a comma do not begin alike. -/
theorem members_ne_elems {m e x y : Bytes} {v v' : Json} (hm : Derives .members m v)
    (he : Derives .elems e v') : m ++ x ≠ e ++ 0x5D :: y := by
  intro heq
  obtain ⟨w, t, r, j, rfl, hw, ht, hcont⟩ := he.elems_sequel
  have hclose : ∀ {b : UInt8} {w s : Bytes}, Ws w → isWs b = false → b ≠ 0x3A →
      ((w ++ b :: s).dropWhile isWs).head? ≠ some 0x3A := by
    intro b w s hw hb hcolon
    rw [dropWs hw (stops_cons hb s)]
    exact fun h => hcolon (Option.some.inj h)
  rw [List.append_assoc, List.append_assoc] at heq
  obtain hws | ⟨w', s, v, rfl, hw', _⟩ := hcont
  · exact hclose hws (by decide) (by decide) (hm.colon heq hw ht (follow_ws hws (by decide) y))
  · rw [List.append_assoc, List.cons_append] at heq
    exact hclose hw' (by decide) (by decide) (hm.colon heq hw ht (follow_ws hw' (by decide) _))

/-! ## Texts of one value -/

/-- A text that is one value, with white space around it. -/
def Single (s : Bytes) : Prop :=
  ∃ w t w' v, s = w ++ (t ++ w') ∧ Ws w ∧ Derives .value t v ∧ Ws w'

/-- A text between brackets that begins like a value is the inside of the array it opens. -/
theorem Sequel.bracketed {c : Category} {s w t r : Bytes} {v : Json}
    (h : Sequel c (0x5B :: s)) (hs : s = w ++ (t ++ r)) (hw : Ws w) (ht : Derives .value t v) :
    ∃ e v' x, Derives .elems e v' ∧ s = e ++ 0x5D :: x := by
  obtain ⟨w₁, t₁, r₁, v₁, heq, hw₁, ht₁, _⟩ := h
  obtain ⟨_, hrest⟩ := ws_cut (w := []) Ws.nil hw₁ (stops_cons (by decide) _) (ht₁.stopsWs r₁) heq
  cases ht₁ with
  | null => cases hrest
  | trueWord => cases hrest
  | falseWord => cases hrest
  | num hn =>
    obtain ⟨b, t', rfl, hb⟩ := hn.head
    cases hrest
    exact absurd hb (by decide)
  | str _ => cases hrest
  | @emptyArr w₂ hw₂ =>
    -- a value does not begin with the closing bracket
    have htail : s = w₂ ++ [0x5D] ++ r₁ := (List.cons.inj hrest).2
    have hclose : w ++ (t ++ r) = w₂ ++ 0x5D :: r₁ := by
      rw [← hs, htail, List.append_assoc, List.singleton_append]
    obtain ⟨_, hrest⟩ := ws_cut hw hw₂ (ht.stopsWs r) (stops_cons (by decide) r₁) hclose
    obtain ⟨b, t', rfl, hb⟩ := ht.head
    exact absurd (List.cons.inj hrest).1 (startsValue_not hb).2
  | @arr e _ he =>
    have htail : s = e ++ [0x5D] ++ r₁ := (List.cons.inj hrest).2
    exact ⟨e, _, r₁, he, by rw [htail, List.append_assoc, List.singleton_append]⟩
  | emptyObj _ => cases hrest
  | obj _ => cases hrest

/-- A text that may stand behind a colon, and between brackets behind a colon, is one value. -/
theorem single_of_both {s : Bytes} (hcolon : Sequel .members s)
    (hbrackets : Sequel .members (0x5B :: (s ++ [0x5D]))) : Single s := by
  obtain ⟨w, t, r, v, rfl, hw, ht, hcont⟩ := hcolon
  obtain hws | ⟨w', m, v', rfl, hw', hm⟩ := hcont
  · exact ⟨w, t, r, v, rfl, hw, ht, hws⟩
  · -- further members would be further elements between the brackets
    have hs : w ++ (t ++ (w' ++ 0x2C :: m)) ++ [0x5D] = w ++ (t ++ (w' ++ 0x2C :: (m ++ [0x5D]))) := by
      simp only [List.append_assoc, List.cons_append]
    obtain ⟨e, v₁, x, he, heq⟩ := hbrackets.bracketed hs hw ht
    obtain ⟨w₂, t₂, r₂, v₂, rfl, hw₂, ht₂, hcont⟩ := he.elems_sequel
    rw [hs, List.append_assoc, List.append_assoc] at heq
    obtain ⟨_, hrest⟩ := ws_cut hw hw₂ (ht.stopsWs _) (ht₂.stopsWs _) heq
    obtain hws | ⟨w₃, e', v₃, rfl, hw₃, he'⟩ := hcont
    · obtain ⟨_, hrest⟩ := value_cut ht ht₂ (follow_ws hw' (by decide) _)
        (follow_ws hws (by decide) _) hrest
      obtain ⟨_, hrest⟩ := ws_cut hw' hws (stops_cons (by decide) _) (stops_cons (by decide) _) hrest
      cases hrest
    · rw [List.append_assoc, List.cons_append] at hrest
      obtain ⟨_, hrest⟩ := value_cut ht ht₂ (follow_ws hw' (by decide) _)
        (follow_ws hw₃ (by decide) _) hrest
      obtain ⟨_, hrest⟩ := ws_cut hw' hw₃ (stops_cons (by decide) _) (stops_cons (by decide) _) hrest
      exact absurd (List.cons.inj hrest).2 (members_ne_elems hm he')

theorem Single.parse {s : Bytes} (h : Single s) : ∃ v, parse s = some v := by
  obtain ⟨w, t, w', v, rfl, hw, ht, hw'⟩ := h
  have hparse := ht.completes w' ((w ++ (t ++ w')).length + 1) (follow_of_ws hw')
    (by simp only [List.length_append]; omega)
  have hend : w'.dropWhile isWs = [] := by
    have hdrop := dropWs (r := []) hw' (fun b hb => by cases hb)
    rwa [List.append_nil] at hdrop
  refine ⟨v, ?_⟩
  simp only [Json.parse, dropWs hw (ht.stopsWs w'), hparse, Option.bind_eq_bind, Option.bind_some,
    hend, ↓reduceIte]

/-! ## Objects -/

/-- What was parsed to an object, and begins with a brace, has members inside. -/
theorem members_of_parse {s : Bytes} {ms : List (Bytes × Json)} {b : UInt8}
    (h : parse (0x7B :: (s ++ [0x7D])) = some (.obj ms)) (hb : b ∈ s) (hws : isWs b = false) :
    ∃ v, Derives .members s v := by
  obtain ⟨w, t, w', heq, hw, ht, hw'⟩ := parse_sound h
  obtain ⟨_, hrest⟩ := ws_cut (w := []) Ws.nil hw (stops_cons (by decide) _) (ht.stopsWs w') heq
  have hnil : w' = [] := by
    by_contra hne
    have hlast := congrArg List.getLast? hrest
    rw [List.getLast?_append_of_ne_nil t hne, List.getLast?_eq_getLast_of_ne_nil hne,
      ← List.cons_append, List.getLast?_concat] at hlast
    have hwsLast := hw' _ (List.getLast_mem hne)
    rw [← Option.some.inj hlast] at hwsLast
    cases hwsLast
  subst hnil
  rw [List.append_nil] at hrest
  cases ht with
  | emptyObj hall =>
    have hsame := List.append_cancel_right (List.cons.inj hrest).2
    subst hsame
    rw [hall b hb] at hws
    cases hws
  | obj hm =>
    have hsame := List.append_cancel_right (List.cons.inj hrest).2
    subst hsame
    exact ⟨_, hm⟩

/-- Members that were written before can be taken away. -/
theorem Frag.peel {t r : Bytes} {is : List Item} {v : Json} (h : Frag false .members t is 0)
    (hm : Derives .members (t ++ (separator false t ++ r)) v) : ∃ v', Derives .members r v' := by
  generalize hc : Category.members = c at h
  generalize hn : 0 = n at h
  induction h generalizing r v with
  | nil =>
    subst hc
    exact ⟨v, hm⟩
  | elem _ _ => cases hc
  | @member t k x us is n j _ hk hx ih =>
    have hsep : separator false (t ++ (separator false t ++ (keyText false k ++ x))) = [0x2C] := by
      rw [← List.append_assoc, ← List.append_assoc]
      exact hx.separator false _
    rw [hsep, List.append_assoc, List.append_assoc, List.append_assoc] at hm
    obtain ⟨v', hkey⟩ := ih hm hc hn
    have hseq := hkey.sequel_of_key hk
    obtain ⟨w, t', w', rfl, hw, ht', hw'⟩ := hx.value
    rw [List.append_assoc, List.append_assoc] at hseq
    have hcont := hseq.continues hw ht' (follow_ws hw' (by decide) r)
    exact (hcont.comma hw' (by decide)).2
  | openObject _ _ => cases hn

/-- What stands behind a key that was written behind complete members. -/
theorem Frag.sequel {t k x : Bytes} {is : List Item} {us : List CodeUnit} {v : Json}
    (h : Frag false .members t is 0) (hk : Chars k us)
    (hm : Derives .members (t ++ (separator false t ++ (keyText false k ++ x))) v) :
    Sequel .members x := by
  obtain ⟨_, hkey⟩ := h.peel hm
  exact hkey.sequel_of_key hk

/-- Behind a key there are no two values. -/
theorem Sequel.not_two {t₁ t₂ r : Bytes} {v₁ v₂ : Json}
    (h : Sequel .members (t₁ ++ 0x2C :: (t₂ ++ r))) (h₁ : Derives .value t₁ v₁)
    (h₂ : Derives .value t₂ v₂) (hr : r = [] ∨ ∃ s, r = 0x2C :: s) : False := by
  have hcont : Continues .members (0x2C :: (t₂ ++ r)) :=
    Sequel.continues (w := []) h Ws.nil h₁ (stops_cons (by decide) _)
  obtain ⟨_, _, hmembers⟩ := Continues.comma (w := []) hcont Ws.nil (by decide)
  have hfollow : Follow r ∧ (r.dropWhile isWs).head? ≠ some 0x3A := by
    obtain rfl | ⟨s, rfl⟩ := hr
    · exact ⟨follow_of_ws Ws.nil, by simp⟩
    · exact ⟨stops_cons (by decide) s, by simp [show isWs 0x2C = false by decide]⟩
  refine hfollow.2 (hmembers.colon (x := []) (w := []) ?_ Ws.nil h₂ hfollow.1)
  rw [List.append_nil, List.nil_append]

end Zap.Data.Json
