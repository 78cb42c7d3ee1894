import Zap.Data.JsonSound

/-!
# JSON texts built from left to right

A writer that appends to a flat buffer has no tree to print: it decides whether a comma is due
by looking at the last byte written, and it may leave objects open. `Frag` describes the buffers
such a writer can reach: what has been written inside an array or an object, with the items that
stand for it and the number of objects still open. `nest` says what the items mean once
everything is closed. The laws are those a writer needs: fragments join, an open object can be
closed, and a fragment with nothing open is the inside of an array or an object.
-/

set_option autoImplicit false

namespace Zap.Data.Json

/-! ## Separators -/

/-- After these bytes no comma is due. -/
def opens (b : UInt8) : Bool :=
  b == 0x7B || b == 0x5B || b == 0x3A || b == 0x2C || b == 0x20

/-- A comma, with a space after it in the spaced style. -/
def comma (spaced : Bool) : Bytes := if spaced then [0x2C, 0x20] else [0x2C]

/-- A space after a colon or a comma, in the spaced style. -/
def space (spaced : Bool) : Bytes := if spaced then [0x20] else []

/-- What has to be written between a text and the next key or element. -/
def separator (spaced : Bool) (t : Bytes) : Bytes :=
  match t.getLast? with
  | none => []
  | some b => if opens b then [] else comma spaced

/-- A text, and behind it another one that was written without knowing of the first. -/
def join (spaced : Bool) (p t : Bytes) : Bytes :=
  if t = [] then p else p ++ (separator spaced p ++ t)

section Separators

variable (spaced : Bool)

@[simp] theorem separator_nil : separator spaced [] = [] := rfl

@[simp] theorem join_nil (p : Bytes) : join spaced p [] = p := rfl

theorem ws_space : Ws (space spaced) := by
  cases spaced
  · exact .nil
  · intro b hb
    rw [List.mem_singleton.mp hb]
    rfl

theorem comma_eq : comma spaced = 0x2C :: space spaced := by cases spaced <;> rfl

theorem separator_append (p : Bytes) {t : Bytes} (h : t ≠ []) :
    separator spaced (p ++ t) = separator spaced t := by
  simp only [separator, List.getLast?_append_of_ne_nil p h]

/-- Behind an opening byte a text needs the separators it needs on its own. -/
theorem separator_opened (p t : Bytes) {b : UInt8} (hb : opens b = true) :
    separator spaced (p ++ b :: t) = separator spaced t := by
  rw [separator_append spaced p (List.cons_ne_nil b t)]
  cases t with
  | nil => simp [separator, hb]
  | cons c t => rw [← List.singleton_append, separator_append spaced [b] (List.cons_ne_nil c t)]

theorem separator_join (p : Bytes) {t : Bytes} (h : t ≠ []) :
    separator spaced (join spaced p t) = separator spaced t := by
  rw [join, if_neg h, ← List.append_assoc, separator_append spaced _ h]

/-- Writing commutes with putting a text in front. -/
theorem join_append (p t : Bytes) {x : Bytes} (h : t ≠ [] ∨ x ≠ []) :
    join spaced p (t ++ (separator spaced t ++ x)) =
      join spaced p t ++ (separator spaced (join spaced p t) ++ x) := by
  by_cases ht : t = []
  · subst ht
    rw [join, if_neg (by simpa using h)]
    rfl
  · have hne : t ++ (separator spaced t ++ x) ≠ [] := List.append_ne_nil_of_left_ne_nil ht _
    rw [separator_join spaced p ht, join, if_neg hne, join, if_neg ht]
    simp only [List.append_assoc]

/-- The same for bytes that are written without asking for a separator. -/
theorem join_write (p : Bytes) {t : Bytes} (h : t ≠ []) (x : Bytes) :
    join spaced p (t ++ x) = join spaced p t ++ x := by
  rw [join, if_neg (List.append_ne_nil_of_left_ne_nil h x), join, if_neg h]
  simp only [List.append_assoc]

/-- An opening text in front stays in front. -/
theorem join_opening {p : Bytes} (h : separator spaced p = []) (t u : Bytes) :
    join spaced (p ++ t) u = p ++ join spaced t u := by
  have hsep : separator spaced (p ++ t) = separator spaced t := by
    by_cases ht : t = []
    · rw [ht, List.append_nil, h, separator_nil]
    · exact separator_append spaced p ht
  unfold join
  split
  · rfl
  · rw [hsep, List.append_assoc]

end Separators

/-! ## Values in place -/

theorem Number.getLast {t : Bytes} (h : Number t) : ∃ d, t.getLast? = some d ∧ isDigit d = true := by
  have digits : ∀ {ds : Bytes}, Digits ds → ∀ p, ∃ d, (p ++ ds).getLast? = some d ∧
      isDigit d = true := by
    intro ds hds p
    refine ⟨ds.getLast hds.1, ?_, hds.2 _ (List.getLast_mem hds.1)⟩
    rw [List.getLast?_append_of_ne_nil p hds.1, List.getLast?_eq_getLast_of_ne_nil hds.1]
  obtain ⟨sign, int, frac, exp, rfl, _, hint, hfrac, hexp⟩ := h
  rcases hexp with rfl | ⟨e, es, ds, rfl, _, _, hds⟩
  · rcases hfrac with rfl | ⟨ds, rfl, hds⟩
    · rw [List.append_nil, List.append_nil]
      exact digits hint.1 sign
    · rw [List.append_nil, ← List.singleton_append, ← List.append_assoc]
      exact digits hds _
  · rw [← List.cons_append, ← List.append_assoc]
    exact digits hds _

theorem opens_digit {d : UInt8} (h : isDigit d = true) : opens d = false := by
  rw [isDigit_iff] at h
  simp only [opens, Bool.or_eq_false_iff, beq_eq_false_iff_ne, ne_eq]
  refine ⟨⟨⟨⟨?_, ?_⟩, ?_⟩, ?_⟩, ?_⟩ <;> (rintro rfl; revert h; decide)

/-- After a value a comma is due. -/
theorem Derives.getLast {t : Bytes} {v : Json} (h : Derives .value t v) :
    ∃ b, t.getLast? = some b ∧ opens b = false := by
  have closed : ∀ (p : Bytes) {b c : UInt8}, opens b = false →
      ∃ d, (c :: (p ++ [b])).getLast? = some d ∧ opens d = false := by
    intro p b c hb
    refine ⟨b, ?_, hb⟩
    rw [← List.cons_append, List.getLast?_concat]
  cases h with
  | null => exact ⟨0x6C, rfl, rfl⟩
  | trueWord => exact ⟨0x65, rfl, rfl⟩
  | falseWord => exact ⟨0x65, rfl, rfl⟩
  | num hn =>
    obtain ⟨d, hd, hdig⟩ := hn.getLast
    exact ⟨d, hd, opens_digit hdig⟩
  | str _ => exact closed _ rfl
  | emptyArr _ => exact closed _ rfl
  | arr _ => exact closed _ rfl
  | emptyObj _ => exact closed _ rfl
  | obj _ => exact closed _ rfl

/-- A text that can be written where a value is due: a value, perhaps with white space around
it, that does not make the writer forget the next comma. -/
structure Slot (t : Bytes) (v : Json) : Prop where
  value : ∃ w₁ t' w₂, t = w₁ ++ (t' ++ w₂) ∧ Ws w₁ ∧ Derives .value t' v ∧ Ws w₂
  last : ∃ b, t.getLast? = some b ∧ opens b = false

theorem Derives.slot {t : Bytes} {v : Json} (h : Derives .value t v) : Slot t v where
  value := ⟨[], t, [], by simp, .nil, h, .nil⟩
  last := h.getLast

theorem Slot.ne_nil {t : Bytes} {v : Json} (h : Slot t v) : t ≠ [] := by
  obtain ⟨b, hb, _⟩ := h.last
  rintro rfl
  cases hb

theorem Slot.separator {t : Bytes} {v : Json} (h : Slot t v) (spaced : Bool) (p : Bytes) :
    separator spaced (p ++ t) = comma spaced := by
  obtain ⟨b, hb, ho⟩ := h.last
  rw [separator_append spaced p h.ne_nil, Json.separator, hb]
  simp [ho]

/-! ## Fragments -/

/-- What a writer has written: an element, a member, or the opening of an object that the
following items belong to. -/
inductive Item where
  | elem (v : Json)
  | member (key : Bytes) (v : Json)
  | openObject (key : Bytes)

/-- The elements among the items of an array. -/
def elements : List Item → List Json
  | [] => []
  | .elem v :: is => v :: elements is
  | _ :: is => elements is

/-- The members that the items of an object stand for: what follows an opening is inside it. -/
def nest : List Item → List (Bytes × Json)
  | [] => []
  | .member k v :: is => (k, v) :: nest is
  | .openObject k :: is => [(k, .obj (nest is))]
  | .elem _ :: is => nest is

/-- The items of complete members. -/
def members (ms : List (Bytes × Json)) : List Item := ms.map fun m => .member m.1 m.2

/-- A key as it is written, `k` being its text between the quotes. -/
def keyText (spaced : Bool) (k : Bytes) : Bytes := 0x22 :: (k ++ 0x22 :: 0x3A :: space spaced)

/-- The texts that can stand in the buffer behind an opening bracket or brace. -/
inductive Frag (spaced : Bool) : Category → Bytes → List Item → Nat → Prop
  | nil {c : Category} : Frag spaced c [] [] 0
  | elem {t v : Bytes} {is : List Item} {n : Nat} {j : Json} :
      Frag spaced .elems t is n → Slot v j →
        Frag spaced .elems (t ++ (separator spaced t ++ v)) (is ++ [.elem j]) n
  | member {t k v : Bytes} {us : List CodeUnit} {is : List Item} {n : Nat} {j : Json} :
      Frag spaced .members t is n → Chars k us → Slot v j →
        Frag spaced .members (t ++ (separator spaced t ++ (keyText spaced k ++ v)))
          (is ++ [.member (assemble us) j]) n
  | openObject {t k : Bytes} {us : List CodeUnit} {is : List Item} {n : Nat} :
      Frag spaced .members t is n → Chars k us →
        Frag spaced .members (t ++ (separator spaced t ++ (keyText spaced k ++ [0x7B])))
          (is ++ [.openObject (assemble us)]) (n + 1)

theorem nest_members (ms : List (Bytes × Json)) (is : List Item) :
    nest (members ms ++ is) = ms ++ nest is := by
  induction ms with
  | nil => rfl
  | cons m ms ih => exact congrArg ((m.1, m.2) :: ·) ih

theorem nest_members_nil (ms : List (Bytes × Json)) : nest (members ms) = ms := by
  have h := nest_members ms []
  rwa [List.append_nil, nest, List.append_nil] at h

/-- Closing the object that was opened last makes it a member. -/
theorem nest_openObject (is : List Item) (k : Bytes) (inner : List Item) :
    nest (is ++ [.member k (.obj (nest inner))]) = nest (is ++ .openObject k :: inner) := by
  induction is with
  | nil => rfl
  | cons i is ih =>
    cases i with
    | elem v => exact ih
    | member k' v => exact congrArg ((k', v) :: ·) ih
    | openObject k' => exact congrArg (fun ms => [(k', Json.obj ms)]) ih

theorem elements_elem (js : List Json) : elements (js.map .elem) = js := by
  induction js with
  | nil => rfl
  | cons j js ih => exact congrArg (j :: ·) ih

theorem elements_append (is js : List Item) : elements (is ++ js) = elements is ++ elements js := by
  induction is with
  | nil => rfl
  | cons i is ih =>
    cases i with
    | elem v => exact congrArg (v :: ·) ih
    | member k v => exact ih
    | openObject k => exact ih

/-! ### Joining -/

theorem keyText_append_ne_nil (spaced : Bool) (k t : Bytes) : keyText spaced k ++ t ≠ [] :=
  List.cons_ne_nil _ _

/-- Two fragments written apart are one fragment when the second is put behind the first. -/
theorem Frag.join {spaced : Bool} {c : Category} {t₁ t₂ : Bytes} {is₁ is₂ : List Item}
    {n₁ n₂ : Nat} (h₁ : Frag spaced c t₁ is₁ n₁) (h₂ : Frag spaced c t₂ is₂ n₂) :
    Frag spaced c (join spaced t₁ t₂) (is₁ ++ is₂) (n₁ + n₂) := by
  induction h₂ with
  | nil => simpa using h₁
  | elem _ hv ih =>
    rw [join_append spaced _ _ (.inr hv.ne_nil), ← List.append_assoc is₁]
    exact .elem (ih h₁) hv
  | member _ hk hv ih =>
    rw [join_append spaced _ _ (.inr (keyText_append_ne_nil _ _ _)), ← List.append_assoc is₁]
    exact .member (ih h₁) hk hv
  | openObject _ hk ih =>
    rw [join_append spaced _ _ (.inr (keyText_append_ne_nil _ _ _)), ← List.append_assoc is₁]
    exact .openObject (ih h₁) hk

/-! ### Closing -/

/-- The inside of an array, when something follows. -/
theorem Frag.elems_then {spaced : Bool} {c : Category} {t : Bytes} {is : List Item} {n : Nat}
    (h : Frag spaced c t is n) (hc : c = .elems) {e : Bytes} {vs : List Json}
    (he : Derives .elems e (.arr vs)) :
    Derives .elems (t ++ (separator spaced t ++ e)) (.arr (elements is ++ vs)) := by
  induction h generalizing e vs with
  | nil => exact he
  | @elem t v is n j _ hv ih =>
    have hsep := hv.separator spaced (t ++ separator spaced t)
    obtain ⟨w₁, t', w₂, rfl, hw₁, ht', hw₂⟩ := hv.value
    have hcons := ih hc (.consElem hw₁ ht' hw₂ (.elems_ws (ws_space spaced) he))
    rw [List.append_assoc] at hsep
    rw [hsep, comma_eq, elements_append]
    simpa [elements] using hcons
  | member _ _ _ _ => cases hc
  | openObject _ _ _ => cases hc

/-- The fragments of an array leave nothing open. -/
theorem Frag.elems_closed {spaced : Bool} {c : Category} {t : Bytes} {is : List Item} {n : Nat}
    (h : Frag spaced c t is n) (hc : c = .elems) : n = 0 := by
  induction h with
  | nil => rfl
  | elem _ _ ih => exact ih hc
  | member _ _ _ _ => cases hc
  | openObject _ _ _ => cases hc

/-- A fragment of an array, in its brackets, is a value. -/
theorem Frag.arr {spaced : Bool} {t : Bytes} {is : List Item} {n : Nat}
    (h : Frag spaced .elems t is n) :
    Derives .value (0x5B :: (t ++ [0x5D])) (.arr (elements is)) := by
  cases h with
  | nil => exact .emptyArr .nil
  | elem hinit hv =>
    obtain ⟨w₁, t', w₂, rfl, hw₁, ht', hw₂⟩ := hv.value
    rw [elements_append]
    exact .arr (hinit.elems_then rfl (.lastElem hw₁ ht' hw₂))

/-- The inside of an object with nothing open, when something follows. -/
theorem Frag.members_then {spaced : Bool} {c : Category} {t : Bytes} {is : List Item} {n : Nat}
    (h : Frag spaced c t is n) (hc : c = .members) (hn : n = 0) {m : Bytes}
    {ms : List (Bytes × Json)} (hm : Derives .members m (.obj ms)) :
    Derives .members (t ++ (separator spaced t ++ m)) (.obj (nest (is ++ members ms))) := by
  induction h generalizing m ms with
  | nil =>
    rw [List.nil_append, List.nil_append, nest_members_nil]
    exact hm
  | elem _ _ _ => cases hc
  | @member t k v us is n j _ hk hv ih =>
    have hsep := hv.separator spaced (t ++ (separator spaced t ++ keyText spaced k))
    obtain ⟨w₁, t', w₂, rfl, hw₁, ht', hw₂⟩ := hv.value
    have hcons := ih hc hn (.consMember .nil hk .nil ((ws_space spaced).append hw₁) ht' hw₂
      (.members_ws (ws_space spaced) hm))
    simp only [List.append_assoc] at hsep
    rw [hsep, comma_eq]
    simpa [keyText, members] using hcons
  | openObject _ _ _ => cases hn

/-- A fragment of an object with nothing open, in its braces, is a value. -/
theorem Frag.obj {spaced : Bool} {t : Bytes} {is : List Item} (h : Frag spaced .members t is 0) :
    Derives .value (0x7B :: (t ++ [0x7D])) (.obj (nest is)) := by
  cases h with
  | nil => exact .emptyObj .nil
  | @member t k v us is n j hinit hk hv =>
    obtain ⟨w₁, t', w₂, rfl, hw₁, ht', hw₂⟩ := hv.value
    have hlast := hinit.members_then rfl rfl
      (.lastMember .nil hk .nil ((ws_space spaced).append hw₁) ht' hw₂)
    have hval := Derives.obj hlast
    simpa [keyText, members] using hval

/-- A fragment with an object open splits at the object that was opened last. -/
theorem Frag.split {spaced : Bool} {c : Category} {t : Bytes} {is : List Item} {m n : Nat}
    (h : Frag spaced c t is m) (hc : c = .members) (hm : m = n + 1) :
    ∃ t₀ is₀ k us t₁ is₁, Frag spaced .members t₀ is₀ n ∧ Chars k us ∧
      Frag spaced .members t₁ is₁ 0 ∧
      t = t₀ ++ (separator spaced t₀ ++ (keyText spaced k ++ 0x7B :: t₁)) ∧
      is = is₀ ++ .openObject (assemble us) :: is₁ := by
  induction h with
  | nil => cases hm
  | elem _ _ _ => cases hc
  | @member t k v us is m j _ hk hv ih =>
    obtain ⟨t₀, is₀, k₀, us₀, t₁, is₁, hout, hk₀, hin, rfl, rfl⟩ := ih hc hm
    refine ⟨t₀, is₀, k₀, us₀, _, _, hout, hk₀, .member hin hk hv, ?_, by simp⟩
    have hsep := separator_opened spaced (t₀ ++ (separator spaced t₀ ++ keyText spaced k₀)) t₁
      (b := 0x7B) rfl
    simp only [List.append_assoc] at hsep
    rw [hsep]
    simp
  | @openObject t k us is m hinit hk _ =>
    cases hm
    exact ⟨t, is, k, us, [], [], hinit, hk, .nil, rfl, rfl⟩

/-- A closing brace closes the object that was opened last. -/
theorem Frag.closeOne {spaced : Bool} {t : Bytes} {is : List Item} {n : Nat}
    (h : Frag spaced .members t is (n + 1)) :
    ∃ is', Frag spaced .members (t ++ [0x7D]) is' n ∧ nest is' = nest is := by
  obtain ⟨t₀, is₀, k, us, t₁, is₁, hout, hk, hin, rfl, rfl⟩ := h.split rfl rfl
  refine ⟨is₀ ++ [.member (assemble us) (.obj (nest is₁))], ?_, nest_openObject _ _ _⟩
  have hmember := Frag.member hout hk hin.obj.slot
  simpa using hmember

/-- A fragment with nothing open is a list of complete members. -/
theorem Frag.items_eq {spaced : Bool} {c : Category} {t : Bytes} {is : List Item} {n : Nat}
    (h : Frag spaced c t is n) (hc : c = .members) (hn : n = 0) : is = members (nest is) := by
  induction h with
  | nil => rfl
  | elem _ _ _ => cases hc
  | @member t k v us is n j _ _ _ ih =>
    rw [ih hc hn, nest_members]
    simp [members, nest]
  | openObject _ _ _ => cases hn

/-- Closing braces for all the open objects leave the members the items stand for. -/
theorem Frag.close {spaced : Bool} {t : Bytes} {is : List Item} {n : Nat}
    (h : Frag spaced .members t is n) :
    Frag spaced .members (t ++ List.replicate n 0x7D) (members (nest is)) 0 := by
  induction n generalizing t is with
  | zero =>
    rw [List.replicate_zero, List.append_nil, ← h.items_eq rfl rfl]
    exact h
  | succ n ih =>
    obtain ⟨is', hclosed, hnest⟩ := h.closeOne
    have hrest := ih hclosed
    rw [hnest, List.append_assoc] at hrest
    exact hrest

/-- A fragment of an object, with closing braces for everything, is a value. -/
theorem Frag.obj_close {spaced : Bool} {t : Bytes} {is : List Item} {n : Nat}
    (h : Frag spaced .members t is n) :
    Derives .value (0x7B :: (t ++ 0x7D :: List.replicate n 0x7D)) (.obj (nest is)) := by
  have hval := h.close.obj
  rwa [nest_members_nil, List.append_assoc, ← List.replicate_succ', List.replicate_succ] at hval

end Zap.Data.Json
