import Mathlib.Data.List.Basic

/-!
# Slices that share arrays

Arrays have an address and a length that never changes; a slice is a header that names an array, the
number of elements in use and the number of elements that there is room for. `append` writes into
the array as long as there is room, also if other slices name it, and takes a new array else. Slices
start at the beginning of their arrays here.

How to reason about them: every slice is held under a tag, an array belongs to one tag, and what is
done to a slice of one tag leaves the slices of all other tags as they were. A slice that is being
built in an array of its own belongs to nobody until it is adopted.
-/

set_option autoImplicit false

namespace Zap.Data

/-- The value of a slice variable. -/
structure SliceHeader where
  addr : Nat
  len : Nat
  cap : Nat
  len_le : len ≤ cap

/-- The slice `nil`. -/
def SliceHeader.empty : SliceHeader := ⟨0, 0, 0, Nat.le_refl _⟩

/-- `s[:len(s):len(s)]`. -/
def SliceHeader.clip (s : SliceHeader) : SliceHeader := ⟨s.addr, s.len, s.len, Nat.le_refl _⟩

/-- The capacity that `append` gives to the array of a slice that has none left, by the old capacity
and the length that is needed. -/
structure Growth where
  newCap : Nat → Nat → Nat
  enough : ∀ cap need, need ≤ newCap cap need

/-- Arrays by address. -/
structure Arrays (α : Type) where
  cells : List (List α)

namespace Arrays

variable {α : Type}

def empty : Arrays α := ⟨[]⟩

/-- The address of the next array. -/
def next (m : Arrays α) : Nat := m.cells.length

def array (m : Arrays α) (addr : Nat) : List α := m.cells.getD addr []

/-- The elements of a slice. -/
def read (m : Arrays α) (s : SliceHeader) : List α := (m.array s.addr).take s.len

/-- Write elements into an array, from a position on. -/
def store (m : Arrays α) (addr pos : Nat) (xs : List α) : Arrays α :=
  ⟨m.cells.modify addr fun a => a.take pos ++ xs ++ a.drop (pos + xs.length)⟩

/-- A new array. -/
def alloc (m : Arrays α) (a : List α) : Arrays α := ⟨m.cells ++ [a]⟩

/-- `copy(s, xs)`. -/
def copy (m : Arrays α) (s : SliceHeader) (xs : List α) : Arrays α :=
  m.store s.addr 0 (xs.take s.len)

/-- `s[i] = a`. -/
def set (m : Arrays α) (s : SliceHeader) (i : Nat) (a : α) : Arrays α :=
  if i < s.len then m.store s.addr i [a] else m

/-- `for i := range s { s[i] = f(s[i]) }`, as far as some of the indices go. -/
def updateAt (m : Arrays α) (s : SliceHeader) (f : α → α) (is : List Nat) : Arrays α :=
  is.foldl (fun m i => ((m.read s)[i]?).elim m fun a => m.set s i (f a)) m

section Zero

variable [Inhabited α]

/-- `make([]T, len, cap)`. -/
def make (m : Arrays α) (len cap : Nat) (h : len ≤ cap) : Arrays α × SliceHeader :=
  (m.alloc (List.replicate cap default), ⟨m.next, len, cap, h⟩)

/-- `make([]T, n)`. -/
def makeLen (m : Arrays α) (n : Nat) : Arrays α × SliceHeader := m.make n n (Nat.le_refl n)

/-- `append(s, xs...)`. -/
def append (g : Growth) (m : Arrays α) (s : SliceHeader) (xs : List α) :
    Arrays α × SliceHeader :=
  if h : s.len + xs.length ≤ s.cap then
    (m.store s.addr s.len xs, ⟨s.addr, s.len + xs.length, s.cap, h⟩)
  else
    let cap := g.newCap s.cap (s.len + xs.length)
    (m.alloc (m.read s ++ xs ++ List.replicate (cap - (s.len + xs.length)) default),
      ⟨m.next, s.len + xs.length, cap, g.enough _ _⟩)

end Zero

/-! ## Slices that are there -/

/-- The array of a slice has the room that the slice says. -/
def Holds (m : Arrays α) (s : SliceHeader) : Prop := s.cap ≤ (m.array s.addr).length

/-- A slice that is there is there later, with the same elements. -/
def Keeps (m m' : Arrays α) (s : SliceHeader) : Prop := m'.Holds s ∧ m'.read s = m.read s

theorem holds_empty (m : Arrays α) : m.Holds .empty := Nat.zero_le _

theorem read_empty (m : Arrays α) : m.read .empty = [] := List.take_zero

variable {m m' m'' : Arrays α} {s t : SliceHeader}

theorem Holds.clip (h : m.Holds s) : m.Holds s.clip := Nat.le_trans s.len_le h

theorem length_read (h : m.Holds s) : (m.read s).length = s.len := by
  rw [read, List.length_take]
  exact Nat.min_eq_left (Nat.le_trans s.len_le h)

/-- A slice with room has an array. -/
theorem Holds.lt_next (h : m.Holds s) (hcap : s.cap ≠ 0) : s.addr < m.next := by
  by_contra hge
  have hnone : m.cells[s.addr]? = none := List.getElem?_eq_none (Nat.le_of_not_lt hge)
  rw [Holds, array, List.getD_eq_getElem?_getD, hnone] at h
  exact hcap (Nat.le_zero.mp h)

theorem Keeps.refl (h : m.Holds s) : m.Keeps m s := ⟨h, rfl⟩

theorem Keeps.trans (h : m.Keeps m' s) (h' : m'.Keeps m'' s) : m.Keeps m'' s :=
  ⟨h'.1, h'.2.trans h.2⟩

/-- Slices of an array that has not changed. -/
theorem Keeps.of_array (h : m.Holds s) (ha : s.cap ≠ 0 → m'.array s.addr = m.array s.addr) :
    m.Keeps m' s := by
  by_cases hcap : s.cap = 0
  · have hlen : s.len = 0 := Nat.le_zero.mp (hcap ▸ s.len_le)
    refine ⟨by rw [Holds, hcap]; exact Nat.zero_le _, ?_⟩
    rw [read, read, hlen, List.take_zero, List.take_zero]
  · exact ⟨by rw [Holds, ha hcap]; exact h, by rw [read, read, ha hcap]⟩

/-! ## What the operations change -/

theorem array_store_ne {addr a pos : Nat} (xs : List α) (h : a ≠ addr) :
    (m.store addr pos xs).array a = m.array a := by
  simp only [array, store, List.getD_eq_getElem?_getD, List.getElem?_modify]
  simp only [if_neg (Ne.symm h), id_map']

theorem array_store_eq {addr pos : Nat} {xs : List α}
    (h : pos + xs.length ≤ (m.array addr).length) :
    (m.store addr pos xs).array addr =
      (m.array addr).take pos ++ xs ++ (m.array addr).drop (pos + xs.length) := by
  simp only [array, store, List.getD_eq_getElem?_getD, List.getElem?_modify, if_true] at h ⊢
  cases hcell : m.cells[addr]? with
  | some a => rfl
  | none =>
    rw [hcell, Option.getD_none, List.length_nil, Nat.le_zero, Nat.add_eq_zero_iff,
      List.length_eq_zero_iff] at h
    rw [h.2]
    simp

theorem next_store (addr pos : Nat) (xs : List α) : (m.store addr pos xs).next = m.next :=
  List.length_modify _ _ _

theorem array_alloc_next (a : List α) : (m.alloc a).array m.next = a := by
  simp [array, alloc, next, List.getD_eq_getElem?_getD]

theorem Keeps.alloc (h : m.Holds s) (a : List α) : m.Keeps (m.alloc a) s := by
  refine .of_array h fun hcap => ?_
  simp only [array, Arrays.alloc, List.getD_eq_getElem?_getD]
  rw [List.getElem?_append_left (h.lt_next hcap)]

theorem next_alloc (a : List α) : (m.alloc a).next = m.next + 1 := by
  simp [next, alloc]

/-- Writing nothing. -/
theorem array_store_nil (addr pos a : Nat) : (m.store addr pos []).array a = m.array a := by
  simp only [array, store, List.getD_eq_getElem?_getD, List.getElem?_modify, List.append_nil,
    List.length_nil, Nat.add_zero, List.take_append_drop, ite_self, id_map']

/-! ## Slices apart -/

/-- Nothing that is done to one of the slices can be seen in the other. -/
def Apart (s t : SliceHeader) : Prop := s.cap = 0 ∨ t.cap = 0 ∨ s.addr ≠ t.addr

/-- Writing into the room of a slice leaves the slices apart from it. -/
theorem Keeps.store (h : m.Holds t) (hapart : Apart s t) {pos : Nat} {xs : List α}
    (hpos : pos + xs.length ≤ s.cap) : m.Keeps (m.store s.addr pos xs) t := by
  refine .of_array h fun hcap => ?_
  rcases hapart with hs | ht | hne
  · have hnil : xs = [] := List.eq_nil_of_length_eq_zero (by omega)
    rw [hnil, array_store_nil]
  · exact absurd ht hcap
  · exact array_store_ne xs (Ne.symm hne)

theorem holds_store (h : m.Holds s) {pos : Nat} {xs : List α} (hpos : pos + xs.length ≤ s.cap) :
    (m.store s.addr pos xs).Holds s := by
  have hroom : s.cap ≤ (m.array s.addr).length := h
  rw [Holds, array_store_eq (Nat.le_trans hpos h)]
  simp only [List.length_append, List.length_take, List.length_drop]
  omega

theorem Keeps.copy (h : m.Holds t) (hapart : Apart s t) (xs : List α) :
    m.Keeps (m.copy s xs) t := by
  refine .store h hapart ?_
  have := s.len_le
  simp only [List.length_take]
  omega

theorem Keeps.set (h : m.Holds t) (hapart : Apart s t) (i : Nat) (a : α) :
    m.Keeps (m.set s i a) t := by
  rw [Arrays.set]
  split
  next hi => exact .store h hapart (Nat.le_trans hi s.len_le)
  next => exact .refl h

/-- A slice that is overwritten as a whole. -/
theorem copy_self (h : m.Holds s) {xs : List α} (hxs : xs.length = s.len) :
    (m.copy s xs).Holds s ∧ (m.copy s xs).read s = xs := by
  have hroom : 0 + xs.length ≤ s.cap := by rw [Nat.zero_add, hxs]; exact s.len_le
  rw [copy, List.take_of_length_le (Nat.le_of_eq hxs)]
  refine ⟨holds_store h hroom, ?_⟩
  rw [read, array_store_eq (Nat.le_trans hroom h), List.take_zero, List.nil_append,
    List.take_left' hxs]

theorem set_self (h : m.Holds s) (i : Nat) (a : α) :
    (m.set s i a).Holds s ∧ (m.set s i a).read s = (m.read s).set i a := by
  rw [set]
  split
  next hi =>
    have hroom : i + [a].length ≤ s.cap := Nat.le_trans hi s.len_le
    refine ⟨holds_store h hroom, ?_⟩
    have hcell : i < (m.array s.addr).length := Nat.le_trans hroom h
    rw [read, array_store_eq (Nat.le_trans hroom h), List.append_assoc, List.singleton_append,
      List.length_singleton, ← List.set_eq_take_cons_drop a hcell, List.take_set, read]
  next hi =>
    refine ⟨h, (List.set_eq_of_length_le ?_).symm⟩
    rw [length_read h]
    exact Nat.le_of_not_lt hi

/-! ## `append` -/

section Append

variable [Inhabited α] (g : Growth)

theorem next_append (m : Arrays α) (s : SliceHeader) (xs : List α) :
    m.next ≤ (m.append g s xs).1.next := by
  rw [append]
  split
  · exact Nat.le_of_eq (next_store _ _ _).symm
  · rw [next_alloc]
    exact Nat.le_succ _

/-- `append` gives a slice with the elements added; its array is that of the slice, or new. -/
theorem append_self (h : m.Holds s) (xs : List α) :
    (m.append g s xs).1.Holds (m.append g s xs).2 ∧
      (m.append g s xs).1.read (m.append g s xs).2 = m.read s ++ xs ∧
      ((m.append g s xs).2.addr = s.addr ∧ (m.append g s xs).2.cap = s.cap ∨
        m.next ≤ (m.append g s xs).2.addr) := by
  have hlen := length_read h
  rw [append]
  split
  next hroom =>
    refine ⟨holds_store h hroom, ?_, .inl ⟨rfl, rfl⟩⟩
    show List.take (s.len + xs.length) _ = _
    rw [array_store_eq (Nat.le_trans hroom h)]
    exact List.take_left' (by rw [List.length_append, ← read, hlen])
  next =>
    have hcap := g.enough s.cap (s.len + xs.length)
    refine ⟨?_, ?_, .inr (Nat.le_refl _)⟩
    · show _ ≤ List.length (array _ _)
      rw [array_alloc_next]
      simp only [List.length_append, hlen, List.length_replicate]
      omega
    · show List.take (s.len + xs.length) (array _ _) = _
      rw [array_alloc_next]
      exact List.take_left' (by rw [List.length_append, hlen])

theorem Keeps.append (h : m.Holds t) (hapart : Apart s t) (xs : List α) :
    m.Keeps (m.append g s xs).1 t := by
  rw [Arrays.append]
  split
  next hroom => exact .store h hapart hroom
  next => exact .alloc h _

/-- A slice without room is not written to: everything else stays. -/
theorem Keeps.append_clip (h : m.Holds t) (s : SliceHeader) (xs : List α) :
    m.Keeps (m.append g s.clip xs).1 t := by
  rw [Arrays.append]
  split
  next hroom =>
    have hle : s.len + xs.length ≤ s.len := hroom
    obtain rfl : xs = [] := List.eq_nil_of_length_eq_zero (by omega)
    exact .of_array h fun _ => array_store_nil _ _ _
  next => exact .alloc h _

end Append

/-! ## Slices that are being built -/

/-- A slice whose array was not there before, with what it holds so far. -/
structure Fresh (m m' : Arrays α) (s : SliceHeader) (xs : List α) : Prop where
  holds : m'.Holds s
  read : m'.read s = xs
  addr : s.cap = 0 ∨ m.next ≤ s.addr
  keeps : ∀ t, m.Holds t → m.Keeps m' t
  next_le : m.next ≤ m'.next

namespace Fresh

variable {xs : List α}

/-- A new slice is apart from those that were there before. -/
theorem apart (h : Fresh m m' s xs) (ht : m.Holds t) : Apart s t := by
  rcases h.addr with hcap | hle
  · exact .inl hcap
  · by_cases hcap : t.cap = 0
    · exact .inr (.inl hcap)
    · exact .inr (.inr fun heq => Nat.not_lt_of_le hle (heq ▸ ht.lt_next hcap))

theorem empty (m : Arrays α) : Fresh m m .empty [] :=
  ⟨m.holds_empty, m.read_empty, .inl rfl, fun _ h => .refl h, Nat.le_refl _⟩

theorem make [Inhabited α] (m : Arrays α) {len cap : Nat} (hle : len ≤ cap) :
    Fresh m (m.make len cap hle).1 (m.make len cap hle).2 (List.replicate len default) where
  holds := by
    show cap ≤ List.length (array _ _)
    rw [Arrays.make, array_alloc_next]
    exact Nat.le_of_eq List.length_replicate.symm
  read := by
    show List.take len (array _ _) = _
    rw [Arrays.make, array_alloc_next, List.take_replicate, Nat.min_eq_left hle]
  addr := .inr (Nat.le_refl _)
  keeps := fun _ h => .alloc h _
  next_le := by
    rw [Arrays.make, next_alloc]
    exact Nat.le_succ _

theorem makeLen [Inhabited α] (m : Arrays α) (n : Nat) :
    Fresh m (m.makeLen n).1 (m.makeLen n).2 (List.replicate n default) := make m (Nat.le_refl n)

theorem append [Inhabited α] (h : Fresh m m' s xs) (g : Growth) (ys : List α) :
    Fresh m (m'.append g s ys).1 (m'.append g s ys).2 (xs ++ ys) := by
  obtain ⟨hholds, hread, haddr⟩ := append_self g h.holds ys
  refine ⟨hholds, by rw [hread, h.read], ?_, fun t ht => ?_, ?_⟩
  · rcases haddr with ⟨heq, hcap⟩ | hnew
    · rw [heq, hcap]
      exact h.addr
    · exact .inr (Nat.le_trans h.next_le hnew)
  · have hold := h.keeps t ht
    exact hold.trans (.append g hold.1 (h.apart ht) ys)
  · exact Nat.le_trans h.next_le (next_append g m' s ys)

theorem copy (h : Fresh m m' s xs) {ys : List α} (hlen : ys.length = s.len) :
    Fresh m (m'.copy s ys) s ys := by
  obtain ⟨hholds, hread⟩ := copy_self h.holds hlen
  refine ⟨hholds, hread, h.addr, fun t ht => ?_, ?_⟩
  · have hold := h.keeps t ht
    exact hold.trans (.copy hold.1 (h.apart ht) ys)
  · exact Nat.le_trans h.next_le (Nat.le_of_eq (next_store _ _ _).symm)

theorem set (h : Fresh m m' s xs) (i : Nat) (a : α) : Fresh m (m'.set s i a) s (xs.set i a) := by
  obtain ⟨hholds, hread⟩ := set_self h.holds i a
  refine ⟨hholds, by rw [hread, h.read], h.addr, fun t ht => ?_, ?_⟩
  · have hold := h.keeps t ht
    exact hold.trans (.set hold.1 (h.apart ht) i a)
  · rw [Arrays.set]
    split
    · exact Nat.le_trans h.next_le (Nat.le_of_eq (next_store _ _ _).symm)
    · exact h.next_le

theorem updateAt (h : Fresh m m' s xs) (f : α → α) (is : List Nat) :
    Fresh m (m'.updateAt s f is) s (is.foldl (fun l i => l.modify i f) xs) := by
  induction is generalizing m' xs with
  | nil => exact h
  | cons i is ih =>
    refine ih ?_
    show Fresh m (((m'.read s)[i]?).elim m' fun a => m'.set s i (f a)) s (xs.modify i f)
    rw [h.read]
    cases hget : xs[i]? with
    | none =>
      rw [List.modify_eq_self (List.getElem?_eq_none_iff.mp hget)]
      exact h
    | some a =>
      obtain ⟨hlt, rfl⟩ := List.getElem?_eq_some_iff.mp hget
      rw [List.modify_eq_set_get f hlt]
      exact h.set i _

/-- The loop over a whole slice. -/
theorem updateAll (h : Fresh m m' s xs) (f : α → α) :
    Fresh m (m'.updateAt s f (List.range s.len)) s (xs.map f) := by
  have hlen : xs.length = s.len := h.read ▸ length_read h.holds
  have hfirst : ∀ n i : Nat, ((List.range n).foldl (fun l i => l.modify i f) xs)[i]? =
      if i < n then xs[i]?.map f else xs[i]? := by
    intro n i
    induction n with
    | zero => rfl
    | succ n ih =>
      rw [List.range_succ, List.foldl_concat, List.getElem?_modify, ih]
      by_cases hi : n = i
      · subst hi
        simp
      · have hiff : i < n + 1 ↔ i < n := by omega
        simp only [hi, if_false, hiff, id_map']
  have hmap : (List.range s.len).foldl (fun l i => l.modify i f) xs = xs.map f := by
    refine List.ext_getElem? fun i => ?_
    rw [hfirst, List.getElem?_map]
    split
    next => rfl
    next hge =>
      rw [List.getElem?_eq_none (hlen ▸ Nat.le_of_not_lt hge)]
      rfl
  exact hmap ▸ h.updateAt f (List.range s.len)

end Fresh

/-! ## Tags -/

section Tags

variable {τ : Type} {owner : Nat → τ} {x y z : τ}

/-- A slice that is held under a tag: its array belongs to the tag. -/
structure HeldBy (m : Arrays α) (owner : Nat → τ) (tag : τ) (s : SliceHeader) : Prop where
  holds : m.Holds s
  mine : s.cap = 0 ∨ owner s.addr = tag

/-- The owners, if every new array goes to one tag. -/
def adopt (m : Arrays α) (owner : Nat → τ) (tag : τ) (addr : Nat) : τ :=
  if addr < m.next then owner addr else tag

/-- The owners, if one tag gives everything that it has to another. -/
def transfer [DecidableEq τ] (owner : Nat → τ) (old new : τ) (addr : Nat) : τ :=
  if owner addr = old then new else owner addr

namespace HeldBy

theorem empty (m : Arrays α) (owner : Nat → τ) (tag : τ) : m.HeldBy owner tag .empty :=
  ⟨m.holds_empty, .inl rfl⟩

theorem apart (hs : m.HeldBy owner x s) (ht : m.HeldBy owner y t) (hne : x ≠ y) : Apart s t := by
  rcases hs.mine with hcap | hx
  · exact .inl hcap
  · rcases ht.mine with hcap | hy
    · exact .inr (.inl hcap)
    · exact .inr (.inr fun heq => hne (hx.symm.trans ((congrArg owner heq).trans hy)))

theorem clip (h : m.HeldBy owner x s) : m.HeldBy owner x s.clip := by
  refine ⟨h.holds.clip, h.mine.imp_left fun hcap => ?_⟩
  exact Nat.le_zero.mp (hcap ▸ s.len_le)

theorem keep (h : m.HeldBy owner y t) (hkeeps : m.Keeps m' t) : m'.HeldBy owner y t :=
  ⟨hkeeps.1, h.mine⟩

theorem adopt (h : m.HeldBy owner y t) (x : τ) : m.HeldBy (m.adopt owner x) y t := by
  refine ⟨h.holds, ?_⟩
  by_cases hcap : t.cap = 0
  · exact .inl hcap
  · exact .inr ((if_pos (h.holds.lt_next hcap)).trans (h.mine.resolve_left hcap))

/-- A new slice may go to any tag. -/
theorem fresh {xs : List α} (h : Fresh m m' s xs) (owner : Nat → τ) (x : τ) :
    m'.HeldBy (m.adopt owner x) x s :=
  ⟨h.holds, h.addr.imp_right fun hle => if_neg (Nat.not_lt_of_le hle)⟩

theorem append [Inhabited α] (h : m.HeldBy owner x s) (g : Growth) (xs : List α) :
    (m.append g s xs).1.HeldBy (m.adopt owner x) x (m.append g s xs).2 := by
  obtain ⟨hholds, _, haddr⟩ := append_self g h.holds xs
  refine ⟨hholds, ?_⟩
  rcases haddr with ⟨heq, hcap⟩ | hnew
  · rw [heq, hcap]
    exact (h.adopt x).mine
  · exact .inr (if_neg (Nat.not_lt_of_le hnew))

variable [DecidableEq τ]

theorem transfer_self (h : m.HeldBy owner x s) (z : τ) :
    m.HeldBy (Arrays.transfer owner x z) z s :=
  ⟨h.holds, h.mine.imp_right fun hx => if_pos hx⟩

theorem transfer_ne (h : m.HeldBy owner y t) (hne : y ≠ x) (z : τ) :
    m.HeldBy (Arrays.transfer owner x z) y t :=
  ⟨h.holds, h.mine.imp_right fun hy => (if_neg (hy ▸ hne)).trans hy⟩

end HeldBy

/-- What is done to arrays may be seen in the slices of some tags only. -/
def Moves (m : Arrays α) (owner : Nat → τ) (m' : Arrays α) (owner' : Nat → τ) (seen : τ → Prop) :
    Prop :=
  ∀ tag t, ¬ seen tag → m.HeldBy owner tag t → m'.HeldBy owner' tag t ∧ m'.read t = m.read t

namespace Moves

theorem fresh {xs : List α} (h : Fresh m m' s xs) (owner : Nat → τ) (x : τ) :
    m.Moves owner m' (m.adopt owner x) fun _ => False :=
  fun _ t _ ht => ⟨(ht.adopt x).keep (h.keeps t ht.holds), (h.keeps t ht.holds).2⟩

theorem append [Inhabited α] (h : m.HeldBy owner x s) (g : Growth) (xs : List α) :
    m.Moves owner (m.append g s xs).1 (m.adopt owner x) (· = x) := by
  intro tag t hne ht
  have hkeeps := Keeps.append g ht.holds (h.apart ht (Ne.symm hne)) xs
  exact ⟨(ht.adopt x).keep hkeeps, hkeeps.2⟩

theorem append_clip [Inhabited α] (s : SliceHeader) (g : Growth) (xs : List α) :
    m.Moves owner (m.append g s.clip xs).1 (m.adopt owner x) fun _ => False := by
  intro tag t _ ht
  have hkeeps := Keeps.append_clip g ht.holds s xs
  exact ⟨(ht.adopt x).keep hkeeps, hkeeps.2⟩

theorem set (h : m.HeldBy owner x s) (i : Nat) (a : α) :
    m.Moves owner (m.set s i a) owner (· = x) := by
  intro tag t hne ht
  have hkeeps := Keeps.set ht.holds (h.apart ht (Ne.symm hne)) i a
  exact ⟨ht.keep hkeeps, hkeeps.2⟩

theorem transfer [DecidableEq τ] (m : Arrays α) (owner : Nat → τ) (x z : τ) :
    m.Moves owner m (Arrays.transfer owner x z) (· = x) :=
  fun _ _ hne ht => ⟨ht.transfer_ne hne z, rfl⟩

end Moves

end Tags

end Arrays

end Zap.Data
