import Zap.Laws.Denote

/-!
# What the in-memory encoder collects

A map of the encoder, read as a tree. References only point to maps that were made later, so that a
map can be read. `run_adds` says what a marshaler does to the trees: the map that the encoder is
writing to is assigned the parts of the transcript, one after another, and every other map that was
there stays as it is.
-/

set_option autoImplicit false

namespace Zap.Zapcore

open Data

/-! ## Trees -/

/-- A value with its maps in it. -/
inductive Tree where
  | scalar (s : Scalar)
  | binary (bs : Bytes)
  | reflected (v : Option Reflected)
  | slice (elems : List Tree)
  | nilSlice
  | map (members : List (Bytes × Tree))

mutual

/-- The references in a value. -/
def Value.refs : Value → List Nat
  | .slice vs => Value.refsAll vs
  | .map ref => [ref]
  | _ => []

def Value.refsAll : List Value → List Nat
  | [] => []
  | v :: vs => v.refs ++ Value.refsAll vs

end

mutual

/-- A value as a tree, where `deref` reads maps. -/
def Value.tree (deref : Nat → Tree) : Value → Tree
  | .scalar s => .scalar s
  | .binary bs => .binary bs
  | .reflected v => .reflected v
  | .slice vs => .slice (Value.trees deref vs)
  | .nilSlice => .nilSlice
  | .map ref => deref ref

def Value.trees (deref : Nat → Tree) : List Value → List Tree
  | [] => []
  | v :: vs => v.tree deref :: Value.trees deref vs

end

namespace Maps

/-- A map as a tree, up to a depth. -/
def read (h : Maps) : Nat → Nat → Tree
  | 0, _ => .reflected none
  | fuel + 1, ref => .map ((h.maps ref).map fun kv => (kv.1, kv.2.tree (read h fuel)))

/-- The entries of a map, up to a depth. -/
def entries (h : Maps) (fuel ref : Nat) : List (Bytes × Tree) :=
  (h.maps ref).map fun kv => (kv.1, kv.2.tree (h.read fuel))

/-- A map holds references to maps only that were made later. -/
def Wf (h : Maps) : Prop :=
  ∀ r < h.next, ∀ kv ∈ h.maps r, ∀ r' ∈ kv.2.refs, r < r' ∧ r' < h.next

/-- Maps stay, except for the one at `cur`. -/
structure Kept (h h' : Maps) (cur : Nat) : Prop where
  next : h.next ≤ h'.next
  maps : ∀ r < h.next, r ≠ cur → h'.maps r = h.maps r

end Maps

mutual

theorem Value.tree_congr {f g : Nat → Tree} (v : Value) (h : ∀ r ∈ v.refs, f r = g r) :
    v.tree f = v.tree g := by
  cases v with
  | slice vs => exact congrArg Tree.slice (Value.trees_congr vs h)
  | map ref => exact h ref (List.mem_singleton_self ref)
  | _ => rfl

theorem Value.trees_congr {f g : Nat → Tree} (vs : List Value)
    (h : ∀ r ∈ Value.refsAll vs, f r = g r) : Value.trees f vs = Value.trees g vs := by
  cases vs with
  | nil => rfl
  | cons v vs =>
    obtain ⟨hv, hvs⟩ := List.forall_mem_append.mp h
    simp only [Value.trees, Value.tree_congr v hv, Value.trees_congr vs hvs]

end

namespace Maps

variable {h h₁ h' : Maps} {cur : Nat}

/-- A part of the heap that is closed under references and stays is read as before. -/
theorem read_congr {P : Nat → Prop}
    (hP : ∀ r, P r → h'.maps r = h.maps r ∧ ∀ kv ∈ h.maps r, ∀ r' ∈ kv.2.refs, P r') (fuel : Nat)
    {r : Nat} (hr : P r) : h'.read fuel r = h.read fuel r := by
  induction fuel generalizing r with
  | zero => rfl
  | succ fuel ih =>
    obtain ⟨hsame, hclosed⟩ := hP r hr
    rw [read, read, hsame]
    refine congrArg Tree.map (List.map_congr_left fun kv hkv => ?_)
    rw [Value.tree_congr kv.2 fun r' hr' => ih (hclosed kv hkv r' hr')]

/-- A key of the map at `cur` was assigned. -/
theorem entries_assign (hwf : h.Wf) (hcur : cur < h.next) (hkept : Kept h h' cur) {k : Bytes}
    {v : Value} (hmaps : h'.maps cur = assign k v (h.maps cur)) (fuel : Nat) :
    h'.entries fuel cur = assign k (v.tree (h'.read fuel)) (h.entries fuel cur) := by
  have hold : (h.maps cur).map (fun kv => (kv.1, kv.2.tree (h'.read fuel))) =
      h.entries fuel cur := by
    refine List.map_congr_left fun kv hkv => ?_
    refine congrArg (Prod.mk kv.1) (Value.tree_congr kv.2 fun r hr => ?_)
    refine read_congr (P := fun r => cur < r ∧ r < h.next) (fun r hr => ?_) fuel
      (hwf cur hcur kv hkv r hr)
    refine ⟨hkept.maps r hr.2 (Nat.ne_of_gt hr.1), fun kv hkv r' hr' => ?_⟩
    obtain ⟨hlt, hnext⟩ := hwf r hr.2 kv hkv r' hr'
    exact ⟨Nat.lt_trans hr.1 hlt, hnext⟩
  rw [entries, hmaps, map_assign, hold]

theorem set_maps (h : Maps) (cur : Nat) (k : Bytes) (v : Value) :
    (h.set cur k v).maps cur = assign k v (h.maps cur) := by
  simp only [set, Function.update_self]

theorem set_kept (h : Maps) (cur : Nat) (k : Bytes) (v : Value) : Kept h (h.set cur k v) cur where
  next := Nat.le_refl _
  maps := fun _ _ hr => Function.update_of_ne hr _ _

theorem make_kept (h : Maps) (cur : Nat) : Kept h h.make.2 cur where
  next := Nat.le_succ _
  maps := fun _ hr _ => Function.update_of_ne (Nat.ne_of_lt hr) _ _

theorem Kept.trans {cur' : Nat} (hkept : Kept h h₁ cur) (hkept' : Kept h₁ h' cur')
    (hcur : cur' = cur ∨ h.next ≤ cur') : Kept h h' cur where
  next := hkept.next.trans hkept'.next
  maps := fun r hr hne => by
    have hne' : r ≠ cur' := by
      rcases hcur with rfl | hle
      · exact hne
      · exact Nat.ne_of_lt (Nat.lt_of_lt_of_le hr hle)
    rw [hkept'.maps r (Nat.lt_of_lt_of_le hr hkept.next) hne', hkept.maps r hr hne]

theorem Wf.set (hwf : h.Wf) {k : Bytes} {v : Value}
    (hv : ∀ r ∈ v.refs, cur < r ∧ r < h.next) : (h.set cur k v).Wf := by
  intro r hr kv hkv r' hr'
  by_cases hcur : r = cur
  · subst hcur
    rw [set_maps] at hkv
    rcases mem_assign hkv with rfl | hkv
    · exact hv r' hr'
    · exact hwf r hr kv hkv r' hr'
  · rw [(h.set_kept cur k v).maps r hr hcur] at hkv
    exact hwf r hr kv hkv r' hr'

theorem Wf.make (hwf : h.Wf) : h.make.2.Wf := by
  intro r hr kv hkv r' hr'
  by_cases hnew : r = h.next
  · subst hnew
    simp only [Maps.make, Function.update_self, List.not_mem_nil] at hkv
  · have hlt : r < h.next := Nat.lt_of_le_of_ne (Nat.lt_succ_iff.mp hr) hnew
    rw [(h.make_kept h.next).maps r hlt hnew] at hkv
    obtain ⟨hafter, hbound⟩ := hwf r hlt kv hkv r' hr'
    exact ⟨hafter, Nat.lt_succ_of_lt hbound⟩

/-- Maps stay as they are when nothing is done. -/
theorem Kept.refl (h : Maps) (cur : Nat) : h.Kept h cur := ⟨Nat.le_refl _, fun _ _ _ => rfl⟩

end Maps

/-! ## Parts of a transcript -/

/-- What is stored of a scalar, as a tree. -/
def Scalar.tree : Scalar → Tree
  | .prim (.byteString bs) => .scalar (.prim (.string bs))
  | s => .scalar s

theorem Scalar.stored_tree (s : Scalar) (deref : Nat → Tree) : s.stored.tree deref = s.tree := by
  cases s with
  | prim p => cases p <;> rfl
  | duration d => rfl
  | time t => rfl

theorem stored_refs (s : Scalar) : s.stored.refs = [] := by
  cases s with
  | prim p => cases p <;> rfl
  | duration d => rfl
  | time t => rfl

/-- A slice that was nil before its elements, as a tree. -/
def Tree.ofNil : List Tree → Tree
  | [] => .nilSlice
  | t :: ts => .slice (t :: ts)

theorem ofNil_tree (vs : List Value) (deref : Nat → Tree) :
    (MemoryEncoder.ofNil vs).tree deref = Tree.ofNil (Value.trees deref vs) := by
  cases vs <;> rfl

theorem ofNil_refs (vs : List Value) : (MemoryEncoder.ofNil vs).refs = Value.refsAll vs := by
  cases vs <;> rfl

/-- A part of an object or of an array. -/
abbrev Part : Interface → Type
  | .object => Bytes × Tree
  | .array => Tree

/-- The parts that a transcript adds. A namespace takes up everything that follows it. -/
def Transcript.parts : {i : Interface} → Transcript i → List (Part i)
  | _, .nil => []
  | _, .add key s rest => (key, s.tree) :: rest.parts
  | _, .addBinary key val rest => (key, .binary val) :: rest.parts
  | _, .addReflected key val rest => (key, .reflected val) :: rest.parts
  | _, .addArray key arr rest => (key, .slice arr.parts) :: rest.parts
  | _, .addObject key obj rest => (key, .map (assignAll [] obj.parts)) :: rest.parts
  | _, .openNamespace key rest => [(key, .map (assignAll [] rest.parts))]
  | _, .append s rest => s.tree :: rest.parts
  | _, .appendReflected val rest => .reflected val :: rest.parts
  | _, .appendArray arr rest => .ofNil arr.parts :: rest.parts
  | _, .appendObject obj rest => .map (assignAll [] obj.parts) :: rest.parts

/-! ## The encoder adds the parts -/

/-- Where an encoder writes to is there. -/
def MemoryEncoder.Stands : {i : Interface} → MemoryEncoder i → Maps → Prop
  | _, .object _ cur, h => cur < h.next
  | _, .array _, _ => True

/-- An encoder has added parts: to the map that it was writing to, or to its elements. Values are
read with a depth that is enough for them. -/
def Adds : {i : Interface} → MemoryEncoder i → Maps → MemoryEncoder i → Maps → List (Part i) → Prop
  | _, .object fields cur, h, .object fields' _, h', parts =>
    fields' = fields ∧ h'.Wf ∧ h.Kept h' cur ∧
      ∀ fuel, h'.next ≤ fuel + cur + 1 →
        h'.entries fuel cur = assignAll (h.entries fuel cur) parts
  | _, .array elems, h, .array elems', h', parts =>
    ∃ new, elems' = elems ++ new ∧ h'.Wf ∧ h.Kept h' h.next ∧
      (∀ r ∈ Value.refsAll new, h.next ≤ r ∧ r < h'.next) ∧
      ∀ fuel, h'.next ≤ fuel + h.next → Value.trees (h'.read fuel) new = parts

section

variable {h h₁ h' : Maps}

/-- A member, and what follows. -/
theorem Adds.member {fields cur : Nat} {enc' : MemoryEncoder .object} (hwf : h.Wf)
    (hcur : cur < h.next) {key : Bytes} {v : Value} {t : Tree} {ps : List (Bytes × Tree)}
    (hkept : h.Kept h₁ cur) (hmaps : h₁.maps cur = assign key v (h.maps cur))
    (hv : ∀ fuel, h₁.next ≤ fuel + cur + 1 → v.tree (h₁.read fuel) = t)
    (hrest : Adds (.object fields cur) h₁ enc' h' ps) :
    Adds (.object fields cur) h enc' h' ((key, t) :: ps) := by
  cases enc' with
  | object fields' cur' =>
    obtain ⟨hfields, hwf', hkept', hentries⟩ := hrest
    refine ⟨hfields, hwf', hkept.trans hkept' (.inl rfl), fun fuel hfuel => ?_⟩
    have hfuel₁ : h₁.next ≤ fuel + cur + 1 := hkept'.next.trans hfuel
    rw [hentries fuel hfuel, Maps.entries_assign hwf hcur hkept hmaps, hv fuel hfuel₁]
    rfl

/-- An element, and what follows. -/
theorem Adds.elem {elems : List Value} {enc' : MemoryEncoder .array} {v : Value} {t : Tree}
    {ps : List Tree} (hwf : h₁.Wf) (hkept : h.Kept h₁ h.next)
    (hrefs : ∀ r ∈ v.refs, h.next ≤ r ∧ r < h₁.next)
    (hv : ∀ fuel, h₁.next ≤ fuel + h.next → v.tree (h₁.read fuel) = t)
    (hrest : Adds (.array (elems ++ [v])) h₁ enc' h' ps) :
    Adds (.array elems) h enc' h' (t :: ps) := by
  cases enc' with
  | array elems' =>
    obtain ⟨new, rfl, hwf', hkept', hnew, htrees⟩ := hrest
    refine ⟨v :: new, by rw [List.append_assoc]; rfl, hwf',
      hkept.trans hkept' (.inr hkept.next), ?_, fun fuel hfuel => ?_⟩
    · refine List.forall_mem_append.mpr ⟨fun r hr => ?_, fun r hr => ?_⟩
      · exact ⟨(hrefs r hr).1, Nat.lt_of_lt_of_le (hrefs r hr).2 hkept'.next⟩
      · exact ⟨hkept.next.trans (hnew r hr).1, (hnew r hr).2⟩
    · have hsame : v.tree (h'.read fuel) = v.tree (h₁.read fuel) := by
        refine Value.tree_congr v fun r hr => ?_
        -- What the element refers to was there before what follows, and stays.
        refine Maps.read_congr (P := fun r => r < h₁.next) (fun r hr => ?_) fuel (hrefs r hr).2
        exact ⟨hkept'.maps r hr (Nat.ne_of_lt hr), fun kv hkv r' hr' => (hwf r hr kv hkv r' hr').2⟩
      have hnext := hkept.next
      have hnext' := hkept'.next
      simp only [Value.trees, hsame, hv fuel (by omega), htrees fuel (by omega)]

/-- A map that was made and filled, read as a tree. -/
theorem Adds.map_tree {fields ref : Nat} {enc' : MemoryEncoder .object} {ps : List (Bytes × Tree)}
    (hadds : Adds (.object fields ref) h₁ enc' h' ps) (hempty : h₁.maps ref = [])
    (href : ref < h'.next) {fuel : Nat} (hfuel : h'.next ≤ fuel + ref) :
    (Value.map ref).tree (h'.read fuel) = .map (assignAll [] ps) := by
  cases enc' with
  | object fields' cur' =>
    obtain ⟨_, _, _, hentries⟩ := hadds
    obtain ⟨fuel, rfl⟩ : ∃ n, fuel = n + 1 := ⟨fuel - 1, by omega⟩
    have hread := hentries fuel (by omega)
    simp only [Maps.entries, hempty, List.map_nil] at hread
    simp only [Value.tree, Maps.read, hread]

/-- A new map was made and put in its place under a key of the map at `cur`. -/
theorem placed_map (hwf : h.Wf) {cur : Nat} (hcur : cur < h.next) (key : Bytes) :
    let placed := h.make.2.set cur key (.map h.next)
    placed.Wf ∧ h.Kept placed cur ∧ placed.maps cur = assign key (.map h.next) (h.maps cur) ∧
      placed.maps h.next = [] ∧ placed.next = h.next + 1 := by
  intro placed
  have hne : h.next ≠ cur := Nat.ne_of_gt hcur
  have hkept := (h.make_kept cur).trans (h.make.2.set_kept cur key (.map h.next)) (.inl rfl)
  refine ⟨hwf.make.set fun r hr => ?_, hkept, ?_, ?_, rfl⟩
  · rw [List.mem_singleton.mp hr]
    exact ⟨hcur, Nat.lt_succ_self _⟩
  · have hold : h.make.2.maps cur = h.maps cur := Function.update_of_ne hne.symm _ _
    rw [Maps.set_maps, hold]
  · rw [(h.make.2.set_kept cur key _).maps h.next (Nat.lt_succ_self _) hne]
    exact Function.update_self _ _ _

/-- The new map was filled. -/
theorem filled_map (hwf : h.Wf) {fields cur : Nat} (hcur : cur < h.next) {key : Bytes}
    {enc' : MemoryEncoder .object} {ps : List (Bytes × Tree)}
    (hadds : Adds (.object fields h.next) (h.make.2.set cur key (.map h.next)) enc' h' ps) :
    h'.Wf ∧ h.Kept h' cur ∧ h'.maps cur = assign key (.map h.next) (h.maps cur) ∧
      ∀ fuel, h'.next ≤ fuel + cur + 1 →
        (Value.map h.next).tree (h'.read fuel) = .map (assignAll [] ps) := by
  obtain ⟨_, hkept, hmaps, hempty, hsize⟩ := placed_map hwf hcur key
  cases enc' with
  | object fields' cur' =>
    obtain ⟨_, hwf', hkept', _⟩ := id hadds
    have hnext := hkept'.next
    refine ⟨hwf', hkept.trans hkept' (.inr (Nat.le_refl _)), ?_, fun fuel hfuel => ?_⟩
    · rw [hkept'.maps cur (by omega) (Nat.ne_of_lt hcur), hmaps]
    · exact hadds.map_tree hempty (by omega) (by omega)

/-- A slice of new elements is assigned to a key of the map at `cur`. -/
theorem placed_slice {cur : Nat} (hcur : cur < h.next) {arr' : MemoryEncoder .array}
    {ps : List Tree} (hadds : Adds (.array []) h arr' h₁ ps) (key : Bytes) :
    let placed := h₁.set cur key (.slice arr'.elems)
    placed.Wf ∧ h.Kept placed cur ∧ placed.maps cur = assign key (.slice arr'.elems) (h.maps cur) ∧
      ∀ fuel, placed.next ≤ fuel + cur + 1 →
        (Value.slice arr'.elems).tree (placed.read fuel) = .slice ps := by
  intro placed
  cases arr' with
  | array elems =>
    obtain ⟨_, rfl, hwf, hkept, hrefs, htrees⟩ := hadds
    have hkept' : h.Kept h₁ cur := ⟨hkept.next, fun r hr _ => hkept.maps r hr (Nat.ne_of_lt hr)⟩
    refine ⟨hwf.set fun r hr => ?_, hkept'.trans (h₁.set_kept cur key _) (.inl rfl), ?_,
      fun fuel hfuel => ?_⟩
    · exact ⟨Nat.lt_of_lt_of_le hcur (hrefs r hr).1, (hrefs r hr).2⟩
    · rw [Maps.set_maps, hkept.maps cur hcur (Nat.ne_of_lt hcur)]
    · have hsame : Value.trees (placed.read fuel) elems = Value.trees (h₁.read fuel) elems := by
        refine Value.trees_congr elems fun r hr => ?_
        -- The new elements refer to maps behind `cur`, where nothing was assigned.
        refine Maps.read_congr (P := fun r => cur < r ∧ r < h₁.next) (fun r hr => ?_) fuel
          ⟨Nat.lt_of_lt_of_le hcur (hrefs r hr).1, (hrefs r hr).2⟩
        refine ⟨(h₁.set_kept cur key _).maps r hr.2 (Nat.ne_of_gt hr.1), fun kv hkv r' hr' => ?_⟩
        obtain ⟨hlt, hnext⟩ := hwf r hr.2 kv hkv r' hr'
        exact ⟨Nat.lt_trans hr.1 hlt, hnext⟩
      have hfuel' : h₁.next ≤ fuel + h.next := Nat.le_trans hfuel (by omega)
      simp only [MemoryEncoder.elems, Value.tree, hsame, htrees fuel hfuel']

/-! ## Runs -/

/-- A run of a marshaler that makes the calls `c` adds their parts. -/
def Grows {i : Interface} (m : Marshaler i) : Prop :=
  ∀ {c : Transcript i} {err : Option Bytes}, m.transcript (fun _ => none) = some (c, err) →
    ∀ {enc : MemoryEncoder i} {h : Maps}, h.Wf → enc.Stands h →
      ∃ enc' h', MemoryEncoder.run m enc h = some (enc', h', err) ∧ Adds enc h enc' h' c.parts

/-- Going on after a member. -/
theorem Grows.member {next : ObjectMarshaler} (ih : Grows next) {key : Bytes} {v : Value} {t : Tree}
    {c : Transcript .object} {err : Option Bytes}
    (hc : next.transcript (fun _ => none) = some (c, err)) {fields cur : Nat} (hwf : h.Wf)
    (hcur : cur < h.next) (hwf₁ : h₁.Wf) (hkept : h.Kept h₁ cur)
    (hmaps : h₁.maps cur = assign key v (h.maps cur))
    (hv : ∀ fuel, h₁.next ≤ fuel + cur + 1 → v.tree (h₁.read fuel) = t) :
    ∃ enc' h', MemoryEncoder.run next (.object fields cur) h₁ = some (enc', h', err) ∧
      Adds (.object fields cur) h enc' h' ((key, t) :: c.parts) := by
  have hstands : (MemoryEncoder.object fields cur).Stands h₁ := Nat.lt_of_lt_of_le hcur hkept.next
  obtain ⟨enc', h', hrun, hadds⟩ := ih hc hwf₁ hstands
  exact ⟨enc', h', hrun, hadds.member hwf hcur hkept hmaps hv⟩

/-- Going on after a value without references was assigned. -/
theorem Grows.leaf {next : ObjectMarshaler} (ih : Grows next) {key : Bytes} {v : Value}
    (hrefs : v.refs = []) {t : Tree} (hv : ∀ deref, v.tree deref = t) {c : Transcript .object}
    {err : Option Bytes} (hc : next.transcript (fun _ => none) = some (c, err)) {fields cur : Nat}
    (hwf : h.Wf) (hcur : cur < h.next) :
    ∃ enc' h', MemoryEncoder.run next (.object fields cur) (h.set cur key v) =
        some (enc', h', err) ∧
      Adds (.object fields cur) h enc' h' ((key, t) :: c.parts) := by
  have hwf₁ : (h.set cur key v).Wf := hwf.set fun r hr => by
    rw [hrefs] at hr
    cases hr
  exact ih.member hc hwf hcur hwf₁ (h.set_kept cur key v) (h.set_maps cur key v) fun _ _ => hv _

/-- Going on after an element. -/
theorem Grows.elem {next : ArrayMarshaler} (ih : Grows next) {v : Value} {t : Tree}
    {c : Transcript .array} {err : Option Bytes}
    (hc : next.transcript (fun _ => none) = some (c, err)) {elems : List Value} (hwf : h₁.Wf)
    (hkept : h.Kept h₁ h.next) (hrefs : ∀ r ∈ v.refs, h.next ≤ r ∧ r < h₁.next)
    (hv : ∀ fuel, h₁.next ≤ fuel + h.next → v.tree (h₁.read fuel) = t) :
    ∃ enc' h', MemoryEncoder.run next (.array (elems ++ [v])) h₁ = some (enc', h', err) ∧
      Adds (.array elems) h enc' h' (t :: c.parts) := by
  have hstands : (MemoryEncoder.array (elems ++ [v])).Stands h₁ := trivial
  obtain ⟨enc', h', hrun, hadds⟩ := ih hc hwf hstands
  exact ⟨enc', h', hrun, hadds.elem hwf hkept hrefs hv⟩

section

variable {next : Option Bytes → ObjectMarshaler} (ih : ∀ err, Grows (next err))
include ih

/-- An array under a key. -/
theorem Grows.addArray {arr : ArrayMarshaler} (iharr : Grows arr) (key : Bytes) :
    Grows (.addArray key arr next) := by
  intro c err hc enc h hwf hstands
  obtain ⟨⟨inner, e⟩, harr, hrest⟩ := Option.bind_eq_some_iff.mp hc
  obtain ⟨⟨rest, e'⟩, hnext, hans⟩ := Option.map_eq_some_iff.mp hrest
  cases hans
  cases enc with
  | object fields cur =>
    have hstart : (MemoryEncoder.array []).Stands h := trivial
    obtain ⟨arr', h₁, hrun, hadds⟩ := iharr harr hwf hstart
    obtain ⟨hwf₁, hkept, hmaps, hv⟩ := placed_slice hstands hadds key
    simp only [MemoryEncoder.run, hrun, Option.bind_eq_bind, Option.bind_some]
    exact Grows.member (ih e) hnext hwf hstands hwf₁ hkept hmaps hv

/-- An object under a key. -/
theorem Grows.addObject {obj : ObjectMarshaler} (ihobj : Grows obj) (key : Bytes) :
    Grows (.addObject key obj next) := by
  intro c err hc enc h hwf hstands
  obtain ⟨⟨inner, e⟩, hobj, hrest⟩ := Option.bind_eq_some_iff.mp hc
  obtain ⟨⟨rest, e'⟩, hnext, hans⟩ := Option.map_eq_some_iff.mp hrest
  cases hans
  cases enc with
  | object fields cur =>
    have hstart : (MemoryEncoder.object h.next h.next).Stands
        (h.make.2.set cur key (.map h.next)) := Nat.lt_succ_self _
    obtain ⟨obj', h₁, hrun, hadds⟩ := ihobj hobj (placed_map hwf hstands key).1 hstart
    obtain ⟨hwf₁, hkept, hmaps, hv⟩ := filled_map hwf hstands hadds
    rw [MemoryEncoder.run_addObject, hrun, Option.bind_some]
    exact Grows.member (ih e) hnext hwf hstands hwf₁ hkept hmaps hv

end

/-- A namespace: what follows goes into a new map. -/
theorem Grows.openNamespace {next : ObjectMarshaler} (ih : Grows next) (key : Bytes) :
    Grows (.openNamespace key next) := by
  intro c err hc enc h hwf hstands
  obtain ⟨⟨rest, e⟩, hnext, hans⟩ := Option.map_eq_some_iff.mp hc
  cases hans
  cases enc with
  | object fields cur =>
    have hstart : (MemoryEncoder.object fields h.next).Stands
        (h.make.2.set cur key (.map h.next)) := Nat.lt_succ_self _
    obtain ⟨enc', h', hrun, hadds⟩ := ih hnext (placed_map hwf hstands key).1 hstart
    obtain ⟨hwf', hkept, hmaps, hv⟩ := filled_map hwf hstands hadds
    refine ⟨enc', h', hrun, ?_⟩
    cases enc' with
    | object fields' cur' =>
      refine ⟨hadds.1, hwf', hkept, fun fuel hfuel => ?_⟩
      rw [Maps.entries_assign hwf hstands hkept hmaps, hv fuel hfuel]
      rfl

section

variable {next : Option Bytes → ArrayMarshaler} (ih : ∀ err, Grows (next err))
include ih

/-- An array inside an array. -/
theorem Grows.appendArray {arr : ArrayMarshaler} (iharr : Grows arr) :
    Grows (.appendArray arr next) := by
  intro c err hc enc h hwf _
  obtain ⟨⟨inner, e⟩, harr, hrest⟩ := Option.bind_eq_some_iff.mp hc
  obtain ⟨⟨rest, e'⟩, hnext, hans⟩ := Option.map_eq_some_iff.mp hrest
  cases hans
  cases enc with
  | array elems =>
    have hstart : (MemoryEncoder.array []).Stands h := trivial
    obtain ⟨arr', h₁, hrun, hadds⟩ := iharr harr hwf hstart
    simp only [MemoryEncoder.run, hrun, Option.bind_eq_bind, Option.bind_some]
    cases arr' with
    | array inner' =>
      obtain ⟨_, rfl, hwf₁, hkept, hrefs, htrees⟩ := hadds
      refine Grows.elem (ih e) hnext hwf₁ hkept (fun r hr => ?_) fun fuel hfuel => ?_
      · exact hrefs r (ofNil_refs _ ▸ hr)
      · rw [MemoryEncoder.elems, ofNil_tree, htrees fuel hfuel]

/-- An object inside an array. -/
theorem Grows.appendObject {obj : ObjectMarshaler} (ihobj : Grows obj) :
    Grows (.appendObject obj next) := by
  intro c err hc enc h hwf _
  obtain ⟨⟨inner, e⟩, hobj, hrest⟩ := Option.bind_eq_some_iff.mp hc
  obtain ⟨⟨rest, e'⟩, hnext, hans⟩ := Option.map_eq_some_iff.mp hrest
  cases hans
  cases enc with
  | array elems =>
    have hstart : (MemoryEncoder.object h.next h.next).Stands h.make.2 := Nat.lt_succ_self _
    obtain ⟨obj', h₁, hrun, hadds⟩ := ihobj hobj hwf.make hstart
    have hempty : h.make.2.maps h.next = [] := Function.update_self _ _ _
    cases obj' with
    | object fields' cur' =>
      obtain ⟨rfl, hwf₁, hkept, _⟩ := id hadds
      have hnew : h.next < h₁.next := hkept.next
      rw [MemoryEncoder.run_appendObject, hrun, Option.bind_some]
      refine Grows.elem (ih e) hnext hwf₁ ((h.make_kept h.next).trans hkept (.inl rfl))
        (fun r hr => ?_) fun fuel hfuel => hadds.map_tree hempty hnew hfuel
      rw [List.mem_singleton.mp hr]
      exact ⟨Nat.le_refl _, hnew⟩

end

/-- The in-memory encoder adds the parts of every transcript. -/
theorem run_adds {i : Interface} (m : Marshaler i) : Grows m := by
  induction m with
  | done e =>
    intro c err hc enc h hwf _
    cases hc
    refine ⟨enc, h, rfl, ?_⟩
    cases enc with
    | object fields cur => exact ⟨rfl, hwf, .refl h cur, fun _ _ => rfl⟩
    | array elems =>
      exact ⟨[], (List.append_nil _).symm, hwf, .refl h _,
        fun _ hr => absurd hr List.not_mem_nil, fun _ _ => rfl⟩
  | panic => intro c err hc; cases hc
  | add key s next ih =>
    intro c err hc enc h hwf hstands
    obtain ⟨⟨rest, e⟩, hnext, hans⟩ := Option.map_eq_some_iff.mp hc
    cases hans
    cases enc with
    | object fields cur => exact ih.leaf (stored_refs s) s.stored_tree hnext hwf hstands
  | addBinary key val next ih =>
    intro c err hc enc h hwf hstands
    obtain ⟨⟨rest, e⟩, hnext, hans⟩ := Option.map_eq_some_iff.mp hc
    cases hans
    cases enc with
    | object fields cur => exact ih.leaf rfl (fun _ => rfl) hnext hwf hstands
  | addReflected key v next ih =>
    intro c err hc enc h hwf hstands
    obtain ⟨⟨rest, e⟩, hnext, hans⟩ := Option.map_eq_some_iff.mp hc
    cases hans
    cases enc with
    | object fields cur => exact Grows.leaf (ih none) rfl (fun _ => rfl) hnext hwf hstands
  | addArray key arr next iharr ih => exact Grows.addArray ih iharr key
  | addObject key obj next ihobj ih => exact Grows.addObject ih ihobj key
  | openNamespace key next ih => exact Grows.openNamespace ih key
  | append s next ih =>
    intro c err hc enc h hwf _
    obtain ⟨⟨rest, e⟩, hnext, hans⟩ := Option.map_eq_some_iff.mp hc
    cases hans
    cases enc with
    | array elems =>
      refine ih.elem hnext hwf (.refl h _) (fun r hr => ?_) fun _ _ => s.stored_tree _
      rw [stored_refs] at hr
      cases hr
  | appendReflected v next ih =>
    intro c err hc enc h hwf _
    obtain ⟨⟨rest, e⟩, hnext, hans⟩ := Option.map_eq_some_iff.mp hc
    cases hans
    cases enc with
    | array elems =>
      exact Grows.elem (ih none) hnext hwf (.refl h _) (fun r hr => by cases hr) fun _ _ => rfl
  | appendArray arr next iharr ih => exact Grows.appendArray ih iharr
  | appendObject obj next ihobj ih => exact Grows.appendObject ih ihobj

end

end Zap.Zapcore
