import Mathlib.Data.List.Nodup
import Zap.Data.Pool
import Zap.Data.Threads

/-!
# Ownership

How to reason about one thread at a time when threads share objects. Each thread has a resource, which
says what it owns; an operation is specified by the resource that it needs and the one that it
leaves. From the specifications of the operations follows a weakest precondition for programs. If
the operations keep an invariant between the resources of all threads and the shared state, each
interleaving keeps it, and each thread keeps its own precondition.

The invariant may rely on threads that have ended: what they own does not change any more.

For pools, a resource owns objects by reference: an object lies in the pool or has one owner.
-/

set_option autoImplicit false

namespace Zap.Data

/-! ## Preconditions of programs -/

/-- What an operation needs and leaves: the resources in which it may be asked for, such that the
answer and the resource left satisfy a predicate. -/
def OpSpec (Op : Type) (Res : Op → Type) (ρ : Type) : Type :=
  (o : Op) → ρ → (Res o → ρ → Prop) → Prop

namespace Prog

variable {Op : Type} {Res : Op → Type} {ρ α β : Type} (spec : OpSpec Op Res ρ)

/-- The resources from which a program returns within `post` and panics within `fail`. -/
def wp : Prog Op Res α → ρ → (α → ρ → Prop) → (ρ → Prop) → Prop
  | .ret a, r, post, _ => post a r
  | .panic, r, _, fail => fail r
  | .op o next, r, post, fail => spec o r fun x r' => wp (next x) r' post fail

variable {spec} {r : ρ} {fail : ρ → Prop}

theorem wp_bind (p : Prog Op Res α) (k : α → Prog Op Res β) (post : β → ρ → Prop) :
    (p.bind k).wp spec r post fail =
      p.wp spec r (fun a r' => (k a).wp spec r' post fail) fail := by
  induction p generalizing r with
  | ret a => rfl
  | panic => rfl
  | op o next ih => exact congrArg (spec o r) (funext fun x => funext fun r' => ih x)

theorem wp_defer (p : Prog Op Res α) (cleanup : Prog Op Res Unit) (post : α → ρ → Prop) :
    (p.defer cleanup).wp spec r post fail =
      p.wp spec r (fun a r' => cleanup.wp spec r' (fun _ r'' => post a r'') fail)
        (fun r' => cleanup.wp spec r' (fun _ r'' => fail r'') fail) := by
  induction p generalizing r with
  | ret a => exact wp_bind cleanup _ post
  | panic => exact wp_bind cleanup _ post
  | op o next ih => exact congrArg (spec o r) (funext fun x => funext fun r' => ih x)

end Prog

/-! ## Threads -/

section Threads

variable {σ χ Op : Type} {Res : Op → Type} {ρ α : Type}

/-- Threads that have ended. -/
def Threads.Ended (st : Threads σ Op Res α) (i : Nat) : Prop :=
  ∃ p, st.threads[i]? = some p ∧ p.ended = true

/-- The operations of a machine meet their specification and keep an invariant between resources
and state; `ended` are the threads that it may rely on. -/
structure Machine.Meets (m : Machine σ χ Op Res) (spec : OpSpec Op Res ρ)
    (inv : (Nat → Prop) → (Nat → ρ) → σ → Prop) : Prop where
  mono {ended ended' : Nat → Prop} {res : Nat → ρ} {s : σ} (hle : ∀ i, ended i → ended' i)
    (h : inv ended res s) : inv ended' res s
  exec {ended : Nat → Prop} {res : Nat → ρ} {s : σ} {i : Nat} {o : Op} {post : Res o → ρ → Prop}
    (c : χ) (hi : ¬ ended i) (h : inv ended res s) (hspec : spec o (res i) post) :
    ∃ r, post (m.exec c o s).1 r ∧ inv ended (Function.update res i r) (m.exec c o s).2

/-- Each thread has its precondition, the invariant holds, and no thread is before a silent
operation. -/
structure Threads.Holds (m : Machine σ χ Op Res) (spec : OpSpec Op Res ρ)
    (inv : (Nat → Prop) → (Nat → ρ) → σ → Prop) (post : Nat → α → ρ → Prop) (fail : Nat → ρ → Prop)
    (res : Nat → ρ) (st : Threads σ Op Res α) : Prop where
  inv : inv st.Ended res st.shared
  wp {i : Nat} {p : Prog Op Res α} (hi : st.threads[i]? = some p) :
    p.wp spec (res i) (post i) (fail i)
  settled {i : Nat} {o : Op} {next : Res o → Prog Op Res α}
    (hi : st.threads[i]? = some (.op o next)) : m.silent o = false

variable {m : Machine σ χ Op Res} {spec : OpSpec Op Res ρ}
  {inv inv' : (Nat → Prop) → (Nat → ρ) → σ → Prop} {post post' : Nat → α → ρ → Prop}
  {fail fail' : Nat → ρ → Prop} {res : Nat → ρ} {st st' : Threads σ Op Res α}

/-- After `settle` a program is not before a silent operation. -/
theorem Machine.settle_settled {c : χ} {p : Prog Op Res α} {s : σ} {o : Op}
    {next : Res o → Prog Op Res α} (h : (m.settle c p s).1 = .op o next) : m.silent o = false := by
  induction p generalizing s with
  | ret a => cases h
  | panic => cases h
  | op o' next' ih =>
    unfold settle at h
    split at h
    · exact ih _ h
    next hsilent =>
      cases h
      exact Bool.eq_false_iff.mpr hsilent

/-- Silent operations of a thread keep its precondition. -/
theorem Machine.Meets.settle (hm : m.Meets spec inv) {ended : Nat → Prop} {i : Nat} (c : χ)
    (hi : ¬ ended i) {Q : α → ρ → Prop} {E : ρ → Prop} {p : Prog Op Res α} {s : σ}
    (hinv : inv ended res s) (hp : p.wp spec (res i) Q E) :
    ∃ r, (m.settle c p s).1.wp spec r Q E ∧
      inv ended (Function.update res i r) (m.settle c p s).2 := by
  induction p generalizing res s with
  | ret a => exact ⟨res i, hp, by rwa [Function.update_eq_self]⟩
  | panic => exact ⟨res i, hp, by rwa [Function.update_eq_self]⟩
  | op o next ih =>
    unfold Machine.settle
    split
    · obtain ⟨r, hnext, hinv'⟩ := hm.exec c hi hinv hp
      obtain ⟨r', hp', hinv''⟩ := ih _ hinv' (by rwa [Function.update_self])
      exact ⟨r', hp', by rwa [Function.update_idem] at hinv''⟩
    · exact ⟨res i, hp, by rwa [Function.update_eq_self]⟩

theorem Threads.not_ended {i : Nat} {o : Op} {next : Res o → Prog Op Res α}
    (hi : st.threads[i]? = some (.op o next)) : ¬ st.Ended i := by
  rintro ⟨p, hp, hended⟩
  rw [hi] at hp
  cases hp
  cases hended

/-- A step of a thread changes its resource only. -/
theorem Threads.Holds.step (hm : m.Meets spec inv) (h : st.Holds m spec inv post fail res) {c : χ}
    {i : Nat} (hstep : m.step c i st = some st') :
    ∃ r, st'.Holds m spec inv post fail (Function.update res i r) := by
  obtain ⟨o, next, hi, rfl⟩ := Machine.step_set hstep
  have hnot : ¬ st.Ended i := not_ended hi
  obtain ⟨r₁, hnext, hinv₁⟩ := hm.exec c hnot h.inv (h.wp hi)
  obtain ⟨r₂, hp, hinv₂⟩ := hm.settle c hnot hinv₁ (by rwa [Function.update_self])
  rw [Function.update_idem] at hinv₂
  obtain ⟨hlt, -⟩ := List.getElem?_eq_some_iff.mp hi
  refine ⟨r₂, hm.mono ?_ hinv₂, ?_, ?_⟩
  · rintro j ⟨p, hj, hended⟩
    refine ⟨p, ?_, hended⟩
    rw [List.getElem?_set_ne (by rintro rfl; exact hnot ⟨p, hj, hended⟩)]
    exact hj
  · intro j p hj
    by_cases hji : j = i
    · subst hji
      rw [List.getElem?_set_self hlt] at hj
      cases hj
      rwa [Function.update_self]
    · rw [List.getElem?_set_ne (Ne.symm hji)] at hj
      rw [Function.update_of_ne hji]
      exact h.wp hj
  · intro j o' next' hj
    by_cases hji : j = i
    · subst hji
      rw [List.getElem?_set_self hlt] at hj
      exact Machine.settle_settled (Option.some.inj hj)
    · rw [List.getElem?_set_ne (Ne.symm hji)] at hj
      exact h.settled hj

/-- A new thread comes with a resource from which it can start, and with which the invariant holds.
What is asked of the others stays. -/
theorem Threads.Holds.spawn (hm : m.Meets spec inv) (h : st.Holds m spec inv' post fail res) {c : χ}
    {p : Prog Op Res α} {r : ρ}
    (hinv : inv st.Ended (Function.update res st.threads.length r) st.shared)
    (hold : ∀ i < st.threads.length, post' i = post i ∧ fail' i = fail i)
    (hp : p.wp spec r (post' st.threads.length) (fail' st.threads.length)) :
    ∃ r', (m.spawn c p st).Holds m spec inv post' fail'
      (Function.update res st.threads.length r') := by
  have hnot : ¬ st.Ended st.threads.length := by
    rintro ⟨p, hi, -⟩
    rw [List.getElem?_eq_none (Nat.le_refl _)] at hi
    cases hi
  obtain ⟨r', hp', hinv'⟩ := hm.settle c hnot hinv (by rwa [Function.update_self])
  rw [Function.update_idem] at hinv'
  refine ⟨r', hm.mono ?_ hinv', ?_, ?_⟩
  · rintro j ⟨p, hj, hended⟩
    obtain ⟨hlt, -⟩ := List.getElem?_eq_some_iff.mp hj
    exact ⟨p, by rwa [Machine.spawn, List.getElem?_append_left hlt], hended⟩
  · intro j q hj
    obtain hj | ⟨rfl, rfl⟩ := Machine.spawn_cases hj
    · obtain ⟨hlt, -⟩ := List.getElem?_eq_some_iff.mp hj
      rw [Function.update_of_ne (Nat.ne_of_lt hlt), (hold j hlt).1, (hold j hlt).2]
      exact h.wp hj
    · rwa [Function.update_self]
  · intro j o next hj
    obtain hj | ⟨rfl, hq⟩ := Machine.spawn_cases hj
    · exact h.settled hj
    · exact Machine.settle_settled hq.symm

end Threads

/-! ## Objects out of a pool -/

namespace Pool

variable {α : Type} {p : Pool α} {ready : α → Prop} {own : Nat → Nat → Option α} {i j r r' : Nat}
  {a : α}

/-- Each object lies in the pool, ready to be taken, or has one owner, who knows what it is. -/
structure Split (p : Pool α) (ready : α → Prop) (own : Nat → Nat → Option α) : Prop where
  nodup : p.free.Nodup
  free {r : Nat} (hr : r ∈ p.free) : r < p.next ∧ ready (p.object r) ∧ ∀ i, own i r = none
  owned {i r : Nat} {a : α} (h : own i r = some a) : r < p.next ∧ p.object r = a
  single {i j r : Nat} {a b : α} (hi : own i r = some a) (hj : own j r = some b) : i = j
  total {r : Nat} (hlt : r < p.next) (hr : r ∉ p.free) : ∃ i a, own i r = some a

/-- What owner `i` has at `r` changes. -/
def reown (own : Nat → Nat → Option α) (i r : Nat) (x : Option α) : Nat → Nat → Option α :=
  Function.update own i (Function.update (own i) r x)

theorem reown_self (x : Option α) : reown own i r x i r = x := by
  simp only [reown, Function.update_self]

theorem reown_reown (x y : Option α) : reown (reown own i r x) i r y = reown own i r y := by
  simp only [reown, Function.update_self, Function.update_idem]

theorem reown_ref (x : Option α) (hr : r' ≠ r) : reown own i r x j r' = own j r' := by
  by_cases hj : j = i
  · subst hj
    simp only [reown, Function.update_self, Function.update_of_ne hr]
  · simp only [reown, Function.update_of_ne hj]

theorem reown_owner (x : Option α) (hj : j ≠ i) : reown own i r x j r' = own j r' := by
  simp only [reown, Function.update_of_ne hj]

namespace Split

/-- There are no objects. -/
theorem empty (object : Nat → α) : Split ⟨0, object, []⟩ ready fun _ _ => none where
  nodup := List.nodup_nil
  free := fun hr => by cases hr
  owned := fun h => by cases h
  single := fun h => by cases h
  total := fun hlt => absurd hlt (Nat.not_lt_zero _)

theorem not_free (h : p.Split ready own) (hown : own i r = some a) : r ∉ p.free := by
  intro hr
  rw [(h.free hr).2.2 i] at hown
  cases hown

/-- An object that nobody owns and that is taken out of the pool, or is new, gets an owner. -/
theorem take {p' : Pool α} (h : p.Split ready own) (hown : ∀ j, own j r = none)
    (hnext : ∀ x, x < p'.next ↔ x < p.next ∨ x = r)
    (hfree : ∀ x, x ∈ p'.free ↔ x ∈ p.free ∧ x ≠ r) (hnodup : p'.free.Nodup)
    (hobject : ∀ x ≠ r, p'.object x = p.object x) :
    p'.Split ready (reown own i r (some (p'.object r))) := by
  constructor
  case nodup => exact hnodup
  case free =>
    intro x hx
    obtain ⟨hx, hne⟩ := (hfree x).mp hx
    obtain ⟨hlt, hready, hnone⟩ := h.free hx
    refine ⟨(hnext x).mpr (.inl hlt), by rwa [hobject x hne], fun j => ?_⟩
    rw [reown_ref _ hne]
    exact hnone j
  case owned =>
    intro j x a hj
    by_cases hx : x = r
    · subst hx
      by_cases hji : j = i
      · subst hji
        rw [reown_self] at hj
        exact ⟨(hnext x).mpr (.inr rfl), Option.some.inj hj⟩
      · rw [reown_owner _ hji, hown j] at hj
        cases hj
    · rw [reown_ref _ hx] at hj
      obtain ⟨hlt, hobj⟩ := h.owned hj
      exact ⟨(hnext x).mpr (.inl hlt), by rw [hobject x hx, hobj]⟩
  case single =>
    intro j k x a b hj hk
    by_cases hx : x = r
    · subst hx
      have honly : ∀ {l c}, reown own i x (some (p'.object x)) l x = some c → l = i := by
        intro l c hl
        by_contra hne
        rw [reown_owner _ hne, hown l] at hl
        cases hl
      rw [honly hj, honly hk]
    · rw [reown_ref _ hx] at hj hk
      exact h.single hj hk
  case total =>
    intro x hlt hx
    by_cases hxr : x = r
    · subst hxr
      exact ⟨i, _, reown_self _⟩
    · have hlt' : x < p.next := ((hnext x).mp hlt).resolve_right hxr
      have hx' : x ∉ p.free := fun hmem => hx ((hfree x).mpr ⟨hmem, hxr⟩)
      obtain ⟨j, a, hj⟩ := h.total hlt' hx'
      exact ⟨j, a, by rwa [reown_ref _ hxr]⟩

/-- A new object. -/
theorem alloc (h : p.Split ready own) (i : Nat) (a : α) :
    (∀ j, own j (p.alloc a).1 = none) ∧
      (p.alloc a).2.Split ready (reown own i (p.alloc a).1 (some a)) := by
  have hown : ∀ j, own j p.next = none := by
    intro j
    cases hj : own j p.next with
    | none => rfl
    | some b => exact absurd (h.owned hj).1 (Nat.lt_irrefl _)
  refine ⟨hown, ?_⟩
  have hself : (p.alloc a).2.object p.next = a := p.object_alloc_self a
  have htake : (p.alloc a).2.Split ready
      (reown own i p.next (some ((p.alloc a).2.object p.next))) := by
    refine h.take hown (fun x => Nat.lt_succ_iff_lt_or_eq) (fun x => ?_) h.nodup
      (fun x hx => p.object_alloc_of_ne a hx)
    exact ⟨fun hx => ⟨hx, Nat.ne_of_lt (h.free hx).1⟩, fun hx => hx.1⟩
  rwa [hself] at htake

/-- `get` gives an object that is ready and that nobody owns. -/
theorem get (h : p.Split ready own) (new : α) (hnew : ready new) (pick i : Nat) :
    (∀ j, own j (p.get pick new).1 = none) ∧
      ready ((p.get pick new).2.object (p.get pick new).1) ∧
      (p.get pick new).2.Split ready
        (reown own i (p.get pick new).1 (some ((p.get pick new).2.object (p.get pick new).1))) := by
  obtain ⟨r, hr, heq⟩ | heq := p.get_cases pick new
  · obtain ⟨hlt, hready, hown⟩ := h.free (List.mem_of_getElem? hr)
    rw [heq]
    refine ⟨hown, hready, h.take hown (fun x => ?_) (fun x => ?_) ?_ (fun _ _ => rfl)⟩
    · exact ⟨.inl, fun hx => hx.elim id (fun hx => hx ▸ hlt)⟩
    · obtain ⟨hpick, rfl⟩ := List.getElem?_eq_some_iff.mp hr
      rw [← h.nodup.erase_getElem pick hpick, h.nodup.mem_erase_iff, and_comm]
    · exact h.nodup.eraseIdx pick
  · obtain ⟨hown, hsplit⟩ := h.alloc i new
    rw [heq, object_alloc_self]
    exact ⟨hown, hnew, hsplit⟩

/-- Nobody else owns what `i` owns. -/
theorem only (h : p.Split ready own) (hown : own i r = some a) (hj : j ≠ i) : own j r = none := by
  cases hb : own j r with
  | none => rfl
  | some b => exact absurd (h.single hb hown) hj

/-- An object goes back to the pool. -/
theorem put (h : p.Split ready own) (hown : own i r = some a) (ha : ready a) :
    (p.put r).Split ready (reown own i r none) := by
  obtain ⟨hlt, hobj⟩ := h.owned hown
  have hnone : ∀ j, reown own i r none j r = none := by
    intro j
    by_cases hj : j = i
    · rw [hj, reown_self]
    · rw [reown_owner _ hj]
      exact h.only hown hj
  -- What somebody owns now is another object, which the same one owned before.
  have hother : ∀ {j x b}, reown own i r none j x = some b → x ≠ r ∧ own j x = some b := by
    intro j x b hj
    have hne : x ≠ r := by
      rintro rfl
      rw [hnone j] at hj
      cases hj
    exact ⟨hne, by rwa [reown_ref _ hne] at hj⟩
  constructor
  case nodup => exact List.nodup_cons.mpr ⟨h.not_free hown, h.nodup⟩
  case free =>
    intro x hx
    obtain rfl | hmem := List.mem_cons.mp hx
    · exact ⟨hlt, hobj ▸ ha, hnone⟩
    · obtain ⟨hxlt, hready, hx'⟩ := h.free hmem
      have hne : x ≠ r := by
        rintro rfl
        exact h.not_free hown hmem
      exact ⟨hxlt, hready, fun j => by rw [reown_ref _ hne]; exact hx' j⟩
  case owned => exact fun hj => h.owned (hother hj).2
  case single => exact fun hj hk => h.single (hother hj).2 (hother hk).2
  case total =>
    intro x hxlt hx
    obtain ⟨hne, hx⟩ := not_or.mp (fun hmem => hx (List.mem_cons.mpr hmem))
    obtain ⟨j, b, hj⟩ := h.total hxlt hx
    exact ⟨j, b, by rwa [reown_ref _ hne]⟩

/-- The owner of an object changes it. -/
theorem set (h : p.Split ready own) (hown : own i r = some a) (b : α) :
    (p.set r b).Split ready (reown own i r (some b)) := by
  obtain ⟨hlt, -⟩ := h.owned hown
  -- Who owns an object now owned it before.
  have hbefore : ∀ {j x c}, reown own i r (some b) j x = some c → ∃ c', own j x = some c' := by
    intro j x c hj
    by_cases hx : x = r
    · subst hx
      by_cases hji : j = i
      · exact ⟨a, hji ▸ hown⟩
      · rw [reown_owner _ hji] at hj
        exact ⟨c, hj⟩
    · rw [reown_ref _ hx] at hj
      exact ⟨c, hj⟩
  constructor
  case nodup => exact h.nodup
  case free =>
    intro x hx
    obtain ⟨hxlt, hready, hnone⟩ := h.free hx
    have hne : x ≠ r := by
      rintro rfl
      exact h.not_free hown hx
    refine ⟨hxlt, by rwa [object_set_of_ne p b hne], fun j => ?_⟩
    rw [reown_ref _ hne]
    exact hnone j
  case owned =>
    intro j x c hj
    obtain ⟨c', hc'⟩ := hbefore hj
    refine ⟨(h.owned hc').1, ?_⟩
    by_cases hx : x = r
    · subst hx
      rw [h.single hc' hown, reown_self] at hj
      rw [object_set_self]
      exact Option.some.inj hj
    · rw [reown_ref _ hx] at hj
      rw [object_set_of_ne p b hx]
      exact (h.owned hj).2
  case single =>
    intro j k x c d hj hk
    obtain ⟨c', hj⟩ := hbefore hj
    obtain ⟨d', hk⟩ := hbefore hk
    exact h.single hj hk
  case total =>
    intro x hxlt hx
    by_cases hxr : x = r
    · exact ⟨i, b, hxr ▸ reown_self _⟩
    · obtain ⟨j, c, hj⟩ := h.total hxlt hx
      exact ⟨j, c, by rwa [reown_ref _ hxr]⟩

end Split

end Pool

end Zap.Data
