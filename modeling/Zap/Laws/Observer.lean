import Mathlib.Data.List.InsertIdx
import Zap.Data.History
import Zap.Zaptest.Observer

/-!
# Observed logs are values

What a user of `zaptest/observer` may think of: every log, context and result is a list, and an
operation changes the one list that it is about. `Observed` is that machine, without memory. The
slices behind it refine it (`observers_refine`): no array that somebody writes to can be seen through
a slice that is not meant. So a result stays as it was when it was returned, whatever is logged,
taken or filtered later; cores derived from one core do not see each other's fields; and callers may
use their slices of fields again. All this is under one condition, which is in `Op`: the contexts of
entries are shared, and nobody writes to their elements.

On that machine nothing is lost and nothing is seen twice by those who take (`observers_conserve`).
-/

set_option autoImplicit false

namespace Zap.Zaptest

open Data Zapcore

/-! ## The machine of lists -/

structure ObservedCore (F : Type) where
  level : LevelEnabler
  logs : Nat
  context : List F

structure Observed (F : Type) where
  observed : List (List (Entry × List F))
  callers : List (List F)
  cores : List (ObservedCore F)
  writes : List (Nat × Entry × List F)
  results : List (List (Entry × List F))

/-- The entries that a filter keeps, or its panic. -/
def keptBy {F : Type} (keep : Entry × List F → Option Bool) :
    List (Entry × List F) → Option (List (Entry × List F))
  | [] => some []
  | e :: es => do
    if ← keep e then (keptBy keep es).map (e :: ·) else keptBy keep es

/-- The entry without its time. -/
def untimed {F : Type} (e : Entry × List F) : Entry × List F :=
  ({ e.1 with time := zeroTime }, e.2)

namespace Observed

variable {F : Type}

def start : Observed F := ⟨[], [], [], [], []⟩

def entryOf (a : Observed F) (result i : Nat) : Option (Entry × List F) :=
  a.results[result]?.bind fun l => l[i]?

def step (a : Observed F) : Op F → Observed F
  | .make fields => { a with callers := a.callers ++ [fields] }
  | .set caller i field =>
    match a.callers[caller]? with
    | some l => { a with callers := a.callers.set caller (l.set i field) }
    | none => a
  | .new level =>
    { a with
      observed := a.observed ++ [[]]
      cores := a.cores ++ [⟨level, a.observed.length, []⟩] }
  | .withFields core caller =>
    match a.cores[core]?, a.callers[caller]? with
    | some co, some fields =>
      { a with cores := a.cores ++ [{ co with context := co.context ++ fields }] }
    | _, _ => a
  | .write core ent caller =>
    match a.cores[core]?, a.callers[caller]? with
    | some co, some fields =>
      if co.level.enabled ent.level then
        { a with writes := a.writes ++ [(co.logs, ent, co.context ++ fields)] }
      else a
    | _, _ => a
  | .add write =>
    match a.writes[write]? with
    | some (o, log) =>
      match a.observed[o]? with
      | some logs =>
        { a with
          observed := a.observed.set o (logs ++ [log])
          writes := a.writes.eraseIdx write }
      | none => a
    | none => a
  | .all o =>
    match a.observed[o]? with
    | some logs => { a with results := a.results ++ [logs] }
    | none => a
  | .takeAll o =>
    match a.observed[o]? with
    | some logs => { a with results := a.results ++ [logs], observed := a.observed.set o [] }
    | none => a
  | .allUntimed o =>
    match a.observed[o]? with
    | some logs => { a with results := a.results ++ [logs.map untimed] }
    | none => a
  | .filter o keep =>
    match a.observed[o]? with
    | some logs =>
      match keptBy keep logs with
      | some kept => { a with observed := a.observed ++ [kept] }
      | none => a
    | none => a
  | .put result i source j =>
    match a.results[result]?, a.entryOf source j with
    | some l, some e => { a with results := a.results.set result (l.set i e) }
    | _, _ => a
  | .extend result source j =>
    match a.results[result]?, a.entryOf source j with
    | some l, some e => { a with results := a.results.set result (l ++ [e]) }
    | _, _ => a

/-- The logs after an operation that is not about them, or adds other logs. -/
theorem step_observed {a : Observed F} {o : Nat} {l : List (Entry × List F)}
    (ho : a.observed[o]? = some l) (op : Op F) (hadd : ∀ write, op ≠ .add write)
    (htake : op ≠ .takeAll o) : (a.step op).observed[o]? = some l := by
  have happend : ∀ l' : List (Entry × List F), (a.observed ++ [l'])[o]? = some l := by
    intro l'
    obtain ⟨hlt, _⟩ := List.getElem?_eq_some_iff.mp ho
    rw [List.getElem?_append_left hlt, ho]
  cases op with
  | make fields => exact ho
  | set caller i field =>
    rw [step]
    split <;> exact ho
  | new level => exact happend []
  | withFields core caller =>
    rw [step]
    split <;> exact ho
  | write core ent caller =>
    rw [step]
    split
    · split <;> exact ho
    · exact ho
  | add write => exact absurd rfl (hadd write)
  | all p =>
    rw [step]
    split <;> exact ho
  | takeAll p =>
    rw [step]
    split
    · rw [List.getElem?_set_ne fun heq => htake (congrArg Op.takeAll heq)]
      exact ho
    · exact ho
  | allUntimed p =>
    rw [step]
    split <;> exact ho
  | filter p keep =>
    rw [step]
    split
    · split
      · exact happend _
      · exact ho
    · exact ho
  | put result i source j =>
    rw [step]
    split <;> exact ho
  | extend result source j =>
    rw [step]
    split <;> exact ho

end Observed

/-! ## What the methods build -/

section Methods

variable {F : Type} (g : Growth) {m : Arrays LoggedEntry} {logs : SliceHeader}

theorem ObservedLogs.all_fresh (h : m.Holds logs) :
    m.Fresh (all m logs).1 (all m logs).2 (m.read logs) := by
  have hmake := Arrays.Fresh.makeLen m logs.len
  rw [all, (hmake.keeps logs h).2]
  exact hmake.copy (Arrays.length_read h)

theorem ObservedLogs.allUntimed_fresh (h : m.Holds logs) :
    m.Fresh (allUntimed m logs).1 (allUntimed m logs).2
      ((m.read logs).map LoggedEntry.untimed) :=
  (all_fresh h).updateAll LoggedEntry.untimed

/-- The loop of `Filter` panics, or adds what is kept. -/
theorem ObservedLogs.filterLoop_cases (fields : Arrays F) (keep : Entry × List F → Option Bool)
    (es : List LoggedEntry) {r : Arrays LoggedEntry × SliceHeader} {done : List LoggedEntry}
    (h : m.Fresh r.1 r.2 done) :
    filterLoop g fields keep es r = none ∧
        keptBy keep (es.map (LoggedEntry.value fields)) = none ∨
      ∃ r' kept, filterLoop g fields keep es r = some r' ∧ m.Fresh r'.1 r'.2 (done ++ kept) ∧
        (∀ e ∈ kept, e ∈ es) ∧
        keptBy keep (es.map (LoggedEntry.value fields)) =
          some (kept.map (LoggedEntry.value fields)) := by
  induction es generalizing r done with
  | nil => exact .inr ⟨r, [], rfl, by rw [List.append_nil]; exact h, List.forall_mem_nil _, rfl⟩
  | cons e es ih =>
    rw [filterLoop, List.map_cons, keptBy]
    cases hkeep : keep (e.value fields) with
    | none => exact .inl ⟨rfl, rfl⟩
    | some b =>
      cases b with
      | false =>
        rcases ih h with ⟨hloop, hkept⟩ | ⟨r', kept, hloop, hfresh, hmem, hkept⟩
        · exact .inl ⟨hloop, hkept⟩
        · exact .inr ⟨r', kept, hloop, hfresh, fun e he => .tail _ (hmem e he), hkept⟩
      | true =>
        rcases ih (h.append g [e]) with ⟨hloop, hkept⟩ | ⟨r', kept, hloop, hfresh, hmem, hkept⟩
        · exact .inl ⟨hloop, congrArg (Option.map _) hkept⟩
        · refine .inr ⟨r', e :: kept, hloop, ?_, ?_, congrArg (Option.map _) hkept⟩
          · rw [List.append_assoc] at hfresh
            exact hfresh
          · exact List.forall_mem_cons.mpr ⟨.head _, fun e he => .tail _ (hmem e he)⟩

theorem ObservedLogs.filter_cases (fields : Arrays F) (keep : Entry × List F → Option Bool)
    (m : Arrays LoggedEntry) (logs : SliceHeader) :
    filter g m logs fields keep = none ∧
        keptBy keep ((m.read logs).map (LoggedEntry.value fields)) = none ∨
      ∃ r kept, filter g m logs fields keep = some r ∧ m.Fresh r.1 r.2 kept ∧
        (∀ e ∈ kept, e ∈ m.read logs) ∧
        keptBy keep ((m.read logs).map (LoggedEntry.value fields)) =
          some (kept.map (LoggedEntry.value fields)) := by
  have hempty : m.Fresh (m, SliceHeader.empty).1 (m, SliceHeader.empty).2 [] := .empty m
  exact filterLoop_cases g fields keep (m.read logs) hempty

theorem ContextObserver.collect_fresh [Inhabited F] {m : Arrays F} {co : ContextObserver}
    {fields : SliceHeader} (hco : m.Holds co.context) (hfields : m.Holds fields) (ent : Entry) :
    m.Fresh (co.collect g m ent fields).1 (co.collect g m ent fields).2.context
      (m.read co.context ++ m.read fields) := by
  have hmake := Arrays.Fresh.make m (Nat.zero_le (fields.len + co.context.len))
  have hfirst := hmake.append g (m.read co.context)
  have hsecond := hfirst.append g (m.read fields)
  rw [collect]
  simp only [(hmake.keeps _ hco).2, (hfirst.keeps _ hfields).2]
  exact hsecond

end Methods

namespace Observers

variable {F : Type}

/-- The entries of a slice, as a user sees them. -/
def listed (st : Observers F) (s : SliceHeader) : List (Entry × List F) :=
  (st.entries.read s).map (LoggedEntry.value st.fields)

def coreView (m : Arrays F) (co : ContextObserver) : ObservedCore F :=
  ⟨co.level, co.logs, m.read co.context⟩

def writeView (m : Arrays F) (w : Nat × LoggedEntry) : Nat × Entry × List F :=
  (w.1, w.2.value m)

def view (st : Observers F) : Observed F where
  observed := st.observed.map st.listed
  callers := st.callers.map st.fields.read
  cores := st.cores.map (coreView st.fields)
  writes := st.writes.map (writeView st.fields)
  results := st.results.map st.listed

/-- Who arrays of fields belong to. Contexts are shared, since nobody writes to them. -/
inductive FieldTag where
  | caller (i : Nat)
  | shared
  deriving DecidableEq

/-- Who arrays of entries belong to. -/
inductive EntryTag where
  | logs (o : Nat)
  | result (r : Nat)
  deriving DecidableEq

/-- Every slice is held under its tag, and the contexts of all entries are shared. -/
structure Separate (st : Observers F) (ownF : Nat → FieldTag) (ownE : Nat → EntryTag) : Prop where
  callers : ∀ i s, st.callers[i]? = some s → st.fields.HeldBy ownF (.caller i) s
  cores : ∀ co ∈ st.cores, st.fields.HeldBy ownF .shared co.context
  writes : ∀ w ∈ st.writes, st.fields.HeldBy ownF .shared w.2.context
  observed : ∀ o s, st.observed[o]? = some s → st.entries.HeldBy ownE (.logs o) s
  results : ∀ r s, st.results[r]? = some s → st.entries.HeldBy ownE (.result r) s
  contexts : ∀ s, s ∈ st.observed ∨ s ∈ st.results → ∀ e ∈ st.entries.read s,
    st.fields.HeldBy ownF .shared e.context

/-! ## Lists of which some are seen anew -/

section Lists

variable {α β : Type} {l : List α} {f f' : α → β}

theorem map_seen (h : ∀ (i : Nat) a, l[i]? = some a → f' a = f a) : l.map f' = l.map f := by
  refine List.map_congr_left fun a ha => ?_
  obtain ⟨i, hi⟩ := List.mem_iff_getElem?.mp ha
  exact h i a hi

theorem map_seen_set {k : Nat} (a : α) (h : ∀ i b, l[i]? = some b → i ≠ k → f' b = f b) :
    (l.set k a).map f' = (l.map f).set k (f' a) := by
  refine List.ext_getElem? fun i => ?_
  rw [List.getElem?_map, List.getElem?_set, List.getElem?_set, List.length_map]
  by_cases hi : k = i
  · rw [if_pos hi, if_pos hi]
    split <;> rfl
  · rw [if_neg hi, if_neg hi, List.getElem?_map]
    cases hget : l[i]? with
    | none => rfl
    | some b => exact congrArg some (h i b hget (Ne.symm hi))

theorem map_seen_at {k : Nat} {a : α} (hk : l[k]? = some a)
    (h : ∀ i b, l[i]? = some b → i ≠ k → f' b = f b) : l.map f' = (l.map f).set k (f' a) := by
  obtain ⟨hlt, rfl⟩ := List.getElem?_eq_some_iff.mp hk
  rw [← map_seen_set _ h, List.set_getElem_self]

end Lists

/-! ## Arrays of fields -/

variable {st : Observers F} {ownF : Nat → FieldTag} {ownE : Nat → EntryTag}

section Fields

variable {m' : Arrays F} {ownF' : Nat → FieldTag} {seen : FieldTag → Prop}

/-- What is done to arrays of fields can be seen in the slices of callers only. -/
theorem Separate.moveFields (h : st.Separate ownF ownE)
    (hm : st.fields.Moves ownF m' ownF' seen) (hshared : ¬ seen .shared)
    (hcallers : ∀ i s, st.callers[i]? = some s → seen (.caller i) →
      m'.HeldBy ownF' (.caller i) s) :
    Separate { st with fields := m' } ownF' ownE ∧
      view { st with fields := m' } = { st.view with callers := st.callers.map m'.read } := by
  have hvalue : ∀ e : LoggedEntry, st.fields.HeldBy ownF .shared e.context →
      e.value m' = e.value st.fields :=
    fun e he => congrArg (Prod.mk e.entry) (hm _ _ hshared he).2
  have hlisted : ∀ s, s ∈ st.observed ∨ s ∈ st.results →
      listed { st with fields := m' } s = st.listed s :=
    fun s hs => List.map_congr_left fun e he => hvalue e (h.contexts s hs e he)
  constructor
  · refine ⟨fun i s hs => ?_, fun co hco => (hm _ _ hshared (h.cores co hco)).1,
      fun w hw => (hm _ _ hshared (h.writes w hw)).1, h.observed, h.results,
      fun s hs e he => (hm _ _ hshared (h.contexts s hs e he)).1⟩
    by_cases hseen : seen (.caller i)
    · exact hcallers i s hs hseen
    · exact (hm _ _ hseen (h.callers i s hs)).1
  · rw [view, view, Observed.mk.injEq]
    refine ⟨List.map_congr_left fun s hs => hlisted s (.inl hs), rfl,
      List.map_congr_left fun co hco => ?_, List.map_congr_left fun w hw => ?_,
      List.map_congr_left fun s hs => hlisted s (.inr hs)⟩
    · exact congrArg (ObservedCore.mk co.level co.logs) (hm _ _ hshared (h.cores co hco)).2
    · exact congrArg (Prod.mk w.1) (hvalue w.2 (h.writes w hw))

/-- What is done to arrays of fields cannot be seen. -/
theorem Separate.moveFields_unseen (h : st.Separate ownF ownE)
    (hm : st.fields.Moves ownF m' ownF' fun _ => False) :
    Separate { st with fields := m' } ownF' ownE ∧ view { st with fields := m' } = st.view := by
  obtain ⟨hsep, hview⟩ := h.moveFields hm id fun _ _ _ => False.elim
  refine ⟨hsep, hview.trans ?_⟩
  have hcallers : st.callers.map m'.read = st.callers.map st.fields.read :=
    map_seen fun i s hs => (hm _ _ id (h.callers i s hs)).2
  rw [hcallers]
  rfl

end Fields

/-! ## Arrays of entries -/

section Entries

variable {m' : Arrays LoggedEntry} {ownE' : Nat → EntryTag} {seen : EntryTag → Prop}

/-- A slice of entries that is all right under its tag. -/
def Fits (st : Observers F) (ownF : Nat → FieldTag) (m' : Arrays LoggedEntry)
    (ownE' : Nat → EntryTag) (tag : EntryTag) (s : SliceHeader) : Prop :=
  m'.HeldBy ownE' tag s ∧ ∀ e ∈ m'.read s, st.fields.HeldBy ownF .shared e.context

/-- What is done to arrays of entries can be seen in the slices of some tags, and these are all right
again. -/
theorem Separate.moveEntries (h : st.Separate ownF ownE)
    (hm : st.entries.Moves ownE m' ownE' seen) {observed' results' : List SliceHeader}
    (hobserved : ∀ o s, observed'[o]? = some s → st.observed[o]? = some s ∧ ¬ seen (.logs o) ∨
      st.Fits ownF m' ownE' (.logs o) s)
    (hresults : ∀ r s, results'[r]? = some s → st.results[r]? = some s ∧ ¬ seen (.result r) ∨
      st.Fits ownF m' ownE' (.result r) s) :
    Separate { st with entries := m', observed := observed', results := results' } ownF ownE' := by
  have hobs : ∀ o s, observed'[o]? = some s → st.Fits ownF m' ownE' (.logs o) s := by
    intro o s hs
    rcases hobserved o s hs with ⟨hold, hseen⟩ | hnew
    · obtain ⟨hheld, hread⟩ := hm _ _ hseen (h.observed o s hold)
      refine ⟨hheld, fun e he => ?_⟩
      exact h.contexts s (.inl (List.mem_of_getElem? hold)) e (hread ▸ he)
    · exact hnew
  have hres : ∀ r s, results'[r]? = some s → st.Fits ownF m' ownE' (.result r) s := by
    intro r s hs
    rcases hresults r s hs with ⟨hold, hseen⟩ | hnew
    · obtain ⟨hheld, hread⟩ := hm _ _ hseen (h.results r s hold)
      refine ⟨hheld, fun e he => ?_⟩
      exact h.contexts s (.inr (List.mem_of_getElem? hold)) e (hread ▸ he)
    · exact hnew
  refine ⟨h.callers, h.cores, h.writes, fun o s hs => (hobs o s hs).1,
    fun r s hs => (hres r s hs).1, fun s hs => ?_⟩
  rcases hs with hs | hs
  · obtain ⟨o, ho⟩ := List.mem_iff_getElem?.mp hs
    exact (hobs o s ho).2
  · obtain ⟨r, hr⟩ := List.mem_iff_getElem?.mp hs
    exact (hres r s hr).2

/-- Members of a list with one more member. -/
theorem getElem?_concat_cases {α : Type} {l : List α} {a b : α} {i : Nat}
    (h : (l ++ [a])[i]? = some b) : l[i]? = some b ∨ i = l.length ∧ b = a := by
  rw [List.getElem?_append] at h
  split at h
  next hlt => exact .inl h
  next hge =>
    obtain ⟨hi, rfl⟩ := List.getElem?_eq_some_iff.mp h
    rw [List.length_singleton] at hi
    exact .inr ⟨by omega, by simp⟩

/-- Members of a list with one member replaced. -/
theorem getElem?_set_cases {α : Type} {l : List α} {a b : α} {k i : Nat}
    (h : (l.set k a)[i]? = some b) : l[i]? = some b ∧ i ≠ k ∨ i = k ∧ b = a := by
  rw [List.getElem?_set] at h
  split at h
  next hi =>
    split at h
    next => exact .inr ⟨hi.symm, (Option.some.inj h).symm⟩
    next => cases h
  next hi => exact .inl ⟨h, Ne.symm hi⟩

end Entries

/-! ## What is seen of a state that grows -/

section Growing

variable (st : Observers F)

theorem view_addCaller (s : SliceHeader) :
    view { st with callers := st.callers ++ [s] } =
      { st.view with callers := st.view.callers ++ [st.fields.read s] } := by
  simp only [view, List.map_append, List.map_singleton]
  rfl

theorem view_addCore (co : ContextObserver) :
    view { st with cores := st.cores ++ [co] } =
      { st.view with cores := st.view.cores ++ [coreView st.fields co] } := by
  simp only [view, List.map_append, List.map_singleton]
  rfl

theorem view_addWrite (w : Nat × LoggedEntry) :
    view { st with writes := st.writes ++ [w] } =
      { st.view with writes := st.view.writes ++ [writeView st.fields w] } := by
  simp only [view, List.map_append, List.map_singleton]
  rfl

theorem view_addObserved (s : SliceHeader) :
    view { st with observed := st.observed ++ [s] } =
      { st.view with observed := st.view.observed ++ [st.listed s] } := by
  simp only [view, List.map_append, List.map_singleton]
  rfl

theorem view_observed_getElem? (o : Nat) :
    st.view.observed[o]? = st.observed[o]?.map st.listed := List.getElem?_map

theorem view_callers_getElem? (i : Nat) :
    st.view.callers[i]? = st.callers[i]?.map st.fields.read := List.getElem?_map

theorem view_cores_getElem? (i : Nat) :
    st.view.cores[i]? = st.cores[i]?.map (coreView st.fields) := List.getElem?_map

theorem view_writes_getElem? (i : Nat) :
    st.view.writes[i]? = st.writes[i]?.map (writeView st.fields) := List.getElem?_map

theorem view_results_getElem? (r : Nat) :
    st.view.results[r]? = st.results[r]?.map st.listed := List.getElem?_map

theorem view_entryOf (r i : Nat) :
    st.view.entryOf r i = (st.entryOf r i).map (LoggedEntry.value st.fields) := by
  rw [Observed.entryOf, entryOf, view_results_getElem?]
  cases st.results[r]? with
  | none => rfl
  | some s => exact List.getElem?_map

end Growing

/-! ## The operations -/

/-- Memory in which slices are separate stands for what is seen of it. -/
def StandsFor (st : Observers F) (a : Observed F) : Prop :=
  (∃ ownF ownE, st.Separate ownF ownE) ∧ st.view = a

section Steps

variable (h : st.Separate ownF ownE)

include h

/-- A caller gets a new slice. -/
theorem Separate.gainCaller {m' : Arrays F} {s : SliceHeader} {xs : List F}
    (hfresh : st.fields.Fresh m' s xs) :
    StandsFor { st with fields := m', callers := st.callers ++ [s] }
      { st.view with callers := st.view.callers ++ [xs] } := by
  obtain ⟨hsep, hview⟩ := h.moveFields_unseen (.fresh hfresh ownF (.caller st.callers.length))
  refine ⟨⟨_, _, { hsep with callers := fun i s hs => ?_ }⟩,
    (view_addCaller { st with fields := m' } s).trans ?_⟩
  · rcases getElem?_concat_cases hs with hold | ⟨rfl, rfl⟩
    · exact hsep.callers i s hold
    · exact .fresh hfresh ownF _
  · rw [hview, hfresh.read]

/-- There is a new core, with a context that nobody writes to. -/
theorem Separate.gainCore {m' : Arrays F} {ownF' : Nat → FieldTag}
    (hm : st.fields.Moves ownF m' ownF' fun _ => False) (co : ContextObserver)
    (hco : m'.HeldBy ownF' .shared co.context) :
    StandsFor { st with fields := m', cores := st.cores ++ [co] }
      { st.view with cores := st.view.cores ++ [coreView m' co] } := by
  obtain ⟨hsep, hview⟩ := h.moveFields_unseen hm
  refine ⟨⟨_, _, { hsep with cores := ?_ }⟩, (view_addCore { st with fields := m' } co).trans ?_⟩
  · exact List.forall_mem_append.mpr ⟨hsep.cores, List.forall_mem_singleton.mpr hco⟩
  · rw [hview]

/-- There is a new entry, with a new context. -/
theorem Separate.gainWrite {m' : Arrays F} {e : LoggedEntry} {xs : List F} (o : Nat)
    (hfresh : st.fields.Fresh m' e.context xs) :
    StandsFor { st with fields := m', writes := st.writes ++ [(o, e)] }
      { st.view with writes := st.view.writes ++ [(o, e.entry, xs)] } := by
  obtain ⟨hsep, hview⟩ := h.moveFields_unseen (.fresh hfresh ownF .shared)
  refine ⟨⟨_, _, { hsep with writes := ?_ }⟩,
    (view_addWrite { st with fields := m' } (o, e)).trans ?_⟩
  · refine List.forall_mem_append.mpr ⟨hsep.writes, List.forall_mem_singleton.mpr ?_⟩
    exact .fresh hfresh ownF _
  · rw [hview, writeView, LoggedEntry.value, hfresh.read]

theorem make_stands [Inhabited F] (g : Growth) (fields : List F) :
    (st.step g (.make fields)).StandsFor (st.view.step (.make fields)) :=
  h.gainCaller ((Arrays.Fresh.makeLen st.fields fields.length).copy rfl)

theorem set_stands [Inhabited F] (g : Growth) (caller i : Nat) (field : F) :
    (st.step g (.set caller i field)).StandsFor (st.view.step (.set caller i field)) := by
  rw [step, Observed.step, view_callers_getElem?]
  cases hcaller : st.callers[caller]? with
  | none => exact ⟨⟨_, _, h⟩, rfl⟩
  | some s =>
    have hs := h.callers caller s hcaller
    obtain ⟨hholds, hread⟩ := Arrays.set_self hs.holds i field
    have hm := Arrays.Moves.set hs i field
    have hshared : FieldTag.shared ≠ .caller caller := by
      intro heq
      cases heq
    obtain ⟨hsep, hview⟩ := h.moveFields hm hshared fun j t ht hj => by
      cases hj
      cases hcaller.symm.trans ht
      exact ⟨hholds, hs.mine⟩
    refine ⟨⟨_, _, hsep⟩, hview.trans ?_⟩
    have hcallers := map_seen_at hcaller fun j t ht hne =>
      (hm _ _ (fun heq => hne (FieldTag.caller.inj heq)) (h.callers j t ht)).2
    rw [hcallers, hread]
    rfl

theorem new_stands [Inhabited F] (g : Growth) (level : LevelEnabler) :
    (st.step g (.new level)).StandsFor (st.view.step (.new level)) := by
  constructor
  · refine ⟨ownF, ownE, { h with cores := ?_, observed := ?_, contexts := ?_ }⟩
    · refine List.forall_mem_append.mpr ⟨h.cores, List.forall_mem_singleton.mpr ?_⟩
      exact .empty _ _ _
    · intro o s hs
      rcases getElem?_concat_cases hs with hold | ⟨rfl, rfl⟩
      · exact h.observed o s hold
      · exact .empty _ _ _
    · intro s hs
      rcases hs with hs | hs
      · rcases List.mem_append.mp hs with hs | hs
        · exact h.contexts s (.inl hs)
        · cases List.mem_singleton.mp hs
          rw [Arrays.read_empty]
          exact List.forall_mem_nil _
      · exact h.contexts s (.inr hs)
  · have hlength : st.view.observed.length = st.observed.length := List.length_map _
    refine (view_addCore { st with observed := st.observed ++ [.empty] } _).trans ?_
    rw [view_addObserved, coreView, listed, Arrays.read_empty, Arrays.read_empty, Observed.step,
      hlength]
    rfl

theorem withFields_stands [Inhabited F] (g : Growth) (core caller : Nat) :
    (st.step g (.withFields core caller)).StandsFor (st.view.step (.withFields core caller)) := by
  rw [step, Observed.step, view_cores_getElem?, view_callers_getElem?]
  cases hcore : st.cores[core]? with
  | none => exact ⟨⟨_, _, h⟩, rfl⟩
  | some co =>
    cases hcaller : st.callers[caller]? with
    | none => exact ⟨⟨_, _, h⟩, rfl⟩
    | some s =>
      have hco := (h.cores co (List.mem_of_getElem? hcore)).clip
      obtain ⟨_, hread, _⟩ := Arrays.append_self g hco.holds (st.fields.read s)
      have hcontext : st.fields.read co.context.clip = st.fields.read co.context := rfl
      have hgain := h.gainCore (.append_clip co.context g (st.fields.read s))
        (co.withFields g st.fields s).2 (hco.append g (st.fields.read s))
      rw [coreView, ContextObserver.withFields, hread, hcontext] at hgain
      exact hgain

theorem write_stands [Inhabited F] (g : Growth) (core : Nat) (ent : Entry) (caller : Nat) :
    (st.step g (.write core ent caller)).StandsFor (st.view.step (.write core ent caller)) := by
  rw [step, Observed.step, view_cores_getElem?, view_callers_getElem?]
  cases hcore : st.cores[core]? with
  | none => exact ⟨⟨_, _, h⟩, rfl⟩
  | some co =>
    cases hcaller : st.callers[caller]? with
    | none => exact ⟨⟨_, _, h⟩, rfl⟩
    | some s =>
      cases hcheck : co.level.enabled ent.level with
      | false =>
        simp only [Option.map_some, ContextObserver.check, coreView, hcheck, Bool.false_eq_true,
          if_false]
        exact ⟨⟨_, _, h⟩, rfl⟩
      | true =>
        simp only [Option.map_some, ContextObserver.check, coreView, hcheck, if_true]
        exact h.gainWrite co.logs (ContextObserver.collect_fresh g
          (h.cores co (List.mem_of_getElem? hcore)).holds (h.callers caller s hcaller).holds ent)

/-! ### Operations on entries -/

omit h in
/-- A slice that is not seen anew. -/
theorem listed_moved {m' : Arrays LoggedEntry} {ownE' : Nat → EntryTag} {seen : EntryTag → Prop}
    (hm : st.entries.Moves ownE m' ownE' seen) {tag : EntryTag} {s : SliceHeader}
    (hs : st.entries.HeldBy ownE tag s) (hseen : ¬ seen tag) :
    (m'.read s).map (LoggedEntry.value st.fields) = st.listed s :=
  congrArg (List.map (LoggedEntry.value st.fields)) (hm tag s hseen hs).2

/-- Somebody gets a new slice. -/
theorem Separate.gainResult {m' : Arrays LoggedEntry} {s : SliceHeader} {es : List LoggedEntry}
    (hfresh : st.entries.Fresh m' s es)
    (hes : ∀ e ∈ es, st.fields.HeldBy ownF .shared e.context) :
    (st.give (m', s)).StandsFor { st.view with
      results := st.view.results ++ [es.map (LoggedEntry.value st.fields)] } := by
  have hm := Arrays.Moves.fresh hfresh ownE (.result st.results.length)
  constructor
  · refine ⟨ownF, _, h.moveEntries hm (fun o s hs => .inl ⟨hs, id⟩) fun r t ht => ?_⟩
    rcases getElem?_concat_cases ht with hold | ⟨rfl, rfl⟩
    · exact .inl ⟨hold, id⟩
    · exact .inr ⟨.fresh hfresh ownE _, hfresh.read.symm ▸ hes⟩
  · rw [view, view, Observed.mk.injEq]
    refine ⟨map_seen fun o s hs => listed_moved hm (h.observed o s hs) id, rfl, rfl, rfl, ?_⟩
    have hnew : listed (st.give (m', s)) s = es.map (LoggedEntry.value st.fields) :=
      congrArg (List.map _) hfresh.read
    rw [give, List.map_append, List.map_singleton, ← hnew]
    exact congrArg (· ++ _) (map_seen fun r s hs => listed_moved hm (h.results r s hs) id)

/-- There are new logs. -/
theorem Separate.gainObserved {m' : Arrays LoggedEntry} {s : SliceHeader} {es : List LoggedEntry}
    (hfresh : st.entries.Fresh m' s es)
    (hes : ∀ e ∈ es, st.fields.HeldBy ownF .shared e.context) :
    StandsFor { st with entries := m', observed := st.observed ++ [s] } { st.view with
      observed := st.view.observed ++ [es.map (LoggedEntry.value st.fields)] } := by
  have hm := Arrays.Moves.fresh hfresh ownE (.logs st.observed.length)
  constructor
  · refine ⟨ownF, _, h.moveEntries hm (fun o t ht => ?_) fun r s hs => .inl ⟨hs, id⟩⟩
    rcases getElem?_concat_cases ht with hold | ⟨rfl, rfl⟩
    · exact .inl ⟨hold, id⟩
    · exact .inr ⟨.fresh hfresh ownE _, hfresh.read.symm ▸ hes⟩
  · rw [view, view, Observed.mk.injEq]
    refine ⟨?_, rfl, rfl, rfl, map_seen fun r s hs => listed_moved hm (h.results r s hs) id⟩
    have hnew : (m'.read s).map (LoggedEntry.value st.fields) =
      es.map (LoggedEntry.value st.fields) := congrArg (List.map _) hfresh.read
    rw [List.map_append, List.map_singleton, ← hnew]
    exact congrArg (· ++ _) (map_seen fun o s hs => listed_moved hm (h.observed o s hs) id)

theorem all_stands [Inhabited F] (g : Growth) (o : Nat) :
    (st.step g (.all o)).StandsFor (st.view.step (.all o)) := by
  rw [step, Observed.step, view_observed_getElem?]
  cases ho : st.observed[o]? with
  | none => exact ⟨⟨_, _, h⟩, rfl⟩
  | some logs =>
    exact h.gainResult (ObservedLogs.all_fresh (h.observed o logs ho).holds)
      (h.contexts logs (.inl (List.mem_of_getElem? ho)))

theorem allUntimed_stands [Inhabited F] (g : Growth) (o : Nat) :
    (st.step g (.allUntimed o)).StandsFor (st.view.step (.allUntimed o)) := by
  rw [step, Observed.step, view_observed_getElem?]
  cases ho : st.observed[o]? with
  | none => exact ⟨⟨_, _, h⟩, rfl⟩
  | some logs =>
    have hcontexts := h.contexts logs (.inl (List.mem_of_getElem? ho))
    have hgain := h.gainResult (ObservedLogs.allUntimed_fresh (h.observed o logs ho).holds)
      (List.forall_mem_map.mpr hcontexts)
    rw [List.map_map] at hgain
    simp only [Option.map_some, listed, List.map_map]
    exact hgain

theorem filter_stands [Inhabited F] (g : Growth) (o : Nat) (keep : Entry × List F → Option Bool) :
    (st.step g (.filter o keep)).StandsFor (st.view.step (.filter o keep)) := by
  rw [step, Observed.step, view_observed_getElem?]
  cases ho : st.observed[o]? with
  | none => exact ⟨⟨_, _, h⟩, rfl⟩
  | some logs =>
    have hcontexts := h.contexts logs (.inl (List.mem_of_getElem? ho))
    rcases ObservedLogs.filter_cases g st.fields keep st.entries logs with
      ⟨hfilter, hkept⟩ | ⟨r, kept, hfilter, hfresh, hmem, hkept⟩
    · simp only [Option.map_some, hfilter, listed, hkept]
      exact ⟨⟨_, _, h⟩, rfl⟩
    · simp only [Option.map_some, hfilter, listed, hkept]
      exact h.gainObserved hfresh fun e he => hcontexts e (hmem e he)

/-- Logs give their array to a result. -/
theorem Separate.giveAway {o : Nat} {logs : SliceHeader} (ho : st.observed[o]? = some logs) :
    StandsFor { st with observed := st.observed.set o .empty, results := st.results ++ [logs] }
      { st.view with
        observed := st.view.observed.set o []
        results := st.view.results ++ [st.listed logs] } := by
  have hm := Arrays.Moves.transfer st.entries ownE (.logs o) (.result st.results.length)
  constructor
  · refine ⟨ownF, _, h.moveEntries hm (fun p t ht => ?_) fun r t ht => ?_⟩
    · rcases getElem?_set_cases ht with ⟨hold, hne⟩ | ⟨rfl, rfl⟩
      · exact .inl ⟨hold, fun heq => hne (EntryTag.logs.inj heq)⟩
      · refine .inr ⟨.empty _ _ _, ?_⟩
        rw [Arrays.read_empty]
        exact List.forall_mem_nil _
    · rcases getElem?_concat_cases ht with hold | ⟨rfl, rfl⟩
      · exact .inl ⟨hold, fun heq => nomatch heq⟩
      · exact .inr ⟨(h.observed o _ ho).transfer_self _,
          h.contexts _ (.inl (List.mem_of_getElem? ho))⟩
  · rw [view, view, Observed.mk.injEq]
    refine ⟨?_, rfl, rfl, rfl, List.map_append⟩
    refine (map_seen_set SliceHeader.empty fun p t _ _ => rfl).trans ?_
    rw [listed, Arrays.read_empty]
    rfl

/-- The slice of logs is changed, with its array. -/
theorem Separate.changeObserved {m' : Arrays LoggedEntry} {ownE' : Nat → EntryTag} {o : Nat}
    {s : SliceHeader} (hm : st.entries.Moves ownE m' ownE' (· = .logs o))
    (hs : st.Fits ownF m' ownE' (.logs o) s) :
    StandsFor { st with entries := m', observed := st.observed.set o s } { st.view with
      observed := st.view.observed.set o ((m'.read s).map (LoggedEntry.value st.fields)) } := by
  constructor
  · refine ⟨ownF, _, h.moveEntries hm (fun p t ht => ?_) fun r t ht =>
      .inl ⟨ht, fun heq => nomatch heq⟩⟩
    rcases getElem?_set_cases ht with ⟨hold, hne⟩ | ⟨rfl, rfl⟩
    · exact .inl ⟨hold, fun heq => hne (EntryTag.logs.inj heq)⟩
    · exact .inr hs
  · rw [view, view, Observed.mk.injEq]
    refine ⟨map_seen_set s fun p t ht hne => ?_, rfl, rfl, rfl, map_seen fun r t ht => ?_⟩
    · exact listed_moved hm (h.observed p t ht) fun heq => hne (EntryTag.logs.inj heq)
    · exact listed_moved hm (h.results r t ht) fun heq => nomatch heq

/-- The slice of a result is changed, with its array. -/
theorem Separate.changeResult {m' : Arrays LoggedEntry} {ownE' : Nat → EntryTag} {r : Nat}
    {s : SliceHeader} (hm : st.entries.Moves ownE m' ownE' (· = .result r))
    (hs : st.Fits ownF m' ownE' (.result r) s) :
    StandsFor { st with entries := m', results := st.results.set r s } { st.view with
      results := st.view.results.set r ((m'.read s).map (LoggedEntry.value st.fields)) } := by
  constructor
  · refine ⟨ownF, _, h.moveEntries hm (fun o t ht => .inl ⟨ht, fun heq => nomatch heq⟩)
      fun p t ht => ?_⟩
    rcases getElem?_set_cases ht with ⟨hold, hne⟩ | ⟨rfl, rfl⟩
    · exact .inl ⟨hold, fun heq => hne (EntryTag.result.inj heq)⟩
    · exact .inr hs
  · rw [view, view, Observed.mk.injEq]
    refine ⟨map_seen fun o t ht => ?_, rfl, rfl, rfl, map_seen_set s fun p t ht hne => ?_⟩
    · exact listed_moved hm (h.observed o t ht) fun heq => nomatch heq
    · exact listed_moved hm (h.results p t ht) fun heq => hne (EntryTag.result.inj heq)

theorem takeAll_stands [Inhabited F] (g : Growth) (o : Nat) :
    (st.step g (.takeAll o)).StandsFor (st.view.step (.takeAll o)) := by
  rw [step, Observed.step, view_observed_getElem?]
  cases ho : st.observed[o]? with
  | none => exact ⟨⟨_, _, h⟩, rfl⟩
  | some logs => exact h.giveAway ho

theorem add_stands [Inhabited F] (g : Growth) (write : Nat) :
    (st.step g (.add write)).StandsFor (st.view.step (.add write)) := by
  rw [step, Observed.step, view_writes_getElem?]
  cases hwrite : st.writes[write]? with
  | none => exact ⟨⟨_, _, h⟩, rfl⟩
  | some w =>
    obtain ⟨o, log⟩ := w
    have hlog := h.writes _ (List.mem_of_getElem? hwrite)
    simp only [Option.map_some, writeView, view_observed_getElem?]
    cases ho : st.observed[o]? with
    | none => exact ⟨⟨_, _, h⟩, rfl⟩
    | some logs =>
      have hlogs := h.observed o logs ho
      have hcontexts := h.contexts logs (.inl (List.mem_of_getElem? ho))
      obtain ⟨_, hread, _⟩ := Arrays.append_self g hlogs.holds [log]
      obtain ⟨⟨_, _, hsep⟩, hview⟩ := h.changeObserved (.append hlogs g [log])
        ⟨hlogs.append g [log], hread ▸ List.forall_mem_append.mpr
          ⟨hcontexts, List.forall_mem_singleton.mpr hlog⟩⟩
      rw [hread, List.map_append, List.map_singleton] at hview
      refine ⟨⟨_, _, { hsep with writes := fun w hw => ?_ }⟩, ?_⟩
      · exact hsep.writes w (List.mem_of_mem_eraseIdx hw)
      · have herase : (st.writes.eraseIdx write).map (writeView st.fields) =
            (st.writes.map (writeView st.fields)).eraseIdx write := (List.eraseIdx_map _ _ _).symm
        exact congrArg₂ (fun a ws => { a with writes := ws }) hview herase

/-- The context of an entry of a result. -/
theorem Separate.entryOf {source j : Nat} {e : LoggedEntry} (he : st.entryOf source j = some e) :
    st.fields.HeldBy ownF .shared e.context := by
  obtain ⟨s, hs, hget⟩ := Option.bind_eq_some_iff.mp he
  exact h.contexts s (.inr (List.mem_of_getElem? hs)) e (List.mem_of_getElem? hget)

theorem put_stands [Inhabited F] (g : Growth) (result i source j : Nat) :
    (st.step g (.put result i source j)).StandsFor (st.view.step (.put result i source j)) := by
  rw [step, Observed.step, view_results_getElem?, view_entryOf]
  cases hresult : st.results[result]? with
  | none => exact ⟨⟨_, _, h⟩, rfl⟩
  | some s =>
    cases hentry : st.entryOf source j with
    | none => exact ⟨⟨_, _, h⟩, rfl⟩
    | some e =>
      have hs := h.results result s hresult
      have hcontexts := h.contexts s (.inr (List.mem_of_getElem? hresult))
      obtain ⟨hholds, hread⟩ := Arrays.set_self hs.holds i e
      have hfits : st.Fits ownF (st.entries.set s i e) ownE (.result result) s := by
        refine ⟨⟨hholds, hs.mine⟩, fun d hd => ?_⟩
        rw [hread] at hd
        rcases List.mem_or_eq_of_mem_set hd with hd | rfl
        · exact hcontexts d hd
        · exact h.entryOf hentry
      have hchange := h.changeResult (.set hs i e) hfits
      have hsame : st.results.set result s = st.results := by
        obtain ⟨hlt, rfl⟩ := List.getElem?_eq_some_iff.mp hresult
        exact List.set_getElem_self hlt
      rw [hread, List.map_set, hsame] at hchange
      exact hchange

theorem extend_stands [Inhabited F] (g : Growth) (result source j : Nat) :
    (st.step g (.extend result source j)).StandsFor (st.view.step (.extend result source j)) := by
  rw [step, Observed.step, view_results_getElem?, view_entryOf]
  cases hresult : st.results[result]? with
  | none => exact ⟨⟨_, _, h⟩, rfl⟩
  | some s =>
    cases hentry : st.entryOf source j with
    | none => exact ⟨⟨_, _, h⟩, rfl⟩
    | some e =>
      have hs := h.results result s hresult
      have hcontexts := h.contexts s (.inr (List.mem_of_getElem? hresult))
      obtain ⟨_, hread, _⟩ := Arrays.append_self g hs.holds [e]
      have hchange := h.changeResult (.append hs g [e]) ⟨hs.append g [e], hread ▸
        List.forall_mem_append.mpr ⟨hcontexts, List.forall_mem_singleton.mpr (h.entryOf hentry)⟩⟩
      rw [hread, List.map_append, List.map_singleton] at hchange
      exact hchange

end Steps

/-- Without `clip`, two cores that are derived from one core may share an array, and the later one
writes over the field of the other. -/
example :
    let g : Growth := ⟨fun _ need => need + 1, fun _ need => Nat.le_succ need⟩
    let parent := (Arrays.empty : Arrays Nat).append g .empty [1]
    let child := parent.1.append g parent.2 [2]
    let sibling := child.1.append g parent.2 [3]
    child.1.read child.2 = [1, 2] ∧ sibling.1.read child.2 = [1, 3] := by
  decide

/-! ## Runs -/

section Runs

variable [Inhabited F] (g : Growth)

omit [Inhabited F] in
theorem start_stands : (start : Observers F).StandsFor .start := by
  refine ⟨⟨fun _ => .shared, fun _ => .logs 0, ?_⟩, rfl⟩
  exact {
    callers := fun i s hs => absurd (List.mem_of_getElem? hs) List.not_mem_nil
    cores := List.forall_mem_nil _
    writes := List.forall_mem_nil _
    observed := fun o s hs => absurd (List.mem_of_getElem? hs) List.not_mem_nil
    results := fun r s hs => absurd (List.mem_of_getElem? hs) List.not_mem_nil
    contexts := fun s hs => absurd (hs.elim id id) List.not_mem_nil }

theorem StandsFor.step {a : Observed F} (h : st.StandsFor a) (op : Op F) :
    (st.step g op).StandsFor (a.step op) := by
  obtain ⟨⟨ownF, ownE, hsep⟩, rfl⟩ := h
  cases op with
  | make fields => exact make_stands hsep g fields
  | set caller i field => exact set_stands hsep g caller i field
  | new level => exact new_stands hsep g level
  | withFields core caller => exact withFields_stands hsep g core caller
  | write core ent caller => exact write_stands hsep g core ent caller
  | add write => exact add_stands hsep g write
  | all o => exact all_stands hsep g o
  | takeAll o => exact takeAll_stands hsep g o
  | allUntimed o => exact allUntimed_stands hsep g o
  | filter o keep => exact filter_stands hsep g o keep
  | put result i source j => exact put_stands hsep g result i source j
  | extend result source j => exact extend_stands hsep g result source j

theorem StandsFor.run {a : Observed F} (h : st.StandsFor a) (ops : List (Op F)) :
    (ops.foldl (Observers.step g) st).StandsFor (ops.foldl Observed.step a) := by
  induction ops generalizing st a with
  | nil => exact h
  | cons op ops ih => exact ih (h.step g op)

end Runs

section Conserve

variable [Inhabited F] (g : Growth) (o : Nat)

/-- The entries that an operation takes from logs: what the slice holds that `TakeAll` returns. -/
def taken (st : Observers F) : Op F → List (Entry × List F)
  | .takeAll p =>
    if p = o then
      ((st.step g (.takeAll p)).results.drop st.results.length).flatMap
        (st.step g (.takeAll p)).listed
    else []
  | _ => []

/-- The entries that an operation adds to logs. -/
def added (st : Observers F) : Op F → List (Entry × List F)
  | .add write =>
    st.writes[write]?.elim [] fun w => if w.1 = o then [w.2.value st.fields] else []
  | _ => []

theorem taken_takeAll {logs : SliceHeader} (ho : st.observed[o]? = some logs) :
    st.taken g o (.takeAll o) = st.listed logs := by
  have hresults : (st.step g (.takeAll o)).results = st.results ++ [logs] := by
    rw [step, ho]
    rfl
  have hlisted : (st.step g (.takeAll o)).listed logs = st.listed logs := by
    rw [step, ho]
    rfl
  rw [taken, if_pos rfl, hresults, List.drop_left, List.flatMap_singleton, hlisted]

theorem taken_eq_nil {op : Op F} (hop : op ≠ .takeAll o) : st.taken g o op = [] := by
  cases op with
  | takeAll p => exact if_neg fun heq => hop (congrArg Op.takeAll heq)
  | _ => rfl

omit [Inhabited F] in
theorem added_eq_nil {op : Op F} (hop : ∀ write, op ≠ .add write) : st.added o op = [] := by
  cases op with
  | add write => exact absurd rfl (hop write)
  | _ => rfl

/-- One operation moves entries from those that are added to the logs to those that are taken. -/
theorem StandsFor.conserve {a : Observed F} (h : st.StandsFor a) {l : List (Entry × List F)}
    (ho : a.observed[o]? = some l) (op : Op F) :
    ∃ l', (a.step op).observed[o]? = some l' ∧ st.taken g o op ++ l' = l ++ st.added o op := by
  obtain ⟨_, rfl⟩ := h
  obtain ⟨hlt, _⟩ := List.getElem?_eq_some_iff.mp ho
  by_cases htake : op = .takeAll o
  · subst htake
    rw [view_observed_getElem?] at ho
    obtain ⟨logs, hlogs, rfl⟩ := Option.map_eq_some_iff.mp ho
    refine ⟨[], ?_, ?_⟩
    · rw [Observed.step, view_observed_getElem?, hlogs]
      exact List.getElem?_set_self hlt
    · rw [taken_takeAll g o hlogs]
      rfl
  · rw [taken_eq_nil g o htake]
    by_cases hadd : ∃ write, op = .add write
    · obtain ⟨write, rfl⟩ := hadd
      rw [Observed.step, view_writes_getElem?, added]
      cases hwrite : st.writes[write]? with
      | none => exact ⟨l, ho, (List.append_nil l).symm⟩
      | some w =>
        simp only [Option.map_some, writeView, Option.elim_some]
        by_cases hw : w.1 = o
        · rw [hw, ho, if_pos rfl]
          exact ⟨_, List.getElem?_set_self hlt, rfl⟩
        · rw [if_neg hw, List.append_nil]
          refine ⟨l, ?_, rfl⟩
          split
          · rw [List.getElem?_set_ne hw, ho]
          · exact ho
    · rw [added_eq_nil o fun write heq => hadd ⟨write, heq⟩, List.append_nil]
      exact ⟨l, Observed.step_observed ho op (fun write heq => hadd ⟨write, heq⟩) htake, rfl⟩

/-- Logs at some point of a run, and what is added to them and taken from them from then on: the
entries taken, call by call, and then those that are left are the entries that were there and then
those that were added, in the order in which goroutines have got the lock. -/
theorem observers_conserve (before after : List (Op F)) {l : List (Entry × List F)}
    (ho : (before.foldl (step g) start).view.observed[o]? = some l) :
    ∃ rest, ((before ++ after).foldl (step g) start).view.observed[o]? = some rest ∧
      historyFrom (fun past => taken g o (past.foldl (step g) start)) before after ++ rest =
        l ++ historyFrom (fun past => added o (past.foldl (step g) start)) before after := by
  induction after using List.reverseRecOn with
  | nil =>
    rw [List.append_nil]
    exact ⟨l, ho, (List.append_nil l).symm⟩
  | append_singleton after op ih =>
    obtain ⟨l', hl', heq⟩ := ih
    have hstands := start_stands.run g (before ++ after)
    obtain ⟨rest, hrest, hmoved⟩ := hstands.conserve g o (hstands.2 ▸ hl') op
    refine ⟨rest, ?_, ?_⟩
    · rw [← List.append_assoc, List.foldl_concat, (hstands.step g op).2]
      exact hrest
    · rw [historyFrom_concat, historyFrom_concat, List.append_assoc, hmoved, ← List.append_assoc,
        heq, List.append_assoc]

/-- An entry is written with a field and taken, another one is left. -/
theorem observers_conserve_taken :
    let g : Growth := ⟨fun _ need => need, fun _ _ => Nat.le_refl _⟩
    let ent : Entry := ⟨Level.info, zeroTime, [], [], ⟨false, [], 0, []⟩, []⟩
    let before : List (Op Bytes) := [.new (.level Level.info), .make [utf8 "a"], .withFields 0 0]
    let after : List (Op Bytes) := [.write 1 ent 0, .add 0, .takeAll 0, .write 0 ent 0, .add 0]
    ∃ rest, ((before ++ after).foldl (step g) start).view.observed[0]? = some rest ∧
      historyFrom (fun past => taken g 0 (past.foldl (step g) start)) before after ++ rest =
        [] ++ historyFrom (fun past => added 0 (past.foldl (step g) start)) before after := by
  intro g ent before after
  exact observers_conserve g 0 before after rfl

end Conserve

end Observers

end Zap.Zaptest
