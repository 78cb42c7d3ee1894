import Mathlib.Data.List.Infix
import Zap.Data.Arrays
import Zap.Zapcore.Core
import Zap.Zapcore.FieldEquals

/-!
# Observed logs

`zaptest/observer`: a core that keeps entries in memory, and the logs that it keeps them in. Logs,
cores and what their users get are slices, many of which share arrays: a derived core has the context
of the core it comes from, `TakeAll` gives the slice of the logs away, the entries of two results
share their contexts.

`Op` is what goroutines do with them. Each operation is one critical section, or touches no memory
that anybody else writes to, so that a list of operations is any interleaving; only `Write` is two,
since it collects the fields before it asks for the lock. Nobody writes to an element of the context
of an entry: `All`, `TakeAll`, `AllUntimed` and `Filter` copy the entries and not their contexts, so
`all[0].Context[0] = f` would be seen in the logs and in every other result.
-/

set_option autoImplicit false

namespace Zap.Zaptest

open Data Zapcore

/-- `time.Time{}`. -/
def zeroTime : Time := ⟨-62135596800, 0, .utc, Nat.zero_lt_succ _⟩

structure LoggedEntry where
  entry : Entry
  context : SliceHeader

instance : Inhabited LoggedEntry :=
  ⟨⟨⟨0, zeroTime, [], [], ⟨false, [], 0, []⟩, []⟩, .empty⟩⟩

/-- What a user sees of a logged entry: the entry and its fields. -/
def LoggedEntry.value {F : Type} (m : Arrays F) (e : LoggedEntry) : Entry × List F :=
  (e.entry, m.read e.context)

/-- `ret[i].Time = time.Time{}`. -/
def LoggedEntry.untimed (e : LoggedEntry) : LoggedEntry :=
  { e with entry := { e.entry with time := zeroTime } }

structure ContextObserver where
  level : LevelEnabler
  logs : Nat
  context : SliceHeader

/-! ## The methods of `ObservedLogs` -/

namespace ObservedLogs

variable {F : Type} (g : Growth) (m : Arrays LoggedEntry) (logs : SliceHeader)

/-- `o.All()`. -/
def all : Arrays LoggedEntry × SliceHeader :=
  let r := m.makeLen logs.len
  (r.1.copy r.2 (r.1.read logs), r.2)

/-- `o.AllUntimed()`. -/
def allUntimed : Arrays LoggedEntry × SliceHeader :=
  let r := all m logs
  (r.1.updateAt r.2 LoggedEntry.untimed (List.range r.2.len), r.2)

/-- `o.add(log)`. -/
def add (log : LoggedEntry) : Arrays LoggedEntry × SliceHeader := m.append g logs [log]

/-- The loop of `Filter`. `keep` may panic. -/
def filterLoop (fields : Arrays F) (keep : Entry × List F → Option Bool) :
    List LoggedEntry → Arrays LoggedEntry × SliceHeader → Option (Arrays LoggedEntry × SliceHeader)
  | [], r => some r
  | entry :: entries, r => do
    if ← keep (entry.value fields) then filterLoop fields keep entries (r.1.append g r.2 [entry])
    else filterLoop fields keep entries r

/-- `o.Filter(keep)`: the slice of the new logs. -/
def filter (fields : Arrays F) (keep : Entry × List F → Option Bool) :
    Option (Arrays LoggedEntry × SliceHeader) :=
  filterLoop g fields keep (m.read logs) (m, .empty)

end ObservedLogs

/-! ### What the filters keep -/

section Filters

variable {F : Type}

/-- `FilterLevelExact`. -/
def filterLevelExact (level : Level) (e : Entry × List F) : Option Bool := some (e.1.level == level)

/-- `FilterMessage`. -/
def filterMessage (msg : Bytes) (e : Entry × List F) : Option Bool := some (e.1.message == msg)

/-- `FilterLoggerName`. -/
def filterLoggerName (name : Bytes) (e : Entry × List F) : Option Bool :=
  some (e.1.loggerName == name)

/-- `FilterMessageSnippet`. -/
def filterMessageSnippet (snippet : Bytes) (e : Entry × List F) : Option Bool :=
  some (decide (snippet <:+: e.1.message))

/-- `FilterField`, which panics if `Equals` does. -/
def filterField (rt : Runtime) (field : StoredField) (e : Entry × List StoredField) :
    Option Bool :=
  e.2.foldr (fun ctxField rest => do if ← ctxField.equals rt field then some true else rest)
    (some false)

/-- `FilterFieldKey`. -/
def filterFieldKey (key : Bytes) (e : Entry × List StoredField) : Option Bool :=
  some (e.2.any fun ctxField => ctxField.key == key)

end Filters

/-! ## The methods of `contextObserver` -/

namespace ContextObserver

variable {F : Type} [Inhabited F] (g : Growth) (m : Arrays F) (co : ContextObserver)

/-- `co.Check(ent, ce)`: whether it adds the core to `ce`. -/
def check (ent : Entry) : Bool := co.level.enabled ent.level

/-- `co.With(fields)`. -/
def withFields (fields : SliceHeader) : Arrays F × ContextObserver :=
  let r := m.append g co.context.clip (m.read fields)
  (r.1, ⟨co.level, co.logs, r.2⟩)

/-- `co.Write(ent, fields)` up to the call of `add`. -/
def collect (ent : Entry) (fields : SliceHeader) : Arrays F × LoggedEntry :=
  let all := m.make 0 (fields.len + co.context.len) (Nat.zero_le _)
  let all := all.1.append g all.2 (all.1.read co.context)
  let all := all.1.append g all.2 (all.1.read fields)
  (all.1, ⟨ent, all.2⟩)

end ContextObserver

/-! ## Programs -/

/-- Memory, and what the goroutines hold: slices of fields of their own, cores, entries that they are
about to add, and the slices that they have got from logs. Logs are known by their address. -/
structure Observers (F : Type) where
  fields : Arrays F
  entries : Arrays LoggedEntry
  observed : List SliceHeader
  callers : List SliceHeader
  cores : List ContextObserver
  writes : List (Nat × LoggedEntry)
  results : List SliceHeader

/-- What goroutines do. The numbers say with which of the things that they hold. They write to their own
slices of fields and to the entries of results, not to the contexts of entries. -/
inductive Op (F : Type) where
  /-- A caller makes a slice of fields. -/
  | make (fields : List F)
  /-- A caller writes into its slice of fields. -/
  | set (caller i : Nat) (field : F)
  | new (level : LevelEnabler)
  | withFields (core caller : Nat)
  /-- `Check`, and the part of `Write` that needs no lock. -/
  | write (core : Nat) (ent : Entry) (caller : Nat)
  /-- The part of `Write` that holds the lock. -/
  | add (write : Nat)
  | all (logs : Nat)
  | takeAll (logs : Nat)
  | allUntimed (logs : Nat)
  | filter (logs : Nat) (keep : Entry × List F → Option Bool)
  /-- A user overwrites an entry of a result by an entry of a result. -/
  | put (result i source j : Nat)
  /-- A user appends an entry of a result to a result. -/
  | extend (result source j : Nat)

namespace Observers

variable {F : Type}

def start : Observers F := ⟨.empty, .empty, [], [], [], [], []⟩

/-- The entry of a result. -/
def entryOf (st : Observers F) (result i : Nat) : Option LoggedEntry :=
  st.results[result]?.bind fun s => (st.entries.read s)[i]?

/-- A new result. -/
def give (st : Observers F) (r : Arrays LoggedEntry × SliceHeader) : Observers F :=
  { st with entries := r.1, results := st.results ++ [r.2] }

variable [Inhabited F]

def step (g : Growth) (st : Observers F) : Op F → Observers F
  | .make fields =>
    let r := st.fields.makeLen fields.length
    { st with fields := r.1.copy r.2 fields, callers := st.callers ++ [r.2] }
  | .set caller i field =>
    match st.callers[caller]? with
    | some s => { st with fields := st.fields.set s i field }
    | none => st
  | .new level =>
    { st with
      observed := st.observed ++ [.empty]
      cores := st.cores ++ [⟨level, st.observed.length, .empty⟩] }
  | .withFields core caller =>
    match st.cores[core]?, st.callers[caller]? with
    | some co, some s =>
      let r := co.withFields g st.fields s
      { st with fields := r.1, cores := st.cores ++ [r.2] }
    | _, _ => st
  | .write core ent caller =>
    match st.cores[core]?, st.callers[caller]? with
    | some co, some s =>
      if co.check ent then
        let r := co.collect g st.fields ent s
        { st with fields := r.1, writes := st.writes ++ [(co.logs, r.2)] }
      else st
    | _, _ => st
  | .add write =>
    match st.writes[write]? with
    | some (o, log) =>
      match st.observed[o]? with
      | some logs =>
        let r := ObservedLogs.add g st.entries logs log
        { st with
          entries := r.1
          observed := st.observed.set o r.2
          writes := st.writes.eraseIdx write }
      | none => st
    | none => st
  | .all o =>
    match st.observed[o]? with
    | some logs => st.give (ObservedLogs.all st.entries logs)
    | none => st
  | .takeAll o =>
    match st.observed[o]? with
    | some logs => { st.give (st.entries, logs) with observed := st.observed.set o .empty }
    | none => st
  | .allUntimed o =>
    match st.observed[o]? with
    | some logs => st.give (ObservedLogs.allUntimed st.entries logs)
    | none => st
  | .filter o keep =>
    match st.observed[o]? with
    | some logs =>
      match ObservedLogs.filter g st.entries logs st.fields keep with
      | some r => { st with entries := r.1, observed := st.observed ++ [r.2] }
      | none => st
    | none => st
  | .put result i source j =>
    match st.results[result]?, st.entryOf source j with
    | some s, some e => { st with entries := st.entries.set s i e }
    | _, _ => st
  | .extend result source j =>
    match st.results[result]?, st.entryOf source j with
    | some s, some e =>
      let r := st.entries.append g s [e]
      { st with entries := r.1, results := st.results.set result r.2 }
    | _, _ => st

end Observers

end Zap.Zaptest
