import Zap.Data.Pool
import Zap.Data.Slice
import Zap.Zapcore.Core

/-!
# Checked entries and their pool

The object `CheckedEntry` of `zapcore/entry.go` with the pool it is taken from. In `Core` a
`CheckedEntry` is a value that `AddCore` makes when there is none; here it is an object in memory,
which `Write` puts back into the pool as it is, with its hooks and its cores, and which `reset`
has to clear before it is used again.

A core is anything that can be written to, and `Callees` says what comes of the calls.
-/

set_option autoImplicit false

namespace Zap.Zapcore

open Data

/-- `CheckPreWriteHook`. -/
abbrev CheckPreWriteHook (F : Type) := Entry → List F → Entry × List F

/-- `Entry{}`. -/
def Entry.zero : Entry where
  level := 0
  time := ⟨-62135596800, 0, Location.utc, by decide⟩
  loggerName := []
  message := []
  caller := ⟨false, [], 0, []⟩
  stack := []

/-- A `CheckedEntry` in memory. Where a slice holds `nil`, the element is `none`. -/
structure PooledEntry (κ F : Type) where
  entry : Entry
  errorOutput : Option Nat
  dirty : Bool
  after : Option CheckWriteHook
  cores : Slice (Option κ)
  before : Slice (Option (CheckPreWriteHook F))

/-- What a `CheckedEntry` calls, and what becomes of the outside `W`: `Write` of a core, a message
to an error output with the `Sync` that follows, and `OnWrite`. -/
structure Callees (κ F W : Type) where
  write : κ → Entry → List F → W → Errors × W
  report : Nat → Report → W → W
  onWrite : CheckWriteHook → Entry → List F → W → W

namespace PooledEntry

variable {κ F W : Type}

/-- What the pool makes when it is empty: room for four cores. -/
def new : PooledEntry κ F :=
  ⟨Entry.zero, none, false, none, .ofList [none, none, none, none], .ofList []⟩

/-- `reset`. -/
def reset (ce : PooledEntry κ F) : PooledEntry κ F where
  entry := Entry.zero
  errorOutput := none
  dirty := false
  after := none
  cores := (ce.cores.fill none).truncate
  before := (ce.before.fill none).truncate

/-- Tell the error output, if there is one. -/
def tell (ce : PooledEntry κ F) (callees : Callees κ F W) (r : Report) (w : W) : W :=
  match ce.errorOutput with
  | none => w
  | some out => callees.report out r w

/-- Call the hooks of `Before` in order. To call a hook that is `nil` is to panic. -/
def runBefore : List (Option (CheckPreWriteHook F)) → Entry → List F → Option (Entry × List F)
  | [], ent, fields => some (ent, fields)
  | none :: _, _, _ => none
  | some hook :: hooks, ent, fields => runBefore hooks (hook ent fields).1 (hook ent fields).2

/-- Write to the cores in order. To call a core that is `nil` is to panic. -/
def writeCores (callees : Callees κ F W) (ent : Entry) (fields : List F) :
    List (Option κ) → W → Option (Errors × W)
  | [], w => some ([], w)
  | none :: _, _ => none
  | some core :: cores, w => do
    let (err, w) := callees.write core ent fields w
    let (errs, w) ← writeCores callees ent fields cores w
    some (err ++ errs, w)

end PooledEntry

/-- The entries in memory and the pool of them, `_cePool`. -/
abbrev EntryPool (κ F : Type) := Pool (PooledEntry κ F)

namespace EntryPool

variable {κ F W : Type}

/-- `getCheckedEntry`. -/
def getCheckedEntry (p : EntryPool κ F) (pick : Nat) : Nat × EntryPool κ F :=
  let (r, p) := p.get pick .new
  (r, p.set r (p.object r).reset)

/-- `putCheckedEntry`. -/
def putCheckedEntry (p : EntryPool κ F) (r : Nat) : EntryPool κ F := p.put r

/-- The receiver of `AddCore`, `Before` or `After`, taken from the pool if it is `nil`. -/
def receiver (p : EntryPool κ F) (pick : Nat) (ce : Option Nat) (ent : Entry) :
    Nat × EntryPool κ F :=
  match ce with
  | some r => (r, p)
  | none =>
    let (r, p) := p.getCheckedEntry pick
    (r, p.set r { p.object r with entry := ent })

/-- `AddCore`. -/
def addCore (p : EntryPool κ F) (pick : Nat) (ce : Option Nat) (ent : Entry) (core : κ) :
    Nat × EntryPool κ F :=
  let (r, p) := p.receiver pick ce ent
  (r, p.set r { p.object r with cores := (p.object r).cores.push (some core) })

/-- `Before`. -/
def before (p : EntryPool κ F) (pick : Nat) (ce : Option Nat) (ent : Entry)
    (hook : CheckPreWriteHook F) : Nat × EntryPool κ F :=
  let (r, p) := p.receiver pick ce ent
  (r, p.set r { p.object r with before := (p.object r).before.push (some hook) })

/-- `After`. `Should` is `After` with one of the actions of this package. -/
def after (p : EntryPool κ F) (pick : Nat) (ce : Option Nat) (ent : Entry)
    (hook : CheckWriteHook) : Nat × EntryPool κ F :=
  let (r, p) := p.receiver pick ce ent
  (r, p.set r { p.object r with after := some hook })

/-- `Write`. It returns nothing if it panics at a hook or a core that is `nil`. The `CheckedEntry`
that `OnWrite` gets is the object, with the `Entry` it was made with. -/
def write (p : EntryPool κ F) (callees : Callees κ F W) (ce : Option Nat) (fields : List F) (w : W) :
    Option (EntryPool κ F × W) :=
  match ce with
  | none => some (p, w)
  | some r =>
    let ce := p.object r
    if ce.dirty then some (p, ce.tell callees (.reuse ce.entry) w)
    else do
      let p := p.set r { ce with dirty := true }
      let (ent, fields) ← PooledEntry.runBefore ce.before.toList ce.entry fields
      let (errs, w) ← PooledEntry.writeCores callees ent fields ce.cores.toList w
      let w := if errs = [] then w else ce.tell callees (.writeError ce.entry.time errs) w
      let w :=
        match ce.after with
        | none => w
        | some hook => callees.onWrite hook ce.entry fields w
      some (putCheckedEntry p r, w)

end EntryPool

end Zap.Zapcore
