import Zap.Laws.Denote
import Zap.Laws.IoCore
import Zap.Laws.Programs
import Zap.Laws.SlogTree
import Zap.Laws.Terminal

/-!
# Where attributes end up

Handlers that descend from one another share a core and its world. Each of them gives its core the
fields of its own chain of `WithGroup` and `WithAttrs`, and those of the record with `Write`
(`Handler.Hands`). `attrs_placed` says that for every core these fields mean a tree with every
attribute where it belongs, and that a core with the JSON encoder puts out this tree.
`empty_group_iff` says when the tree has an empty group.

The value of an attribute is that of `Value.items`. The laws say nothing of the line if a marshaler
in it panics.
-/

set_option autoImplicit false

namespace Zap.Zapslog

open Data Zapcore

/-! ## Handlers -/

variable {E : Type}

section

variable [Host]

theorem addAttrs_added (h : Handler E) (attrs : List Attr) (fields : List Zapcore.Field) :
    h.addAttrs attrs fields true = (fields ++ (attrs.map Piece.attr).map Piece.field, true) := by
  induction attrs generalizing fields with
  | nil => rw [Handler.addAttrs, List.map_nil, List.map_nil, List.append_nil]
  | cons attr attrs ih =>
    rw [Handler.addAttrs]
    show h.addAttrs attrs (fields ++ [convertAttrToField attr]) true = _
    rw [ih, List.append_assoc]
    rfl

/-- The loop over attributes makes the fields of the pieces. -/
theorem addAttrs_eq (h : Handler E) (attrs : List Attr) (fields : List Zapcore.Field) :
    h.addAttrs attrs fields false = (fields ++ (openFor h.groups attrs).map Piece.field,
      decide (h.groups.length > 0) && attrs.any Attr.present) := by
  induction attrs generalizing fields with
  | nil => rw [Handler.addAttrs, openFor, List.map_nil, List.append_nil, List.any_nil, Bool.and_false]
  | cons attr attrs ih =>
    have hskip : isSkip (convertAttrToField attr) = !attr.present := by
      cases attr with
      | mk key value => exact isSkip_convertValue key value
    rw [Handler.addAttrs, hskip, Bool.not_not, openFor, List.any_cons]
    cases hpresent : attr.present with
    | false =>
      rw [Bool.and_false, if_neg (by decide), if_neg (by decide), Bool.false_or, ih,
        List.append_assoc]
      rfl
    | true =>
      rw [if_pos rfl]
      by_cases hgroups : h.groups = []
      · rw [hgroups, if_neg (by decide), ih, hgroups, openFor_nil, List.append_assoc]
        rfl
      · have hlen : decide (h.groups.length > 0) = true :=
          decide_eq_true (List.length_pos_iff.mpr hgroups)
        have hnames : h.groups.map namespaceField = (h.groups.map Piece.group).map Piece.field := by
          rw [List.map_map]
          rfl
        rw [hlen, if_pos (by rfl), addAttrs_added, Handler.appendGroups, hnames, List.map_append,
          List.append_assoc, List.append_assoc]
        rfl

end

theorem newHandler_core (core : Core E Zapcore.Field true) (opts : List HandlerOption) :
    (newHandler core opts).core = core ∧ (newHandler core opts).groups = [] := by
  have hopts : ∀ h : Handler E, (opts.foldl HandlerOption.apply h).core = h.core ∧
      (opts.foldl HandlerOption.apply h).groups = h.groups := by
    induction opts with
    | nil => exact fun _ => ⟨rfl, rfl⟩
    | cons opt opts ih =>
      intro h
      rw [List.foldl_cons]
      cases opt <;> exact ih _
  exact hopts _

/-! ## Chains of calls -/

/-- A core that was made from another one by calls of `With`, with these fields. -/
inductive Withed [Encoder E Zapcore.Field] (core₀ : Core E Zapcore.Field true) :
    List (List Zapcore.Field) → Core E Zapcore.Field true → Prop
  | new : Withed core₀ [] core₀
  | withFields {contexts : List (List Zapcore.Field)} {core : Core E Zapcore.Field true}
      (fields : List Zapcore.Field) (w : World E Zapcore.Field) :
      Withed core₀ contexts core →
        Withed core₀ (contexts ++ [fields]) (core.withFields fields w).1.lift

/-- A handler and the calls it comes from. The chain is history that no handler reads. -/
structure Descendant (E : Type) where
  handler : Handler E
  chain : List Link

section

variable [Host] [Encoder E Zapcore.Field]

/-- A handler is as its chain says: its core has the fields of the pieces of the chain, and the
names that no attribute came after are waiting. -/
structure Follows (core₀ : Core E Zapcore.Field true) (m : Descendant E) : Prop where
  groups : m.handler.groups = waiting [] m.chain
  core : ∃ contexts, Withed core₀ contexts m.handler.core ∧
    contexts.flatten = (piecesOf [] m.chain).map Piece.field

/-- The fields that `Handle` gives to `Write` are those of the pieces of the record. -/
theorem Follows.fields {core₀ : Core E Zapcore.Field true} {m : Descendant E} (h : Follows core₀ m)
    (attrs : List Attr) :
    (m.handler.addAttrs attrs [] false).1 =
      (piecesOf (waiting [] m.chain) [.attrs attrs]).map Piece.field := by
  rw [addAttrs_eq, h.groups, piecesOf, piecesOf, List.append_nil]
  rfl

theorem Follows.withGroup {core₀ : Core E Zapcore.Field true} {m : Descendant E}
    (h : Follows core₀ m) (name : Bytes) :
    Follows core₀ ⟨m.handler.withGroup name, m.chain ++ [.group name]⟩ := by
  obtain ⟨contexts, hcore, hfields⟩ := h.core
  have hname : m.handler.withGroup name = { m.handler with
      groups := if name = [] then m.handler.groups else m.handler.groups ++ [name] } := by
    rw [Handler.withGroup]
    split <;> rfl
  refine ⟨?_, contexts, ?_, ?_⟩
  · rw [hname, waiting_append, ← h.groups]
    rfl
  · rw [hname]
    exact hcore
  · rw [piecesOf_append, hfields, piecesOf, piecesOf, List.append_nil]

theorem Follows.withAttrs {core₀ : Core E Zapcore.Field true} {m : Descendant E}
    (h : Follows core₀ m) (attrs : List Attr) (w : World E Zapcore.Field) :
    Follows core₀ ⟨(m.handler.withAttrs attrs w).1, m.chain ++ [.attrs attrs]⟩ := by
  obtain ⟨contexts, hcore, hfields⟩ := h.core
  refine ⟨?_, _, hcore.withFields (m.handler.addAttrs attrs [] false).1 w, ?_⟩
  · rw [waiting_append, ← h.groups]
    show (if (m.handler.addAttrs attrs [] false).2 then [] else m.handler.groups) =
      if attrs.any Attr.present then [] else m.handler.groups
    rw [addAttrs_eq]
    by_cases hgroups : m.handler.groups = []
    · rw [hgroups, ite_self, ite_self]
    · rw [decide_eq_true (List.length_pos_iff.mpr hgroups), Bool.true_and]
  · rw [List.flatten_append, hfields, h.fields, piecesOf_append, List.map_append]
    simp only [List.flatten_cons, List.flatten_nil, List.append_nil]

/-- The fields that the core of a handler was given, and those of a record, mean the tree of the
chain and the record. -/
theorem Follows.meaning {core₀ : Core E Zapcore.Field true} {m : Descendant E}
    (h : Follows core₀ m) (attrs : List Attr) :
    ∃ contexts, Withed core₀ contexts m.handler.core ∧ ∀ cfg,
      meaning cfg (addFields (contexts.flatten ++ (m.handler.addAttrs attrs [] false).1)) =
        renderAll cfg (treeOf [] (m.chain ++ [.attrs attrs])) := by
  obtain ⟨contexts, hcore, hfields⟩ := h.core
  refine ⟨contexts, hcore, fun cfg => ?_⟩
  rw [hfields, h.fields, ← List.map_append, ← piecesOf_append, meaning_pieces]
  rfl

end

/-! ## Families of handlers -/

/-- Handlers that descend from one, and what their cores share. -/
structure Family (E : Type) where
  members : List (Descendant E)
  world : World E Zapcore.Field

/-- A call of a method of one of the handlers. -/
inductive Op where
  | withGroup (i : Nat) (name : Bytes)
  | withAttrs (i : Nat) (attrs : List Attr)
  | handle (i : Nat) (record : Record)

section

variable [Host] [Callers] [Encoder E Zapcore.Field] [Environment E Zapcore.Field]

namespace Family

/-- Make the call. A handler that is made is a new member; the old ones stay. -/
def step (fam : Family E) : Op → Family E
  | .withGroup i name =>
    match fam.members[i]? with
    | none => fam
    | some m =>
      { fam with members := fam.members ++ [⟨m.handler.withGroup name, m.chain ++ [.group name]⟩] }
  | .withAttrs i attrs =>
    match fam.members[i]? with
    | none => fam
    | some m =>
      let (handler, world) := m.handler.withAttrs attrs fam.world
      ⟨fam.members ++ [⟨handler, m.chain ++ [.attrs attrs]⟩], world⟩
  | .handle i record =>
    match fam.members[i]? with
    | none => fam
    | some m => { fam with world := m.handler.handle record fam.world }

def run (fam : Family E) (ops : List Op) : Family E := ops.foldl step fam

/-- A family of one. -/
def new (core : Core E Zapcore.Field true) (opts : List HandlerOption)
    (world : World E Zapcore.Field) : Family E :=
  ⟨[⟨newHandler core opts, []⟩], world⟩

end Family

/-- One call leaves every handler as its chain says. -/
theorem Family.step_follows {core₀ : Core E Zapcore.Field true} {fam : Family E}
    (h : ∀ m ∈ fam.members, Follows core₀ m) (op : Op) :
    ∀ m ∈ (fam.step op).members, Follows core₀ m := by
  have hnew : ∀ {d : Descendant E}, Follows core₀ d →
      ∀ m ∈ fam.members ++ [d], Follows core₀ m := by
    intro d hd m hm
    rcases List.mem_append.mp hm with hm | hm
    · exact h m hm
    · rw [List.mem_singleton.mp hm]
      exact hd
  cases op with
  | withGroup i name =>
    rw [step]
    split
    · exact h
    · next m hm => exact hnew ((h m (List.mem_of_getElem? hm)).withGroup name)
  | withAttrs i attrs =>
    rw [step]
    split
    · exact h
    · next m hm => exact hnew ((h m (List.mem_of_getElem? hm)).withAttrs attrs fam.world)
  | handle i record =>
    rw [step]
    split
    · exact h
    · exact h

/-- After any calls every handler is as its chain says. -/
theorem Family.run_follows (core : Core E Zapcore.Field true) (opts : List HandlerOption)
    (w : World E Zapcore.Field) (ops : List Op) :
    ∀ m ∈ ((Family.new core opts w).run ops).members, Follows core m := by
  have hrun : ∀ {fam : Family E}, (∀ m ∈ fam.members, Follows core m) →
      ∀ m ∈ (fam.run ops).members, Follows core m := by
    induction ops with
    | nil => exact fun h => h
    | cons op ops ih => exact fun h => ih (step_follows h op)
  refine hrun fun m hm => ?_
  obtain ⟨hcore, hgroups⟩ := newHandler_core core opts
  rw [List.mem_singleton.mp hm]
  refine ⟨hgroups, [], ?_, rfl⟩
  show Withed core [] (newHandler core opts).core
  rw [hcore]
  exact .new

end

/-! ## What `Handle` gives to `Write` -/

section

variable [Host] [Callers] [Encoder E Zapcore.Field] [Environment E Zapcore.Field]

/-- The core of the handler was made from `core₀` by `With` with `contexts`, and `Handle` calls `Write`
with `fields` and the entry of the record, of some leaves if the core takes the entry, and of none if it
does not. -/
structure Handler.Hands (core₀ : Core E Zapcore.Field true) (h : Handler E) (record : Record)
    (w : World E Zapcore.Field) (contexts : List (List Zapcore.Field)) (fields : List Zapcore.Field) :
    Prop where
  core : Withed core₀ contexts h.core
  writes : ∃ leaves, writesOf (h.handle record w).trace = writesOf w.trace ++
      leaves.map (fun leaf => (leaf, h.annotate record (h.entry record), fields)) ∧
    (leaves ≠ [] ↔ (h.core.check (h.entry record) none w).1.isSome = true)

/-- The loop over the attributes of the record makes the fields of the `Write` call. -/
theorem handle_writes (h : Handler E) (record : Record) (w : World E Zapcore.Field) :
    ∃ leaves, writesOf (h.handle record w).trace = writesOf w.trace ++
        leaves.map (fun leaf => (leaf, h.annotate record (h.entry record),
          (h.addAttrs record.attrs [] false).1)) ∧
      (leaves ≠ [] ↔ (h.core.check (h.entry record) none w).1.isSome = true) := by
  obtain ⟨⟨regs, hregs⟩, _⟩ := h.core.check_quietly (h.entry record) none w
  obtain ⟨hleafy, htrace⟩ := h.core.check_leafy (h.entry record) none w leafy_none
  have hshape := hregs.of_none
  rw [Handler.handle]
  generalize h.core.check (h.entry record) none w = r at htrace hleafy hshape
  obtain ⟨ce, w'⟩ := r
  rcases hshape with ⟨rfl, _⟩ | ⟨cores, rfl, hcores⟩
  · refine ⟨[], htrace.trans (List.append_nil _).symm, ?_⟩
    exact iff_of_false (fun hne => hne rfl) Bool.false_ne_true
  · refine ⟨regs.filterMap Kind.toLeaf, ?_, iff_of_true ((hasLeaf_iff hcores).mp (hleafy _ rfl)) rfl⟩
    refine (CheckedEntry.writesOf_write rfl rfl _ w').trans ?_
    exact ((writeCores_calls _ _ hcores w').writes).trans (congrArg (· ++ _) htrace)

/-- `Handle` of every member of a family, at any time. -/
theorem Follows.hands {core₀ : Core E Zapcore.Field true} {m : Descendant E} (h : Follows core₀ m)
    (record : Record) (w : World E Zapcore.Field) :
    ∃ contexts fields, m.handler.Hands core₀ record w contexts fields ∧ ∀ cfg,
      Zapcore.meaning cfg (addFields (contexts.flatten ++ fields)) =
        renderAll cfg (treeOf [] (m.chain ++ [.attrs record.attrs])) := by
  obtain ⟨contexts, hcore, hmeaning⟩ := h.meaning record.attrs
  exact ⟨contexts, _, ⟨hcore, handle_writes m.handler record w⟩, hmeaning⟩

end

/-! ## Output -/

theorem Withed.io [Encoder E Zapcore.Field] {c : IoCore E} {contexts : List (List Zapcore.Field)}
    {core : Core E Zapcore.Field true} (h : Withed (.io c) contexts core) :
    core = .io (contexts.foldl IoCore.withFields c) := by
  induction h with
  | new => rfl
  | withFields fields w _ ih =>
    rw [ih, Core.withFields_io, List.foldl_append]
    rfl

/-- An entry that one `ioCore` has agreed to log goes to it. Nobody is told of errors. -/
theorem write_io [Encoder E Zapcore.Field] [Environment E Zapcore.Field] (core : IoCore E)
    (ent ent' : Entry) (fields : List Zapcore.Field) (w : World E Zapcore.Field) :
    CheckedEntry.write
        (some { CheckedEntry.addCore none ent (.io core : Core E Zapcore.Field true) with
          entry := ent' }) fields w =
      (core.write ent' fields w).2 := by
  show (if (core.write ent' fields w).1 ++ [] = [] then (core.write ent' fields w).2
    else (core.write ent' fields w).2) = _
  exact ite_self _

section

variable [Host] [Callers]

/-- What `Handle` puts out when the core is an `ioCore` with fields in its context. -/
theorem handle_outputs [FieldEncoder E] [Environment (Option E) Zapcore.Field]
    (h : Handler (Option E)) {level : LevelEnabler} {enc : E} {out : Nat}
    {contexts : List (List Zapcore.Field)}
    (hcore : h.core = .io (contexts.foldl IoCore.withFields ⟨level, some enc, out⟩))
    (record : Record) (w : World (Option E) Zapcore.Field) :
    outputsOf (h.handle record w).trace = outputsOf w.trace ++
      if level.enabled (convertSlogLevel record.level) then
        (FieldEncoder.encodeEntry enc (h.annotate record (h.entry record))
          (contexts.flatten ++ (h.addAttrs record.attrs [] false).1)).toList.map fun buf => (out, buf)
      else [] := by
  have hcheck : h.core.check (h.entry record) none w =
      if level.enabled (convertSlogLevel record.level) then
        (some (CheckedEntry.addCore none (h.entry record) h.core), w) else (none, w) := by
    rw [hcore, Core.check_io, Core.foldl_level]
    rfl
  rw [Handler.handle, hcheck]
  cases level.enabled (convertSlogLevel record.level) with
  | false => exact (List.append_nil _).symm
  | true =>
    rw [if_pos rfl, if_pos rfl, hcore]
    show outputsOf (CheckedEntry.write (some { CheckedEntry.addCore none (h.entry record) _ with
      entry := h.annotate record (h.entry record) }) _ w).trace = _
    rw [write_io, withs_write_outputs]

/-- A core with the JSON encoder puts out the tree of the chain and the record, between the
metadata and the stack trace. -/
theorem Follows.handle_json [Environment (Option JsonEncoder) Zapcore.Field] {cfg : EncoderConfig}
    (hproper : cfg.Proper) {level : LevelEnabler} {out : Nat} {m : Descendant (Option JsonEncoder)}
    (h : Follows (newCore (some (newJSONEncoder cfg false)) out level) m) (record : Record)
    (w : World (Option JsonEncoder) Zapcore.Field)
    (henabled : level.enabled (convertSlogLevel record.level) = true)
    {members : List (Bytes × Json)}
    (hmembers : renderAll cfg (treeOf [] (m.chain ++ [.attrs record.attrs])) = some members) :
    ∃ ms text, metadata cfg (m.handler.annotate record (m.handler.entry record)) = some ms ∧
      outputsOf (m.handler.handle record w).trace =
        outputsOf w.trace ++ [(out, text ++ cfg.effectiveLineEnding)] ∧
      Json.parse text = some (.obj (ms.map memberJson ++ members ++
        (stackMember cfg (m.handler.annotate record (m.handler.entry record))).map memberJson)) := by
  obtain ⟨contexts, hcore, hmeaning⟩ := h.meaning record.attrs
  obtain ⟨⟨is, err⟩, hfields, hnest⟩ :=
    Option.map_eq_some_iff.mp ((hmeaning cfg).trans hmembers)
  have hnone : denote cfg (addFields []) = some ([], none) := rfl
  obtain ⟨enc, ms, text, henc, hline, hms, hparse⟩ := encodeEntry_denote hproper
    (m.handler.annotate record (m.handler.entry record)) hnone hfields
  cases henc
  refine ⟨ms, text, hms, ?_, ?_⟩
  · rw [handle_outputs m.handler hcore.io, if_pos henabled]
    show _ ++ (JsonEncoder.encodeEntry _ _ _).toList.map _ = _
    rw [hline]
    rfl
  · rw [hparse, ← hnest]
    rfl

/-- Attributes are under the groups that were open when they were added. Take any handler that
descends from `NewHandler(core)`, by any calls on it and on its relatives, and any record. The
fields that its core was given by `With` and those that `Handle` gives to `Write` mean a tree whose
leaves are the attributes of the handler's own chain and of the record, in order, each where it
belongs, with its value. With the JSON encoder in the core that tree is in the line that `Handle` puts
out. -/
theorem attrs_placed :
    (∀ {E : Type} [Encoder E Zapcore.Field] [Environment E Zapcore.Field]
        (core : Core E Zapcore.Field true) (opts : List HandlerOption) (w w' : World E Zapcore.Field)
        (ops : List Op), ∀ m ∈ ((Family.new core opts w).run ops).members, ∀ record : Record,
      let chain := m.chain ++ [.attrs record.attrs]
      leavesAll [] (treeOf [] chain) = placements [] chain ∧
        ∃ contexts fields, m.handler.Hands core record w' contexts fields ∧ ∀ cfg,
          meaning cfg (addFields (contexts.flatten ++ fields)) = renderAll cfg (treeOf [] chain)) ∧
    (∀ [Environment (Option JsonEncoder) Zapcore.Field] {cfg : EncoderConfig}, cfg.Proper →
      ∀ (level : LevelEnabler) (out : Nat) (opts : List HandlerOption)
        (w w' : World (Option JsonEncoder) Zapcore.Field) (ops : List Op),
      let core := newCore (some (newJSONEncoder cfg false)) out level
      ∀ m ∈ ((Family.new core opts w).run ops).members, ∀ (record : Record)
        (members : List (Bytes × Json)),
      let ent := m.handler.annotate record (m.handler.entry record)
      level.enabled (convertSlogLevel record.level) = true →
      renderAll cfg (treeOf [] (m.chain ++ [.attrs record.attrs])) = some members →
        ∃ ms text, metadata cfg ent = some ms ∧
          outputsOf (m.handler.handle record w').trace =
            outputsOf w'.trace ++ [(out, text ++ cfg.effectiveLineEnding)] ∧
          Json.parse text = some (.obj (ms.map memberJson ++ members ++
            (stackMember cfg ent).map memberJson))) := by
  constructor
  · intro E _ _ core opts w w' ops m hm record chain
    exact ⟨leaves_treeOf [] [] chain, (Family.run_follows core opts w ops m hm).hands record w'⟩
  · intro _ cfg hproper level out opts w w' ops core m hm record members ent henabled hmembers
    exact (Family.run_follows core opts w ops m hm).handle_json hproper record w' henabled hmembers

end

/-- A record at the info level. -/
def hello (attrs : List Attr) : Record :=
  ⟨Time.ofUnixNano 0 Location.utc, utf8 "hello", levelInfo, 0, attrs⟩

/-- A process that knows no callers. -/
abbrev Callers.unknown : Callers := ⟨fun _ => ⟨0, [], 0, []⟩, fun _ => []⟩

/-- Two handlers with attributes share the group that is open in both. -/
theorem attrs_placed_branches :
    let _ : Host := ⟨Location.utc⟩
    let _ := Callers.unknown
    let _ := Environment.reliable (Option JsonEncoder) Zapcore.Field
    let core := newCore (some (newJSONEncoder newDevelopmentEncoderConfig false)) 0 (.level Level.info)
    let fam := (Family.new core [] World.start).run
      [.withGroup 0 (utf8 "G"), .withAttrs 1 [.mk (utf8 "x") (.bool true)],
        .withAttrs 1 [.mk (utf8 "z") (.bool true)]]
    let record := hello [.mk (utf8 "H") (.group [.mk (utf8 "y") (.bool false)])]
    ∃ m ∈ fam.members, ∃ text,
      outputsOf (m.handler.handle record World.start).trace = [(0, text ++ [0x0A])] ∧
      Json.parse text = some (.obj [
        (utf8 "L", .str (utf8 "INFO")),
        (utf8 "T", .str (utf8 "1970-01-01T00:00:00.000Z")),
        (utf8 "M", .str (utf8 "hello")),
        (utf8 "G", .obj [
          (utf8 "x", .bool true),
          (utf8 "H", .obj [(utf8 "y", .bool false)])])]) := by
  intro _ _ _ core fam record
  obtain ⟨m, hm, hent, hmembers⟩ : ∃ m, fam.members[2]? = some m ∧
      m.handler.annotate record (m.handler.entry record) = greeting ∧
      renderAll newDevelopmentEncoderConfig (treeOf [] (m.chain ++ [.attrs record.attrs])) =
        some [(utf8 "G", .obj [(utf8 "x", .bool true), (utf8 "H", .obj [(utf8 "y", .bool false)])])] :=
    ⟨_, rfl, rfl, rfl⟩
  obtain ⟨ms, text, hms, hout, hparse⟩ := attrs_placed.2 newDevelopmentEncoderConfig_proper
    (.level Level.info) 0 [] World.start World.start _ m (List.mem_of_getElem? hm) record _ rfl hmembers
  rw [hent] at hms hparse
  cases hms
  exact ⟨m, List.mem_of_getElem? hm, text, hout, hparse⟩

/-! ## Empty groups -/

/-- No group of `slog` is empty in what the fields of a `Write` call of `Handle` mean, behind those
that the core was given by `With`, exactly if every group has something in it: every group with a key
in an attribute, and every name given to `WithGroup` behind which there is an attribute other than the
zero one. The handler looks no further than at that attribute, which may be a group without a key that
has nothing in it, and it looks into no group. -/
theorem empty_group_iff [Host] [Callers] [Encoder E Zapcore.Field] [Environment E Zapcore.Field]
    (core : Core E Zapcore.Field true) (opts : List HandlerOption) (w w' : World E Zapcore.Field)
    (ops : List Op) (m : Descendant E) (hm : m ∈ ((Family.new core opts w).run ops).members)
    (record : Record) :
    let chain := m.chain ++ [.attrs record.attrs]
    ∃ contexts fields, m.handler.Hands core record w' contexts fields ∧ ∀ cfg,
      meaning cfg (addFields (contexts.flatten ++ fields)) = renderAll cfg (treeOf [] chain) ∧
        (NoneEmptyAll cfg (treeOf [] chain) ↔ fillsGroups chain = true) := by
  intro chain
  obtain ⟨contexts, fields, hands, hmeaning⟩ :=
    (Family.run_follows core opts w ops m hm).hands record w'
  refine ⟨contexts, fields, hands, fun cfg =>
    ⟨hmeaning cfg, (noneEmpty_treeOf [] chain).trans ?_⟩⟩
  exact and_iff_right fun hne => absurd rfl hne

theorem empty_group_iff_hello :
    let _ : Host := ⟨Location.utc⟩
    let _ := Callers.unknown
    let _ := Environment.reliable (Option JsonEncoder) Zapcore.Field
    let cfg := newProductionEncoderConfig
    let core := newCore (some (newJSONEncoder cfg false)) 0 (.level Level.info)
    let record := hello [.mk [] (.group [.mk (utf8 "x") (.bool true)])]
    ∃ m ∈ ((Family.new core [] World.start).run [.withGroup 0 (utf8 "G")]).members,
      ∃ contexts fields, m.handler.Hands core record World.start contexts fields ∧
        m.chain = [.group (utf8 "G")] ∧
        NoneEmptyAll cfg (treeOf [] (m.chain ++ [.attrs record.attrs])) := by
  intro _ _ _ cfg core record
  have hm : ((Family.new core [] World.start).run [.withGroup 0 (utf8 "G")]).members[1]? = some _ :=
    rfl
  obtain ⟨contexts, fields, hands, h⟩ := empty_group_iff core [] World.start World.start _ _
    (List.mem_of_getElem? hm) record
  exact ⟨_, List.mem_of_getElem? hm, contexts, fields, hands, rfl, (h cfg).2.mpr rfl⟩

/-- A group without attributes, given to `With`, is logged. So is a name given to `WithGroup` when
a group without a key and without attributes comes after it. -/
theorem empty_group_logged :
    let _ : Host := ⟨Location.utc⟩
    let _ := Callers.unknown
    let _ := Environment.reliable (Option JsonEncoder) Zapcore.Field
    let cfg := { newProductionEncoderConfig with levelKey := [], timeKey := [] }
    let core := newCore (some (newJSONEncoder cfg false)) 0 (.level Level.info)
    outputsOf ((Family.new core [] World.start).run
        [.withAttrs 0 [.mk (utf8 "g") (.group [])], .handle 1 (hello []),
          .withGroup 0 (utf8 "G"), .withAttrs 2 [.mk [] (.group [])], .handle 3 (hello [])]).world.trace =
      [(0, utf8 "\x7b\"msg\":\"hello\",\"g\":\x7b\x7d\x7d\n"),
        (0, utf8 "\x7b\"msg\":\"hello\",\"G\":\x7b\x7d\x7d\n")] := by
  decide

end Zap.Zapslog
