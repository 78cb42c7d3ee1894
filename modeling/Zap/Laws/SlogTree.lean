import Zap.Laws.Flat
import Zap.Laws.SlogValues

/-!
# Attributes and groups as a tree

What an entry of a handler looks like is a tree: attributes, and groups with a key around them. A
group comes from a value that is a group, or from a name given to `WithGroup`. `meaning_pieces` says
that fields in the order in which handlers make them mean a tree to the JSON encoder, and
`leaves_treeOf` that its attributes are those of the chain of calls, in order, each under the groups
that were open when it was added. A group of the tree may be empty; `noneEmpty_treeOf` says when
none is.
-/

set_option autoImplicit false

namespace Zap.Zapslog

open Data Zapcore

/-! ## Chains -/

/-- A call on the way from `NewHandler` to a handler. The attributes of a record are the last
link. -/
inductive Link where
  | group (name : Bytes)
  | attrs (attrs : List Attr)

/-- An attribute that is not a group, and the groups that it belongs under. -/
structure Placement where
  path : List Bytes
  key : Bytes
  value : Value

mutual
/-- The attributes that one attribute stands for. A group without a key has none of its own. -/
def place (path : List Bytes) (key : Bytes) : Value → List Placement
  | .group attrs => placeAll (if key = [] then path else path ++ [key]) attrs
  | .logValuer resolved => place path key resolved
  | value => if key = [] ∧ value.isZero then [] else [⟨path, key, value⟩]
def placeAll (path : List Bytes) : List Attr → List Placement
  | [] => []
  | .mk key value :: attrs => place path key value ++ placeAll path attrs
end

/-- The attributes of a chain, under the names given to `WithGroup` before them. -/
def placements : List Bytes → List Link → List Placement
  | _, [] => []
  | path, .group name :: links => placements (if name = [] then path else path ++ [name]) links
  | path, .attrs attrs :: links => placeAll path attrs ++ placements path links

/-! ## Trees -/

/-- A part of an entry: an attribute, or a group of `slog` that became an object or a namespace. -/
inductive Node where
  | leaf (key : Bytes) (value : Value)
  | group (key : Bytes) (children : List Node)

mutual
/-- The part of an entry that is made of an attribute. -/
def nodes (key : Bytes) : Value → List Node
  | .group attrs => if key = [] then nodesAll attrs else [.group key (nodesAll attrs)]
  | .logValuer resolved => nodes key resolved
  | value => if key = [] ∧ value.isZero then [] else [.leaf key value]
def nodesAll : List Attr → List Node
  | [] => []
  | .mk key value :: attrs => nodes key value ++ nodesAll attrs
end

section

variable [Host]

mutual
/-- The members of an object that the part is written as: those of the attributes, and an object for
each group. -/
def Node.render (cfg : EncoderConfig) : Node → Option (List (Bytes × Json))
  | .leaf key value => (value.items cfg key).map Json.nest
  | .group key children => do
    let members ← renderAll cfg children
    some [(sanitize key, .obj members)]
def renderAll (cfg : EncoderConfig) : List Node → Option (List (Bytes × Json))
  | [] => some []
  | n :: ns => do
    let members ← n.render cfg
    let rest ← renderAll cfg ns
    some (members ++ rest)
end

end

mutual
/-- The attributes in the part, with the keys of the groups around them. -/
def Node.leaves (path : List Bytes) : Node → List Placement
  | .leaf key value => [⟨path, key, value⟩]
  | .group key children => leavesAll (path ++ [key]) children
def leavesAll (path : List Bytes) : List Node → List Placement
  | [] => []
  | n :: ns => n.leaves path ++ leavesAll path ns
end

theorem leavesAll_append (path : List Bytes) (ns ns' : List Node) :
    leavesAll path (ns ++ ns') = leavesAll path ns ++ leavesAll path ns' := by
  induction ns with
  | nil => rfl
  | cons n ns ih => rw [List.cons_append, leavesAll, leavesAll, ih, List.append_assoc]

theorem renderAll_append [Host] (cfg : EncoderConfig) (ns ns' : List Node) :
    renderAll cfg (ns ++ ns') =
      (renderAll cfg ns).bind fun ms => (renderAll cfg ns').map fun rest => ms ++ rest := by
  induction ns with
  | nil => cases h : renderAll cfg ns' <;> simp [renderAll, h]
  | cons n ns ih =>
    rw [List.cons_append, renderAll, renderAll, ih]
    cases n.render cfg with
    | none => rfl
    | some ms =>
      cases renderAll cfg ns with
      | none => rfl
      | some rest =>
        cases renderAll cfg ns' with
        | none => rfl
        | some rest' => exact congrArg some (List.append_assoc _ _ _).symm

/-! ## Attributes -/

theorem place_leaf {key : Bytes} {value : Value} (path : List Bytes) (h : value.isLeaf = true) :
    place path key value = if key = [] ∧ value.isZero then [] else [⟨path, key, value⟩] := by
  cases value <;> first | rfl | cases h

def isOrdinary : FieldType → Bool
  | .namespace => false
  | .inlineMarshaler => false
  | .skip => false
  | _ => true

/-- A field that is no namespace, is not inlined and not skipped. -/
def Ordinary (f : Zapcore.Field) : Prop := isOrdinary f.type = true

theorem Ordinary.type_ne {f : Zapcore.Field} (h : Ordinary f) {t : FieldType}
    (ht : isOrdinary t = false) : f.type ≠ t := by
  intro heq
  rw [Ordinary, heq, ht] at h
  cases h

theorem Ordinary.flat [Host] {f : Zapcore.Field} (h : Ordinary f) : f.addTo.Flat :=
  Field.flat_addTo (h.type_ne rfl) (h.type_ne rfl)

theorem Ordinary.meaning_ne_nil [Host] {f : Zapcore.Field} (h : Ordinary f) (cfg : EncoderConfig) :
    meaning cfg f.addTo ≠ some [] :=
  Field.meaning_ne_nil cfg (h.type_ne rfl) (h.type_ne rfl)

theorem ordinary_primField (key : Bytes) (p : Prim) : Ordinary (primField key p) := by
  cases p with
  | int kind i => cases kind <;> exact rfl
  | uint kind u => cases kind <;> exact rfl
  | _ => exact rfl

theorem ordinary_durationField (key : Bytes) (d : Duration) : Ordinary (durationField key d) :=
  rfl

theorem ordinary_timeField (key : Bytes) (t : Time) : Ordinary (timeField key t) := by
  rw [timeField]
  split <;> exact rfl

theorem ordinary_scalarField (key : Bytes) (s : Scalar) : Ordinary (scalarField key s) := by
  cases s with
  | prim p => exact ordinary_primField key p
  | duration d => exact ordinary_durationField key d
  | time t => exact ordinary_timeField key t

theorem ordinary_anyField [Host] (key : Bytes) (v : AnyValue) : Ordinary (anyField key v) := by
  cases v with
  | scalar s => exact ordinary_scalarField key s
  | pointer s =>
    cases s with
    | none => exact rfl
    | some s =>
      rw [anyField, scalarpField_some]
      exact ordinary_scalarField key s
  | slice ss =>
    rw [anyField, scalarsField_eq]
    exact rfl
  | error err not_nil =>
    cases err with
    | nil => exact absurd rfl not_nil
    | _ => exact rfl
  | _ => exact rfl

theorem nodes_leaf {key : Bytes} {value : Value} (h : value.isLeaf = true) :
    nodes key value = if key = [] ∧ value.isZero then [] else [.leaf key value] := by
  cases value <;> first | rfl | cases h

section

variable [Host] {key : Bytes} {value : Value}

theorem convertValue_logValuer (key : Bytes) (resolved : Value) :
    convertValue key (.logValuer resolved) = convertValue key resolved := by
  rw [convertValue, if_neg fun h => (by cases h.2)]

theorem convertValue_group (key : Bytes) (attrs : List Attr) :
    convertValue key (.group attrs) =
      if key = [] then inlineField (groupObject attrs) else objectField key (groupObject attrs) := by
  rw [convertValue, if_neg fun h => (by cases h.2)]

theorem convertValue_zero (h : key = [] ∧ value.isZero = true) : convertValue key value = skipField := by
  rw [convertValue.eq_def, if_pos h]

theorem convertValue_leaf (h : value.isLeaf = true) (hzero : ¬ (key = [] ∧ value.isZero = true)) :
    Ordinary (convertValue key value) := by
  rw [convertValue.eq_def, if_neg hzero]
  cases value with
  | bool b => exact ordinary_primField key _
  | duration d => exact ordinary_durationField key d
  | float64 f => exact ordinary_primField key _
  | int64 i => exact ordinary_primField key _
  | string s => exact ordinary_primField key _
  | time t => exact ordinary_timeField key t
  | uint64 u => exact ordinary_primField key _
  | group attrs => cases h
  | logValuer resolved => cases h
  | any v => exact ordinary_anyField key v

theorem flat_leaf (h : value.isLeaf = true) : (convertValue key value).addTo.Flat := by
  by_cases hzero : key = [] ∧ value.isZero = true
  · rw [convertValue_zero hzero]
    exact trivial
  · exact (convertValue_leaf h hzero).flat

mutual
theorem flat_convertValue (key : Bytes) (value : Value) : (convertValue key value).addTo.Flat := by
  cases value with
  | group attrs =>
    rw [convertValue_group]
    split
    · exact (flat_groupObject attrs).andThen (flat_reportError _)
    · exact fun err => flat_reportError _ err
  | logValuer resolved =>
    rw [convertValue_logValuer]
    exact flat_convertValue key resolved
  | _ => exact flat_leaf rfl
theorem flat_groupObject (attrs : List Attr) : (groupObject attrs).Flat := by
  cases attrs with
  | nil => exact trivial
  | cons attr attrs =>
    cases attr with
    | mk key value => exact (flat_convertValue key value).andThen fun _ => flat_groupObject attrs
end

/-- `MarshalLogObject` of a group returns nil. -/
theorem denote_groupObject (cfg : EncoderConfig) (attrs : List Attr) {is : List Json.Item}
    {err : Option Bytes} (h : denote cfg (groupObject attrs) = some (is, err)) : err = none := by
  induction attrs generalizing is err with
  | nil =>
    cases h
    rfl
  | cons attr attrs ih =>
    cases attr with
    | mk key value =>
      rw [groupObject, denote_andThen] at h
      obtain ⟨r, _, hrest⟩ := Option.bind_eq_some_iff.mp h
      obtain ⟨⟨is', err'⟩, hgroup, hans⟩ := Option.bind_eq_some_iff.mp hrest
      cases hans
      exact ih hgroup

theorem meaning_inline (cfg : EncoderConfig) (attrs : List Attr) :
    meaning cfg (inlineField (groupObject attrs)).addTo = meaning cfg (groupObject attrs) := by
  show (denote cfg ((groupObject attrs).andThen (reportError []))).map _ = _
  rw [denote_andThen, meaning]
  cases h : denote cfg (groupObject attrs) with
  | none => rfl
  | some r =>
    have herr : r.2 = none := denote_groupObject cfg attrs h
    rw [Option.bind_some, herr]
    show some (Json.nest (r.1 ++ [])) = _
    rw [List.append_nil]
    rfl

theorem meaning_object (cfg : EncoderConfig) (key : Bytes) (attrs : List Attr) :
    meaning cfg (objectField key (groupObject attrs)).addTo =
      (meaning cfg (groupObject attrs)).map fun members => [(sanitize key, .obj members)] := by
  show (denote cfg (.addObject key (groupObject attrs) (reportError key))).map _ = _
  rw [denote, meaning]
  cases h : denote cfg (groupObject attrs) with
  | none => rfl
  | some r =>
    obtain ⟨is, err⟩ := r
    cases denote_groupObject cfg attrs h
    rfl

theorem meaning_leaf (cfg : EncoderConfig) (h : value.isLeaf = true) :
    meaning cfg (convertValue key value).addTo = renderAll cfg (nodes key value) := by
  rw [nodes_leaf h]
  split
  · next hzero =>
    rw [convertValue_zero hzero]
    rfl
  · next hzero =>
    have hitems : meaning cfg (convertValue key value).addTo =
        (value.items cfg key).map Json.nest := by
      rw [← convertValue_items cfg key h hzero, ← Field.items_eq, Option.map_map]
      rfl
    rw [hitems, renderAll, Node.render, renderAll]
    cases value.items cfg key with
    | none => rfl
    | some is => exact congrArg some (List.append_nil _).symm

mutual
/-- The field of an attribute means the part that is made of it. -/
theorem meaning_convertValue (cfg : EncoderConfig) (key : Bytes) (value : Value) :
    meaning cfg (convertValue key value).addTo = renderAll cfg (nodes key value) := by
  cases value with
  | group attrs =>
    rw [convertValue_group, nodes]
    split
    · rw [meaning_inline, meaning_groupObject cfg attrs]
    · rw [meaning_object, meaning_groupObject cfg attrs, renderAll, Node.render, renderAll]
      cases renderAll cfg (nodesAll attrs) <;> rfl
  | logValuer resolved =>
    rw [convertValue_logValuer, nodes]
    exact meaning_convertValue cfg key resolved
  | _ => exact meaning_leaf cfg rfl
theorem meaning_groupObject (cfg : EncoderConfig) (attrs : List Attr) :
    meaning cfg (groupObject attrs) = renderAll cfg (nodesAll attrs) := by
  cases attrs with
  | nil => rfl
  | cons attr attrs =>
    cases attr with
    | mk key value =>
      rw [groupObject, (flat_convertValue key value).meaning_andThen, nodesAll, renderAll_append,
        meaning_convertValue cfg key value, meaning_groupObject cfg attrs]
end

end

theorem leaves_leaf {key : Bytes} {value : Value} (path : List Bytes) (h : value.isLeaf = true) :
    leavesAll path (nodes key value) = place path key value := by
  rw [nodes_leaf h, place_leaf path h]
  split <;> rfl

mutual
/-- What an attribute stands for is where it belongs. -/
theorem leaves_nodes (path : List Bytes) (key : Bytes) (value : Value) :
    leavesAll path (nodes key value) = place path key value := by
  cases value with
  | group attrs =>
    rw [nodes, place]
    split
    · exact leaves_nodesAll path attrs
    · rw [leavesAll, Node.leaves, leavesAll, List.append_nil]
      exact leaves_nodesAll (path ++ [key]) attrs
  | logValuer resolved =>
    rw [nodes, place]
    exact leaves_nodes path key resolved
  | _ => exact leaves_leaf path rfl
theorem leaves_nodesAll (path : List Bytes) (attrs : List Attr) :
    leavesAll path (nodesAll attrs) = placeAll path attrs := by
  cases attrs with
  | nil => rfl
  | cons attr attrs =>
    cases attr with
    | mk key value =>
      rw [nodesAll, placeAll, leavesAll_append, leaves_nodes path key value,
        leaves_nodesAll path attrs]
end

/-! ## Attributes that are skipped -/

/-- Is it an attribute other than the zero `Attr`, once it is resolved? -/
def present (key : Bytes) : Value → Bool
  | .logValuer resolved => present key resolved
  | value => !(decide (key = []) && value.isZero)

def Attr.present : Attr → Bool
  | .mk key value => Zapslog.present key value

theorem present_leaf {key : Bytes} {value : Value} (h : value.isLeaf = true) :
    present key value = !(decide (key = []) && value.isZero) := by
  cases value <;> first | rfl | cases h

theorem present_group (key : Bytes) (attrs : List Attr) : present key (.group attrs) = true := by
  show (!(decide (key = []) && false)) = true
  rw [Bool.and_false]
  rfl

theorem isSkip_of_type_ne {f : Zapcore.Field} (h : f.type ≠ .skip) : isSkip f = false := by
  have htype : (f.type == .skip) = false := beq_eq_false_iff_ne.mpr h
  simp only [isSkip, htype, Bool.and_false, Bool.false_and]

/-- Skipped are the attributes that are not present. -/
theorem isSkip_convertValue [Host] (key : Bytes) (value : Value) :
    isSkip (convertValue key value) = !present key value := by
  have hleaf : ∀ {value : Value}, value.isLeaf = true →
      isSkip (convertValue key value) = !present key value := by
    intro value h
    rw [present_leaf h, Bool.not_not]
    by_cases hzero : key = [] ∧ value.isZero = true
    · rw [convertValue_zero hzero, hzero.1, hzero.2]
      rfl
    · rw [isSkip_of_type_ne ((convertValue_leaf h hzero).type_ne rfl)]
      exact (Bool.eq_false_iff.mpr fun h => hzero (by simpa using h)).symm
  cases value with
  | group attrs =>
    rw [convertValue_group, present_group]
    split <;> exact isSkip_of_type_ne (fun h => (by cases h))
  | logValuer resolved =>
    rw [convertValue_logValuer, present]
    exact isSkip_convertValue key resolved
  | _ => exact hleaf rfl

theorem nodes_absent {key : Bytes} {value : Value} (h : present key value = false) :
    nodes key value = [] := by
  have hleaf : ∀ {value : Value}, value.isLeaf = true → present key value = false →
      nodes key value = [] := by
    intro value hleaf h
    rw [present_leaf hleaf] at h
    rw [nodes_leaf hleaf, if_pos (by simpa using h)]
  cases value with
  | group attrs =>
    rw [present_group] at h
    cases h
  | logValuer resolved =>
    rw [nodes]
    exact nodes_absent h
  | _ => exact hleaf rfl h

theorem nodesAll_absent {attrs : List Attr} (h : attrs.any Attr.present = false) :
    nodesAll attrs = [] := by
  induction attrs with
  | nil => rfl
  | cons attr attrs ih =>
    rw [List.any_cons, Bool.or_eq_false_iff] at h
    cases attr with
    | mk key value => rw [nodesAll, nodes_absent h.1, ih h.2, List.append_nil]

/-! ## Sequences of fields -/

/-- What a field of a handler comes from. -/
inductive Piece where
  | group (name : Bytes)
  | attr (attr : Attr)

def Piece.field [Host] : Piece → Zapcore.Field
  | .group name => namespaceField name
  | .attr a => convertAttrToField a

/-- The tree that pieces stand for: a name takes up everything behind it. -/
def tree : List Piece → List Node
  | [] => []
  | .group name :: ps => [.group name (tree ps)]
  | .attr (.mk key value) :: ps => nodes key value ++ tree ps

theorem meaning_pieces [Host] (cfg : EncoderConfig) (ps : List Piece) :
    meaning cfg (addFields (ps.map Piece.field)) = renderAll cfg (tree ps) := by
  induction ps with
  | nil => rfl
  | cons p ps ih =>
    rw [List.map_cons, addFields]
    cases p with
    | group name =>
      show (denote cfg (.openNamespace name (addFields (ps.map Piece.field)))).map _ = _
      rw [tree, renderAll, Node.render, renderAll, ← ih, meaning, denote]
      cases denote cfg (addFields (ps.map Piece.field)) <;> rfl
    | attr attr =>
      cases attr with
      | mk key value =>
        rw [Piece.field, convertAttrToField, (flat_convertValue key value).meaning_andThen, ih, tree,
          renderAll_append, meaning_convertValue]

/-- The pieces of attributes when names are waiting: they go in front of the first attribute that
is not skipped. -/
def openFor (groups : List Bytes) : List Attr → List Piece
  | [] => []
  | attr :: attrs =>
    if attr.present then groups.map .group ++ (attr :: attrs).map .attr
    else .attr attr :: openFor groups attrs

theorem openFor_nil (attrs : List Attr) : openFor [] attrs = attrs.map .attr := by
  induction attrs with
  | nil => rfl
  | cons attr attrs ih =>
    rw [openFor, ih]
    split <;> rfl

/-- The pieces of a chain, when names are waiting. -/
def piecesOf : List Bytes → List Link → List Piece
  | _, [] => []
  | groups, .group name :: links => piecesOf (if name = [] then groups else groups ++ [name]) links
  | groups, .attrs attrs :: links =>
    openFor groups attrs ++ piecesOf (if attrs.any Attr.present then [] else groups) links

/-- The names that are waiting behind a chain. -/
def waiting : List Bytes → List Link → List Bytes
  | groups, [] => groups
  | groups, .group name :: links => waiting (if name = [] then groups else groups ++ [name]) links
  | groups, .attrs attrs :: links => waiting (if attrs.any Attr.present then [] else groups) links

theorem piecesOf_append (groups : List Bytes) (links links' : List Link) :
    piecesOf groups (links ++ links') =
      piecesOf groups links ++ piecesOf (waiting groups links) links' := by
  induction links generalizing groups with
  | nil => rfl
  | cons link links ih =>
    cases link with
    | group name => exact ih _
    | attrs attrs =>
      rw [List.cons_append, piecesOf, ih, piecesOf, List.append_assoc]
      rfl

theorem waiting_append (groups : List Bytes) (links links' : List Link) :
    waiting groups (links ++ links') = waiting (waiting groups links) links' := by
  induction links generalizing groups with
  | nil => rfl
  | cons link links ih =>
    cases link with
    | group name => exact ih _
    | attrs attrs => exact ih _

/-! ## The tree of a chain -/

/-- Groups around a part of an entry. -/
def wrap (groups : List Bytes) (ns : List Node) : List Node :=
  groups.foldr (fun name ns => [.group name ns]) ns

theorem leaves_wrap (path groups : List Bytes) (ns : List Node) :
    leavesAll path (wrap groups ns) = leavesAll (path ++ groups) ns := by
  induction groups generalizing path with
  | nil => rw [List.append_nil]; rfl
  | cons name groups ih =>
    show leavesAll (path ++ [name]) (wrap groups ns) ++ [] = _
    rw [List.append_nil, ih, List.append_assoc]
    rfl

theorem tree_groups (groups : List Bytes) (ps : List Piece) :
    tree (groups.map .group ++ ps) = wrap groups (tree ps) := by
  induction groups with
  | nil => rfl
  | cons name groups ih =>
    rw [List.map_cons, List.cons_append, tree, ih]
    rfl

theorem tree_attrs (attrs : List Attr) (ps : List Piece) :
    tree (attrs.map .attr ++ ps) = nodesAll attrs ++ tree ps := by
  induction attrs with
  | nil => rfl
  | cons attr attrs ih =>
    cases attr with
    | mk key value => rw [List.map_cons, List.cons_append, tree, ih, nodesAll, List.append_assoc]

/-- What is skipped in front of the names leaves nothing, so the names are around all of it. -/
theorem tree_openFor (groups : List Bytes) (attrs : List Attr) (ps : List Piece) :
    tree (openFor groups attrs ++ ps) =
      if attrs.any Attr.present then wrap groups (nodesAll attrs ++ tree ps) else tree ps := by
  induction attrs with
  | nil => rfl
  | cons attr attrs ih =>
    rw [openFor, List.any_cons]
    cases hpresent : attr.present with
    | true =>
      rw [if_pos rfl, List.append_assoc, tree_groups, tree_attrs]
      rfl
    | false =>
      rw [if_neg (by decide), Bool.false_or]
      cases attr with
      | mk key value =>
        rw [List.cons_append, tree, nodesAll, nodes_absent hpresent]
        exact ih

/-- The tree of a chain, when names are waiting. -/
def treeOf (groups : List Bytes) (links : List Link) : List Node := tree (piecesOf groups links)

theorem treeOf_attrs (groups : List Bytes) (attrs : List Attr) (links : List Link) :
    treeOf groups (.attrs attrs :: links) =
      if attrs.any Attr.present then wrap groups (nodesAll attrs ++ treeOf [] links)
      else treeOf groups links := by
  rw [treeOf, piecesOf, tree_openFor]
  split <;> rfl

/-- The attributes of a chain are in its tree, in order, each where it belongs, and nothing else
is. -/
theorem leaves_treeOf (path groups : List Bytes) (links : List Link) :
    leavesAll path (treeOf groups links) = placements (path ++ groups) links := by
  induction links generalizing path groups with
  | nil => rfl
  | cons link links ih =>
    cases link with
    | group name =>
      show leavesAll path (treeOf (if name = [] then groups else groups ++ [name]) links) = _
      rw [ih, placements]
      split
      · rfl
      · rw [List.append_assoc]
    | attrs attrs =>
      rw [treeOf_attrs, placements, ← leaves_nodesAll]
      cases hpresent : attrs.any Attr.present with
      | true => rw [if_pos rfl, leaves_wrap, leavesAll_append, ih, List.append_nil]
      | false =>
        rw [if_neg (by decide), ih, nodesAll_absent hpresent]
        rfl

/-! ## Empty groups -/

mutual
/-- Does the attribute leave something in the entry? A group with a key leaves an object at
least. -/
def writes (key : Bytes) : Value → Bool
  | .group attrs => !decide (key = []) || writesAny attrs
  | .logValuer resolved => writes key resolved
  | value => !(decide (key = []) && value.isZero)
def writesAny : List Attr → Bool
  | [] => false
  | .mk key value :: attrs => writes key value || writesAny attrs
end

mutual
/-- Does every group with a key in the attribute have something in it? -/
def filled (key : Bytes) : Value → Bool
  | .group attrs => (decide (key = []) || writesAny attrs) && filledAll attrs
  | .logValuer resolved => filled key resolved
  | _ => true
def filledAll : List Attr → Bool
  | [] => true
  | .mk key value :: attrs => filled key value && filledAll attrs
end

def Link.present : Link → Bool
  | .group _ => false
  | .attrs as => as.any Attr.present

def Link.writes : Link → Bool
  | .group _ => false
  | .attrs as => writesAny as

/-- Does every group of a chain have something in it? A name given to `WithGroup` may have no
attributes behind it, or only zero ones. -/
def fillsGroups : List Link → Bool
  | [] => true
  | .group name :: links =>
    (decide (name = []) || !links.any Link.present || links.any Link.writes) && fillsGroups links
  | .attrs attrs :: links => filledAll attrs && fillsGroups links

theorem writes_leaf {key : Bytes} {value : Value} (h : value.isLeaf = true) :
    writes key value = !(decide (key = []) && value.isZero) := by
  cases value <;> first | rfl | cases h

theorem writes_absent {key : Bytes} {value : Value} (h : present key value = false) :
    writes key value = false ∧ filled key value = true := by
  cases value with
  | group attrs =>
    rw [present_group] at h
    cases h
  | logValuer resolved =>
    rw [writes, filled]
    exact writes_absent h
  | _ => exact ⟨h, rfl⟩

theorem writesAny_absent {attrs : List Attr} (h : attrs.any Attr.present = false) :
    writesAny attrs = false ∧ filledAll attrs = true := by
  induction attrs with
  | nil => exact ⟨rfl, rfl⟩
  | cons attr attrs ih =>
    rw [List.any_cons, Bool.or_eq_false_iff] at h
    cases attr with
    | mk key value =>
      obtain ⟨hwrites, hfilled⟩ := writes_absent h.1
      rw [writesAny, filledAll, hwrites, hfilled]
      exact ih h.2

section

variable [Host] (cfg : EncoderConfig)

mutual
/-- No group in the part is empty. -/
def Node.NoneEmpty : Node → Prop
  | .leaf _ _ => True
  | .group _ children => renderAll cfg children ≠ some [] ∧ NoneEmptyAll children
def NoneEmptyAll : List Node → Prop
  | [] => True
  | n :: ns => n.NoneEmpty ∧ NoneEmptyAll ns
end

variable {cfg}

theorem noneEmptyAll_append {ns ns' : List Node} :
    NoneEmptyAll cfg (ns ++ ns') ↔ NoneEmptyAll cfg ns ∧ NoneEmptyAll cfg ns' := by
  induction ns with
  | nil => exact (iff_of_eq (true_and _)).symm
  | cons n ns ih => rw [List.cons_append, NoneEmptyAll, NoneEmptyAll, ih, and_assoc]

theorem noneEmptyAll_group {key : Bytes} {children : List Node} :
    NoneEmptyAll cfg [.group key children] ↔
      renderAll cfg children ≠ some [] ∧ NoneEmptyAll cfg children := by
  rw [NoneEmptyAll, NoneEmptyAll, Node.NoneEmpty, and_true]

theorem renderAll_append_nil {ns ns' : List Node} :
    renderAll cfg (ns ++ ns') = some [] ↔ renderAll cfg ns = some [] ∧ renderAll cfg ns' = some [] := by
  rw [renderAll_append]
  cases renderAll cfg ns with
  | none => exact ⟨fun h => (by cases h), fun h => (by cases h.1)⟩
  | some ms =>
    cases renderAll cfg ns' with
    | none => exact ⟨fun h => (by cases h), fun h => (by cases h.2)⟩
    | some rest =>
      show some (ms ++ rest) = some [] ↔ _
      simp only [Option.some.injEq, List.append_eq_nil_iff]

theorem renderAll_group_ne_nil (key : Bytes) (children : List Node) :
    renderAll cfg [.group key children] ≠ some [] := by
  rw [renderAll, Node.render, renderAll]
  cases renderAll cfg children <;> exact fun h => (by cases h)

theorem renderAll_leaf {key : Bytes} {value : Value} (h : value.isLeaf = true) :
    renderAll cfg (nodes key value) = some [] ↔ writes key value = false := by
  rw [← meaning_leaf cfg h, writes_leaf h, Bool.not_eq_false']
  by_cases hzero : key = [] ∧ value.isZero = true
  · rw [convertValue_zero hzero]
    exact iff_of_true rfl (by simpa using hzero)
  · exact iff_of_false ((convertValue_leaf h hzero).meaning_ne_nil cfg) (by simpa using hzero)

mutual
/-- An attribute adds nothing to an object exactly if it leaves nothing. -/
theorem renderAll_nodes (key : Bytes) (value : Value) :
    renderAll cfg (nodes key value) = some [] ↔ writes key value = false := by
  cases value with
  | group attrs =>
    rw [nodes, writes]
    by_cases hkey : key = []
    · rw [if_pos hkey, decide_eq_true hkey]
      exact renderAll_nodesAll attrs
    · rw [if_neg hkey, decide_eq_false hkey]
      exact iff_of_false (renderAll_group_ne_nil key _) (fun h => (by cases h))
  | logValuer resolved =>
    rw [nodes, writes]
    exact renderAll_nodes key resolved
  | _ => exact renderAll_leaf rfl
theorem renderAll_nodesAll (attrs : List Attr) :
    renderAll cfg (nodesAll attrs) = some [] ↔ writesAny attrs = false := by
  cases attrs with
  | nil => exact iff_of_true rfl rfl
  | cons attr attrs =>
    cases attr with
    | mk key value =>
      rw [nodesAll, writesAny, renderAll_append_nil, Bool.or_eq_false_iff, renderAll_nodes key value,
        renderAll_nodesAll attrs]
end

theorem noneEmpty_leaf {key : Bytes} {value : Value} (h : value.isLeaf = true) :
    NoneEmptyAll cfg (nodes key value) ↔ filled key value = true := by
  have hfilled : filled key value = true := by
    cases value <;> first | rfl | cases h
  rw [nodes_leaf h]
  split
  · exact iff_of_true trivial hfilled
  · exact iff_of_true ⟨trivial, trivial⟩ hfilled

mutual
theorem noneEmpty_nodes (key : Bytes) (value : Value) :
    NoneEmptyAll cfg (nodes key value) ↔ filled key value = true := by
  cases value with
  | group attrs =>
    rw [nodes, filled, Bool.and_eq_true, Bool.or_eq_true, decide_eq_true_iff]
    by_cases hkey : key = []
    · rw [if_pos hkey, noneEmpty_nodesAll attrs]
      exact ⟨fun h => ⟨.inl hkey, h⟩, And.right⟩
    · rw [if_neg hkey, noneEmptyAll_group, noneEmpty_nodesAll attrs, Ne, renderAll_nodesAll,
        Bool.not_eq_false]
      exact and_congr_left' (or_iff_right hkey).symm
  | logValuer resolved =>
    rw [nodes, filled]
    exact noneEmpty_nodes key resolved
  | _ => exact noneEmpty_leaf rfl
theorem noneEmpty_nodesAll (attrs : List Attr) :
    NoneEmptyAll cfg (nodesAll attrs) ↔ filledAll attrs = true := by
  cases attrs with
  | nil => exact iff_of_true trivial rfl
  | cons attr attrs =>
    cases attr with
    | mk key value =>
      rw [nodesAll, filledAll, noneEmptyAll_append, Bool.and_eq_true, noneEmpty_nodes key value,
        noneEmpty_nodesAll attrs]
end

theorem noneEmpty_wrap {groups : List Bytes} {ns : List Node} :
    NoneEmptyAll cfg (wrap groups ns) ↔
      (groups ≠ [] → renderAll cfg ns ≠ some []) ∧ NoneEmptyAll cfg ns := by
  induction groups with
  | nil => exact ⟨fun h => ⟨fun hne => absurd rfl hne, h⟩, And.right⟩
  | cons name groups ih =>
    show NoneEmptyAll cfg [.group name (wrap groups ns)] ↔ _
    rw [noneEmptyAll_group, ih]
    cases groups with
    | nil => exact ⟨fun h => ⟨fun _ => h.1, h.2.2⟩, fun h =>
        ⟨h.1 (List.cons_ne_nil _ _), fun hne => absurd rfl hne, h.2⟩⟩
    | cons name' groups => exact ⟨fun h => ⟨fun _ => h.2.1 (List.cons_ne_nil _ _), h.2.2⟩, fun h =>
        ⟨renderAll_group_ne_nil _ _, fun _ => h.1 (List.cons_ne_nil _ _), h.2⟩⟩

/-- If no group in it is empty, the tree of a chain has something in it exactly if an attribute
leaves something. -/
theorem renderAll_treeOf (groups : List Bytes) {links : List Link}
    (h : NoneEmptyAll cfg (treeOf groups links)) :
    renderAll cfg (treeOf groups links) ≠ some [] ↔ links.any Link.writes = true := by
  induction links generalizing groups with
  | nil => exact iff_of_false (fun hne => hne rfl) (fun h => (by cases h))
  | cons link links ih =>
    rw [List.any_cons]
    cases link with
    | group name =>
      rw [Link.writes, Bool.false_or]
      exact ih _ h
    | attrs attrs =>
      rw [treeOf_attrs] at h ⊢
      rw [Link.writes, Bool.or_eq_true]
      cases hpresent : attrs.any Attr.present with
      | false =>
        rw [hpresent, if_neg (by decide)] at h
        rw [if_neg (by decide), ih _ h, (writesAny_absent hpresent).1]
        exact (or_iff_right (fun h => (by cases h))).symm
      | true =>
        rw [hpresent, if_pos rfl, noneEmpty_wrap] at h
        obtain ⟨hgroups, hinside⟩ := h
        have hinner : renderAll cfg (nodesAll attrs ++ treeOf [] links) ≠ some [] ↔
            writesAny attrs = true ∨ links.any Link.writes = true := by
          rw [Ne, renderAll_append_nil, not_and_or, renderAll_nodesAll, Bool.not_eq_false,
            ← ih [] (noneEmptyAll_append.mp hinside).2]
        rw [if_pos rfl, ← hinner]
        cases groups with
        | nil => exact Iff.rfl
        | cons name groups =>
          exact iff_of_true (renderAll_group_ne_nil _ _) (hgroups (List.cons_ne_nil _ _))

/-- No group in the tree of a chain is empty exactly if every group of the chain, and every name
that is waiting, has something in it. -/
theorem noneEmpty_treeOf (groups : List Bytes) (links : List Link) :
    NoneEmptyAll cfg (treeOf groups links) ↔
      (groups ≠ [] → links.any Link.present = true → links.any Link.writes = true) ∧
        fillsGroups links = true := by
  induction links generalizing groups with
  | nil => exact iff_of_true trivial ⟨fun _ h => (by cases h), rfl⟩
  | cons link links ih =>
    rw [List.any_cons, List.any_cons]
    cases link with
    | group name =>
      show NoneEmptyAll cfg (treeOf (if name = [] then groups else groups ++ [name]) links) ↔ _
      rw [ih, fillsGroups, Link.present, Link.writes, Bool.false_or, Bool.false_or]
      by_cases hname : name = []
      · rw [if_pos hname, decide_eq_true hname]
        rfl
      · rw [if_neg hname, decide_eq_false hname, Bool.false_or, Bool.and_eq_true, Bool.or_eq_true,
          Bool.not_eq_true', ← and_assoc]
        refine and_congr_left' ?_
        have hne : groups ++ [name] ≠ [] := List.append_ne_nil_of_right_ne_nil _ (List.cons_ne_nil _ _)
        cases links.any Link.present with
        | false => exact iff_of_true (fun _ h => (by cases h)) ⟨fun _ h => (by cases h), .inl rfl⟩
        | true => exact ⟨fun h => ⟨fun _ _ => h hne rfl, .inr (h hne rfl)⟩, fun h _ _ =>
            h.2.resolve_left (fun h => (by cases h))⟩
    | attrs attrs =>
      rw [treeOf_attrs, fillsGroups, Link.present, Link.writes, Bool.and_eq_true]
      cases hpresent : attrs.any Attr.present with
      | false =>
        obtain ⟨hwrites, hfilled⟩ := writesAny_absent hpresent
        rw [if_neg (by decide), ih, hwrites, hfilled, Bool.false_or, Bool.false_or]
        exact and_congr_right' (and_iff_right rfl).symm
      | true =>
        rw [if_pos rfl, noneEmpty_wrap, noneEmptyAll_append, noneEmpty_nodesAll, Bool.true_or]
        have hrest : NoneEmptyAll cfg (treeOf [] links) ↔ fillsGroups links = true := by
          rw [ih]
          exact ⟨And.right, fun h => ⟨fun hne => absurd rfl hne, h⟩⟩
        rw [hrest]
        refine and_congr_left fun h => imp_congr_right fun _ => ?_
        rw [Ne, renderAll_append_nil, not_and_or, renderAll_nodesAll, Bool.not_eq_false,
          Bool.or_eq_true, ← renderAll_treeOf [] (hrest.mpr h.2)]
        exact ⟨fun h _ => h, fun h => h rfl⟩

end

end Zap.Zapslog
