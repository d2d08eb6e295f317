/-
The places inside a node.

* `Content`, `Node.contents` — the fields of the data of a node, and what is in each of
  them;
* `Node.ext_contents` — the kind of a node and its fields are all there is to it;
* `Node.at?` — the node at a place, which is given by the fields that lead to it;
* `Node.paths` — the places inside a node;
* `Node.mem_paths_iff`, `Node.nodup_paths`, `Node.map_at?_paths` — they are the places
  where there is a node, each of them is there once, and a walk enters the nodes there.

Design notes: equal nodes may be in several places, so it is places that are counted.
Only nodes have nodes inside, so no other content of a field can hide one.  The order in
which a walk takes the fields has no part in what is at a place.
-/
import GraphQL.Proofs.Document.Nodes

namespace GraphQL

/-- A field of the data of some kind of node.  Where a kind is a sum, each of its cases
has fields of its own. -/
inductive Slot
  | alias
  | arguments
  | boolean
  | default
  | definition
  | definitions
  | directives
  | enum
  | fields
  | float
  | inner
  | int
  | interfaces
  | item
  | items
  | members
  | name
  | operation
  | selectionSet
  | selections
  | string
  | text
  | type
  | typeCondition
  | value
  | values
  | var
  | variableDefinitions
deriving DecidableEq

/-- What is in a field: nodes, or data without parts. -/
inductive Content
  | nodes (ns : List Node)
  | text (text : String)
  | boolean (b : Bool)
  | operation (kind : OperationKind)

/-- The nodes in a field. -/
def Content.held : Content → List Node
  | nodes ns => ns
  | text _ | boolean _ | operation _ => []

/-- One of the nodes in a field. -/
structure Step where
  slot : Slot
  index : Nat
deriving DecidableEq

namespace Node

/-! ### Fields -/

/-- A field that holds a single node. -/
def one (s : Slot) (n : Node) : Slot × Content := (s, .nodes [n])

/-- A field that may be left out. -/
def optional {α : Type} (s : Slot) (node : α → Node) (x? : Option α) : Slot × Content :=
  (s, .nodes (x?.toList.map node))

/-- A field that holds any number of nodes. -/
def many {α : Type} (s : Slot) (node : α → Node) (xs : List α) : Slot × Content :=
  (s, .nodes (xs.map node))

/-- The field of a value. -/
def valueContents : Value → List (Slot × Content)
  | .var v => [one .var (var v)]
  | .int text => [(.int, .text text)]
  | .float text => [(.float, .text text)]
  | .string contents => [(.string, .text contents)]
  | .boolean b => [(.boolean, .boolean b)]
  | .enum text => [(.enum, .text text)]
  | .list items => [many .items value items]
  | .object fields => [many .fields objectField fields]

/-- The field of a type. -/
def typeContents : TypeRef → List (Slot × Content)
  | .named n => [one .name (name n)]
  | .list item => [one .item (typeRef item)]
  | .nonNull inner => [one .inner (typeRef inner)]

/-- The fields of a node and what is in them. -/
def contents : Node → List (Slot × Content)
  | argument x => [one .name (name x.name), one .value (value x.value)]
  | directive x => [one .name (name x.name), many .arguments argument x.arguments]
  | document x => [many .definitions Definition.node x.definitions]
  | enumType x => [one .name (name x.name), many .values enumValueDefinition x.values]
  | enumValueDefinition x => [one .name (name x.name)]
  | field x =>
    [optional .alias name x.alias?, one .name (name x.name),
      many .arguments argument x.arguments, many .directives directive x.directives,
      optional .selectionSet selectionSet x.selectionSet?]
  | fieldDefinition x =>
    [one .name (name x.name), many .arguments inputValueDefinition x.arguments,
      one .type (typeRef x.type)]
  | fragmentDefinition x =>
    [one .name (name x.name), one .typeCondition (name x.typeCondition),
      many .directives directive x.directives, one .selectionSet (selectionSet x.selectionSet)]
  | fragmentSpread x => [one .name (name x.name), many .directives directive x.directives]
  | inlineFragment x =>
    [optional .typeCondition name x.typeCondition?, many .directives directive x.directives,
      one .selectionSet (selectionSet x.selectionSet)]
  | inputObjectType x => [one .name (name x.name), many .fields inputValueDefinition x.fields]
  | inputValueDefinition x =>
    [one .name (name x.name), one .type (typeRef x.type), optional .default value x.default?]
  | interfaceType x => [one .name (name x.name), many .fields fieldDefinition x.fields]
  | name x => [(.text, .text x.text)]
  | objectField x => [one .name (name x.name), one .value (value x.value)]
  | objectType x =>
    [one .name (name x.name), many .interfaces name x.interfaces,
      many .fields fieldDefinition x.fields]
  | operationDefinition x =>
    [(.operation, .operation x.operation), optional .name name x.name?,
      many .variableDefinitions variableDefinition x.variableDefinitions,
      many .directives directive x.directives, one .selectionSet (selectionSet x.selectionSet)]
  | scalarType x => [one .name (name x.name)]
  | selectionSet x => [many .selections Selection.node x.selections]
  | typeRef x => typeContents x
  | typeExtension x => [one .definition (objectType x.definition)]
  | unionType x => [one .name (name x.name), many .members name x.members]
  | value x => valueContents x
  | var x => [one .name (name x.name)]
  | variableDefinition x =>
    [one .var (var x.var), one .type (typeRef x.type), optional .default value x.default?]

theorem node_inj_of_definition (d e : Definition) (h : d.node = e.node) : d = e := by
  cases d <;> cases e <;> rename_i x y
  case type.type => cases x <;> cases y <;> simp_all [Definition.node, TypeDefinition.node]
  all_goals try cases x
  all_goals try cases y
  all_goals simp_all [Definition.node, TypeDefinition.node]

theorem node_inj_of_selection (s t : Selection) (h : s.node = t.node) : s = t := by
  cases s <;> cases t <;> simp_all [Selection.node]

theorem one_inj {s : Slot} {n m : Node} : one s n = one s m ↔ n = m := by
  simp [one]

theorem many_inj {α : Type} {s : Slot} {node : α → Node} (hnode : ∀ x y, node x = node y → x = y)
    {xs ys : List α} : many s node xs = many s node ys ↔ xs = ys := by
  simp [many, List.map_inj_right hnode]

theorem optional_inj {α : Type} {s : Slot} {node : α → Node}
    (hnode : ∀ x y, node x = node y → x = y) {x? y? : Option α} :
    optional s node x? = optional s node y? ↔ x? = y? := by
  rw [optional, optional]
  cases x? <;> cases y? <;> simp
  exact ⟨hnode _ _, congrArg node⟩

theorem valueContents_inj {v w : Value} (h : valueContents v = valueContents w) : v = w := by
  cases v <;> cases w <;> simp_all [valueContents, one, many, List.map_inj_right]

theorem typeContents_inj {t u : TypeRef} (h : typeContents t = typeContents u) : t = u := by
  cases t <;> cases u <;> simp_all [typeContents, one]

/-- The kind of a node and its fields are all there is to it. -/
theorem ext_contents {n m : Node} (hkind : n.ctorIdx = m.ctorIdx)
    (h : n.contents = m.contents) : n = m := by
  have hdefinitions {xs ys : List Definition} :
      many .definitions Definition.node xs = many .definitions Definition.node ys ↔ xs = ys :=
    many_inj node_inj_of_definition
  have hselections {xs ys : List Selection} :
      many .selections Selection.node xs = many .selections Selection.node ys ↔ xs = ys :=
    many_inj node_inj_of_selection
  cases n <;> cases m <;> cases hkind
  -- Nodes of one kind are left.
  case typeRef t u => exact congrArg typeRef (typeContents_inj h)
  case value v w => exact congrArg value (valueContents_inj h)
  all_goals
    rename_i x y
    cases x
    cases y
    simp_all [contents, one_inj, many_inj, optional_inj]

/-- The fields of a node are different ones. -/
theorem nodup_slots (n : Node) : (n.contents.map Prod.fst).Nodup := by
  cases n with
  | typeRef t => cases t <;> simp [contents, typeContents]
  | value v => cases v <;> simp [contents, valueContents]
  | _ => simp [contents, one, optional, many]

/-- The children of a node are the nodes in its fields. -/
theorem children_eq (n : Node) : n.children = n.contents.flatMap fun field => field.2.held := by
  cases n with
  | typeRef t => cases t <;> rfl
  | value v =>
    cases v <;> simp [children, ofValueParts, contents, valueContents, one, many, Content.held]
  | _ => simp [children, contents, one, optional, many, Content.held]

/-! ### Steps -/

/-- The nodes in a field of a node. -/
def held (n : Node) (s : Slot) : List Node := (n.contents.lookup s).elim [] Content.held

/-- The node that a step leads to. -/
def step? (n : Node) (s : Step) : Option Node := (n.held s.slot)[s.index]?

/-- The steps from a node, and where they lead. -/
def parts (n : Node) : List (Step × Node) :=
  n.contents.flatMap fun field => field.2.held.zipIdx.map fun (c, i) => (⟨field.1, i⟩, c)

/-- The steps from a node lead to its children. -/
theorem map_snd_parts (n : Node) : n.parts.map Prod.snd = n.children := by
  have hfield (field : Slot × Content) :
      (field.2.held.zipIdx.map fun (c, i) => ((⟨field.1, i⟩ : Step), c)).map Prod.snd
        = field.2.held := by
    rw [List.map_map]
    exact List.zipIdx_map_fst 0 field.2.held
  rw [parts, List.map_flatMap, children_eq]
  exact congrArg (List.flatMap · n.contents) (funext hfield)

/-- The steps from a node are different ones. -/
theorem nodup_map_fst_parts (n : Node) : (n.parts.map Prod.fst).Nodup := by
  have hslots := List.pairwise_map.1 n.nodup_slots
  rw [parts, List.map_flatMap, List.Nodup, List.pairwise_flatMap]
  refine ⟨fun field _ => ?_, hslots.imp fun hne => ?_⟩
  · have hindices : (field.2.held.zipIdx.map Prod.snd).Nodup := by
      rw [List.zipIdx_map_snd]
      exact List.nodup_range'
    rw [List.map_map, List.pairwise_map]
    refine (List.pairwise_map.1 hindices).imp fun hindex heq => ?_
    exact hindex (congrArg Step.index heq)
  · intro s hs t ht heq
    obtain ⟨_, hpart, rfl⟩ := List.mem_map.1 hs
    obtain ⟨_, _, rfl⟩ := List.mem_map.1 hpart
    obtain ⟨_, hpart, rfl⟩ := List.mem_map.1 ht
    obtain ⟨_, _, rfl⟩ := List.mem_map.1 hpart
    exact hne (congrArg Step.slot heq)

theorem lookup_contents_iff {n : Node} {s : Slot} {c : Content} :
    n.contents.lookup s = some c ↔ (s, c) ∈ n.contents := by
  constructor
  · intro h
    obtain ⟨before, later, hsplit, -⟩ := List.lookup_eq_some_iff.1 h
    rw [hsplit]
    exact List.mem_append_right before List.mem_cons_self
  · intro h
    obtain ⟨before, later, hsplit⟩ := List.append_of_mem h
    have hnodup := n.nodup_slots
    rw [hsplit, List.map_append, List.nodup_append] at hnodup
    refine List.lookup_eq_some_iff.2 ⟨before, later, hsplit, fun field hfield => ?_⟩
    have hne := hnodup.2.2 field.1 (List.mem_map_of_mem hfield) s List.mem_cons_self
    exact bne_iff_ne.2 hne.symm

/-- The steps from a node are those that lead somewhere. -/
theorem mem_parts_iff {n c : Node} {s : Step} : (s, c) ∈ n.parts ↔ n.step? s = some c := by
  obtain ⟨slot, i⟩ := s
  rw [parts, List.mem_flatMap, step?, held]
  constructor
  · rintro ⟨⟨_, content⟩, hfield, hpart⟩
    obtain ⟨⟨c, i⟩, hi, heq⟩ := List.mem_map.1 hpart
    cases heq
    rw [lookup_contents_iff.2 hfield]
    exact List.mem_zipIdx_iff_getElem?.1 hi
  · intro h
    cases hcontent : n.contents.lookup slot with
    | none =>
      rw [hcontent] at h
      cases h
    | some content =>
      rw [hcontent] at h
      refine ⟨(slot, content), lookup_contents_iff.1 hcontent, List.mem_map.2 ⟨(c, i), ?_, rfl⟩⟩
      exact List.mem_zipIdx_iff_getElem?.2 h

theorem mem_children_of_mem_parts {n : Node} {part : Step × Node} (h : part ∈ n.parts) :
    part.2 ∈ n.children := by
  rw [← map_snd_parts]
  exact List.mem_map_of_mem h

/-! ### Places -/

/-- The node at a place inside a node.  No steps lead to the node itself. -/
def at? : Node → List Step → Option Node
  | n, [] => some n
  | n, s :: path => (n.step? s).bind (at? · path)

/-- The places inside a node, itself first, in the order of the text. -/
def paths (n : Node) : List (List Step) :=
  [] :: n.parts.attach.flatMap fun ⟨part, _⟩ => part.2.paths.map (part.1 :: ·)
termination_by sizeOf n
decreasing_by exact sizeOf_lt_of_mem_children (mem_children_of_mem_parts ‹_›)

theorem paths_eq (n : Node) :
    n.paths = [] :: n.parts.flatMap fun part => part.2.paths.map (part.1 :: ·) := by
  rw [paths, List.flatMap_subtype fun _ _ => rfl, List.unattach_attach]

theorem cons_mem_paths_iff {n : Node} {s : Step} {path : List Step} :
    s :: path ∈ n.paths ↔ ∃ c, n.step? s = some c ∧ path ∈ c.paths := by
  rw [paths_eq, List.mem_cons, List.mem_flatMap]
  constructor
  · rintro (heq | ⟨part, hpart, hpath⟩)
    · cases heq
    · obtain ⟨path, hpath, heq⟩ := List.mem_map.1 hpath
      cases heq
      exact ⟨part.2, mem_parts_iff.1 hpart, hpath⟩
  · rintro ⟨c, hstep, hpath⟩
    exact .inr ⟨(s, c), mem_parts_iff.2 hstep, List.mem_map_of_mem hpath⟩

/-- The places inside a node are those where there is a node. -/
theorem mem_paths_iff {n : Node} {path : List Step} :
    path ∈ n.paths ↔ (n.at? path).isSome := by
  induction path generalizing n with
  | nil =>
    rw [paths_eq]
    exact iff_of_true List.mem_cons_self rfl
  | cons s path ih =>
    rw [cons_mem_paths_iff, at?]
    simp only [ih]
    cases n.step? s <;> simp

/-- No place inside a node is listed twice. -/
theorem nodup_paths (n : Node) : n.paths.Nodup := by
  induction n using induct with
  | step n ih =>
    rw [paths_eq, List.nodup_cons]
    refine ⟨by simp, List.pairwise_flatMap.2 ⟨fun part hpart => ?_, ?_⟩⟩
    · have hpaths := ih _ (mem_children_of_mem_parts hpart)
      refine List.pairwise_map.2 (hpaths.imp fun hne heq => ?_)
      exact hne (List.tail_eq_of_cons_eq heq)
    · refine (List.pairwise_map.1 n.nodup_map_fst_parts).imp fun hne p hp q hq heq => ?_
      obtain ⟨p, -, rfl⟩ := List.mem_map.1 hp
      obtain ⟨q, -, rfl⟩ := List.mem_map.1 hq
      exact hne (List.head_eq_of_cons_eq heq)

/-- A walk enters the nodes at the places inside a node. -/
theorem map_at?_paths (n : Node) : n.paths.map n.at? = n.entered.map some := by
  induction n using induct with
  | step n ih =>
    have hpart : ∀ part ∈ n.parts,
        (part.2.paths.map (part.1 :: ·)).map n.at? = part.2.entered.map some := by
      intro part hpart
      have hstep := mem_parts_iff.1 hpart
      rw [← ih _ (mem_children_of_mem_parts hpart), List.map_map]
      refine List.map_congr_left fun path _ => ?_
      rw [Function.comp_apply, at?, hstep]
      rfl
    rw [paths_eq, entered_eq, List.map_cons, List.map_cons, List.map_flatMap, List.map_flatMap,
      ← map_snd_parts, List.flatMap_map]
    refine congrArg (some n :: ·) ?_
    rw [List.flatMap_def, List.flatMap_def, List.map_congr_left hpart]

end Node

end GraphQL
