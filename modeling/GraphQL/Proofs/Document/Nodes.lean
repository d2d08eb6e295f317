/-
What holds of every node of a document that was read.

* `Node.Sound` — what each kind of node must be like, its parts left aside;
* `Node.of_mem_entered` — what passes from nodes to their children holds of
  all nodes inside;
* `Document.sound_of_ofSource` — in a document that was read every node is
  sound, and the nesting stays within the limit.

Design notes: well-formed trees are described from the outside in, each part
with the parts inside it.  Soundness looks at one node at a time, so that every
clause can be read off on its own.
-/
import GraphQL.Node.Event
import GraphQL.Proofs.RoundTrip

namespace GraphQL

/-- A value is constant, and indeed no variable occurs in it at any depth. -/
def Value.Constant (v : Value) : Prop :=
  v.isConst = true ∧ ∀ w, Node.var w ∉ (Node.value v).entered

namespace Node

/-- What a node must be like, the nodes inside it left aside: lists that may
not be empty are not, texts have their form, default values have no variable in
them, and no type is marked non-null twice. -/
def Sound : Node → Prop
  | document x => x.definitions ≠ []
  | selectionSet x => x.selections ≠ []
  | unionType x => x.members ≠ []
  | enumType x => x.values ≠ []
  | objectType x => x.fields ≠ []
  | interfaceType x => x.fields ≠ []
  | inputObjectType x => x.fields ≠ []
  | name x => IsName x.text
  | fragmentDefinition x => x.name.text ≠ Keyword.on.text
  | fragmentSpread x => x.name.text ≠ Keyword.on.text
  | value (.enum text) => IsEnumText text
  | value (.int text) => IsInteger text
  | value (.float text) => IsFloat text
  | variableDefinition x => ∀ v ∈ x.default?, v.Constant
  | inputValueDefinition x => ∀ v ∈ x.default?, v.Constant
  | typeRef x => ∀ t, x ≠ .nonNull (.nonNull t)
  | _ => True

/-- Induction over nodes and the nodes inside them. -/
theorem induct {motive : Node → Prop} (step : ∀ n, (∀ c ∈ n.children, motive c) → motive n)
    (n : Node) : motive n := by
  induction hs : sizeOf n using Nat.strongRecOn generalizing n with
  | _ s ih => exact step n fun c hc => ih _ (hs ▸ sizeOf_lt_of_mem_children hc) c rfl

/-- A node comes before the nodes inside its children. -/
theorem entered_eq (n : Node) : n.entered = n :: n.children.flatMap entered := by
  have henter : Event.entered? (.enter n) = some n := rfl
  have hleave : Event.entered? (.leave n) = none := rfl
  rw [entered, events_eq, List.filterMap_append, List.filterMap_cons_some henter,
    List.filterMap_cons_none hleave, List.filterMap_nil, List.append_nil, List.filterMap_flatMap]
  rfl

/-- What every node passes on to its children, it passes on to all nodes inside. -/
theorem of_mem_entered {P : Node → Prop} (step : ∀ n, P n → ∀ c ∈ n.children, P c) {n m : Node}
    (hn : P n) (hm : m ∈ n.entered) : P m := by
  induction hs : sizeOf n using Nat.strongRecOn generalizing n with
  | _ s ih =>
    rw [entered_eq, List.mem_cons, List.mem_flatMap] at hm
    rcases hm with rfl | ⟨c, hc, hm⟩
    · exact hn
    · exact ih _ (hs ▸ sizeOf_lt_of_mem_children hc) (step n hn c hc) hm rfl

/-! ### Constant values -/

/-- The nodes that occur inside a value without variables. -/
def InConstant : Node → Prop
  | value v => v.isConst = true
  | objectField f => f.value.isConst = true
  | name _ => True
  | _ => False

theorem inConstant_children {n : Node} (h : n.InConstant) : ∀ c ∈ n.children, c.InConstant := by
  cases n with
  | value v =>
    cases v with
    | var w => cases h
    | list items =>
      have hitems : Value.allConst items = true := h
      simpa [children, ofValueParts, InConstant, Value.allConst_eq] using hitems
    | object fields =>
      have hfields : Value.fieldsConst fields = true := h
      simpa [children, ofValueParts, InConstant, Value.fieldsConst_eq] using hfields
    | _ => simp [children, ofValueParts]
  | objectField f => simpa [children, InConstant] using h
  | name x => simp [children]
  | _ => cases h

theorem constant_of_isConst {v : Value} (h : v.isConst = true) : v.Constant := by
  refine ⟨h, fun w hw => ?_⟩
  have hinside : (var w).InConstant :=
    of_mem_entered (fun _ => inConstant_children) (n := value v) h hw
  exact hinside

/-! ### Well-formed nodes -/

/-- A node is well-formed if it is as a part of a document. -/
def WellFormed : Node → Prop
  | argument x => x.WellFormed
  | directive x => x.WellFormed
  | document x => x.WellFormed
  | enumType x => (TypeDefinition.enum x).WellFormed
  | enumValueDefinition x => x.name.WellFormed
  | field x => (Selection.field x).WellFormedOutside ∧ ∀ s ∈ x.selectionSet?, s.WellFormed
  | fieldDefinition x => x.WellFormed
  | fragmentDefinition x => x.WellFormed
  | fragmentSpread x => (Selection.spread x).WellFormedOutside
  | inlineFragment x => (Selection.inline x).WellFormedOutside ∧ x.selectionSet.WellFormed
  | inputObjectType x => (TypeDefinition.inputObject x).WellFormed
  | inputValueDefinition x => x.WellFormed
  | interfaceType x => (TypeDefinition.interface x).WellFormed
  | name x => x.WellFormed
  | objectField x => x.name.WellFormed ∧ x.value.WellFormed
  | objectType x => x.WellFormed
  | operationDefinition x => x.WellFormed
  | scalarType x => x.name.WellFormed
  | selectionSet x => x.WellFormed
  | typeRef x => x.WellFormed
  | typeExtension x => x.definition.WellFormed
  | unionType x => (TypeDefinition.union x).WellFormed
  | value x => x.WellFormed
  | var x => x.name.WellFormed
  | variableDefinition x => x.WellFormed

theorem wellFormed_selection_node {s : Selection} (ho : s.WellFormedOutside)
    (hi : ∀ t, s.selectionSet? = some t → t.WellFormed) : s.node.WellFormed := by
  cases s with
  | field f => exact ⟨ho, hi⟩
  | spread s => exact ho
  | inline f => exact ⟨ho, hi _ rfl⟩

theorem wellFormed_definition_node {d : Definition} (h : d.WellFormed) : d.node.WellFormed := by
  cases d with
  | type t => cases t <;> exact h
  | _ => exact h

/-- The children of a well-formed node are well-formed. -/
theorem wellFormed_children {n : Node} (h : n.WellFormed) : ∀ c ∈ n.children, c.WellFormed := by
  cases n with
  | argument x => simpa [children, WellFormed] using ⟨h.name, h.value⟩
  | directive x => simpa [children, WellFormed] using ⟨h.name, h.arguments⟩
  | document x => simpa [children] using fun d hd => wellFormed_definition_node (h.definitions d hd)
  | enumType x => simpa [children, WellFormed] using ⟨h.1, h.2.2⟩
  | enumValueDefinition x => simpa [children, WellFormed] using h
  | field x =>
    obtain ⟨⟨halias, hname, harguments, hdirectives⟩, hset⟩ := h
    simpa [children, WellFormed, or_imp, forall_and] using
      ⟨halias, hname, harguments, hdirectives, hset⟩
  | fieldDefinition x =>
    simpa [children, WellFormed, or_imp, forall_and] using ⟨h.name, h.arguments, h.type⟩
  | fragmentDefinition x =>
    simpa [children, WellFormed, or_imp, forall_and] using
      ⟨h.name.1, h.typeCondition, h.directives, h.selectionSet⟩
  | fragmentSpread x => simpa [children, WellFormed] using ⟨h.1.1, h.2⟩
  | inlineFragment x =>
    simpa [children, WellFormed, or_imp, forall_and] using ⟨h.1.1, h.1.2, h.2⟩
  | inputObjectType x => simpa [children, WellFormed] using ⟨h.1, h.2.2⟩
  | inputValueDefinition x =>
    simpa [children, WellFormed] using ⟨h.name, h.type, fun v hv => (h.default v hv).1⟩
  | interfaceType x => simpa [children, WellFormed] using ⟨h.1, h.2.2⟩
  | name x => simp [children]
  | objectField x => simpa [children, WellFormed] using h
  | objectType x =>
    simpa [children, WellFormed, or_imp, forall_and] using ⟨h.name, h.interfaces, h.fields⟩
  | operationDefinition x =>
    simpa [children, WellFormed, or_imp, forall_and] using
      ⟨h.name, h.variableDefinitions, h.directives, h.selectionSet⟩
  | scalarType x => simpa [children, WellFormed] using h
  | selectionSet x =>
    obtain ⟨_, ho, hi⟩ := h
    simpa [children] using fun s hs => wellFormed_selection_node (ho s hs) (hi s hs)
  | typeRef x =>
    cases x with
    | nonNull t => simpa [children, ofTypeParts, WellFormed] using h.2
    | _ => simpa [children, ofTypeParts, WellFormed, TypeRef.WellFormed] using h
  | typeExtension x => simpa [children, WellFormed] using h
  | unionType x => simpa [children, WellFormed] using ⟨h.1, h.2.2⟩
  | value x =>
    cases x with
    | var v => simpa [children, ofValueParts, WellFormed] using h
    | list items => simpa [children, ofValueParts, WellFormed] using h
    | object fields => simpa [children, ofValueParts, WellFormed] using h
    | _ => simp [children, ofValueParts]
  | var x => simpa [children, WellFormed] using h
  | variableDefinition x =>
    simpa [children, WellFormed] using ⟨h.name, h.type, fun v hv => (h.default v hv).1⟩

/-- Well-formed nodes are sound. -/
theorem WellFormed.sound {n : Node} (h : n.WellFormed) : n.Sound := by
  cases n with
  | document x => exact h.nonempty
  | enumType x => exact h.2.1
  | fragmentDefinition x => exact h.name.2
  | fragmentSpread x => exact h.1.2
  | inputObjectType x => exact h.2.1
  | inputValueDefinition x => exact fun v hv => constant_of_isConst (h.default v hv).2
  | interfaceType x => exact h.2.1
  | name x => exact h
  | objectType x => exact h.nonempty
  | selectionSet x =>
    obtain ⟨hne, _, _⟩ := h
    exact hne
  | typeRef x =>
    rintro t rfl
    cases h.1
  | unionType x => exact h.2.1
  | value x =>
    cases h with
    | int h => exact h
    | float h => exact h
    | enum h => exact h
    | _ => trivial
  | variableDefinition x => exact fun v hv => constant_of_isConst (h.default v hv).2
  | _ => trivial

end Node

namespace Document

/-- In a document that was read every node is sound, and the nesting stays
within the limit. -/
theorem sound_of_ofSource {d : Document} {options : ParseOptions} {source : String}
    (h : ofSource options source = .ok d) :
    (∀ n ∈ (Node.document d).entered, n.Sound) ∧ d.depth ≤ options.maxDepth := by
  obtain ⟨hd, hdepth⟩ := wellFormed_of_ofSource h
  refine ⟨fun n hn => ?_, hdepth⟩
  exact (Node.of_mem_entered (fun _ => Node.wellFormed_children) (n := .document d) hd hn).sound

/-- `input I {a: [Int!] = [b]}`. -/
def inputWithDefault : Document :=
  ⟨[.type (.inputObject ⟨⟨"I"⟩,
    [⟨⟨"a"⟩, .list (.nonNull (.named ⟨"Int"⟩)), some (.list [.enum "b"])⟩]⟩)]⟩

theorem ofSource_inputWithDefault :
    ofSource ⟨2⟩ "input I \x7ba: [Int!] = [b]\x7d" = .ok inputWithDefault := by
  refine eq_ok_of_toOption ?_
  rw [ofSource, tokenize_eq_firstItems]
  decide +kernel

theorem sound_of_ofSource_inputWithDefault :
    ofSource ⟨2⟩ "input I \x7ba: [Int!] = [b]\x7d" = .ok inputWithDefault ∧
      (∀ n ∈ (Node.document inputWithDefault).entered, n.Sound) ∧
        inputWithDefault.depth ≤ 2 :=
  ⟨ofSource_inputWithDefault, sound_of_ofSource ofSource_inputWithDefault⟩

end Document

end GraphQL
