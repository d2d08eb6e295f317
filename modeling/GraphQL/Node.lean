/-
Nodes.

A `Node` is any part of a document that has a meaning of its own: the document
itself, a definition, a selection, a value, a name, and so on.  Sums that only
say which kind of part stands somewhere are no nodes; they turn into the node
they hold.

* `Node.children` — the nodes directly inside a node, in the order of the text;
* `Node.source`, `Node.appendTo` — how a node is written;
* `Node.sizeOf_lt_of_mem_children` — children are smaller, so every walk ends.
-/
import GraphQL.Layout.Document

namespace GraphQL

/-- A part of a document. -/
inductive Node
  | argument (x : Argument)
  | directive (x : Directive)
  | document (x : Document)
  | enumType (x : EnumType)
  | enumValueDefinition (x : EnumValueDefinition)
  | field (x : Field)
  | fieldDefinition (x : FieldDefinition)
  | fragmentDefinition (x : FragmentDefinition)
  | fragmentSpread (x : FragmentSpread)
  | inlineFragment (x : InlineFragment)
  | inputObjectType (x : InputObjectType)
  | inputValueDefinition (x : InputValueDefinition)
  | interfaceType (x : InterfaceType)
  | name (x : Name)
  | objectField (x : ObjectField)
  | objectType (x : ObjectType)
  | operationDefinition (x : OperationDefinition)
  | scalarType (x : ScalarType)
  | selectionSet (x : SelectionSet)
  | typeRef (x : TypeRef)
  | typeExtension (x : TypeExtension)
  | unionType (x : UnionType)
  | value (x : Value)
  | var (x : Variable)
  | variableDefinition (x : VariableDefinition)
deriving DecidableEq

/-- The node that a selection holds. -/
def Selection.node : Selection → Node
  | field f => .field f
  | spread s => .fragmentSpread s
  | inline f => .inlineFragment f

/-- The node that a type definition holds. -/
def TypeDefinition.node : TypeDefinition → Node
  | scalar t => .scalarType t
  | object t => .objectType t
  | interface t => .interfaceType t
  | union t => .unionType t
  | enum t => .enumType t
  | inputObject t => .inputObjectType t

/-- The node that a definition holds. -/
def Definition.node : Definition → Node
  | operation d => .operationDefinition d
  | fragment d => .fragmentDefinition d
  | type d => d.node
  | extension d => .typeExtension d

namespace Node

/-- The nodes directly inside a value. -/
def ofValueParts : Value → List Node
  | .var v => [var v]
  | .list items => items.map value
  | .object fields => fields.map objectField
  | .int _ | .float _ | .string _ | .boolean _ | .enum _ => []

/-- The nodes directly inside a type. -/
def ofTypeParts : TypeRef → List Node
  | .named n => [name n]
  | .list item => [typeRef item]
  | .nonNull inner => [typeRef inner]

/-- The nodes directly inside a node, in the order of the text. -/
def children : Node → List Node
  | argument x => [name x.name, value x.value]
  | directive x => name x.name :: x.arguments.map argument
  | document x => x.definitions.map Definition.node
  | enumType x => name x.name :: x.values.map enumValueDefinition
  | enumValueDefinition x => [name x.name]
  | field x =>
    x.alias?.toList.map name ++ name x.name :: x.arguments.map argument
      ++ x.directives.map directive ++ x.selectionSet?.toList.map selectionSet
  | fieldDefinition x => name x.name :: x.arguments.map inputValueDefinition ++ [typeRef x.type]
  | fragmentDefinition x =>
    [name x.name, name x.typeCondition] ++ x.directives.map directive
      ++ [selectionSet x.selectionSet]
  | fragmentSpread x => name x.name :: x.directives.map directive
  | inlineFragment x =>
    x.typeCondition?.toList.map name ++ x.directives.map directive
      ++ [selectionSet x.selectionSet]
  | inputObjectType x => name x.name :: x.fields.map inputValueDefinition
  | inputValueDefinition x => [name x.name, typeRef x.type] ++ x.default?.toList.map value
  | interfaceType x => name x.name :: x.fields.map fieldDefinition
  | name _ => []
  | objectField x => [name x.name, value x.value]
  | objectType x => name x.name :: x.interfaces.map name ++ x.fields.map fieldDefinition
  | operationDefinition x =>
    x.name?.toList.map name ++ x.variableDefinitions.map variableDefinition
      ++ x.directives.map directive ++ [selectionSet x.selectionSet]
  | scalarType x => [name x.name]
  | selectionSet x => x.selections.map Selection.node
  | typeRef x => ofTypeParts x
  | typeExtension x => [objectType x.definition]
  | unionType x => name x.name :: x.members.map name
  | value x => ofValueParts x
  | var x => [name x.name]
  | variableDefinition x => [var x.var, typeRef x.type] ++ x.default?.toList.map value

/-- The layout of a node. -/
def layout : Node → List Piece
  | argument x => x.layout
  | directive x => x.layout
  | document x => x.layout 0
  | enumType x => x.layout 0
  | enumValueDefinition x => x.layout
  | field x => x.layout 0
  | fieldDefinition x => x.layout
  | fragmentDefinition x => x.layout 0
  | fragmentSpread x => x.layout
  | inlineFragment x => x.layout 0
  | inputObjectType x => x.layout 0
  | inputValueDefinition x => x.layout
  | interfaceType x => x.layout 0
  | name x => x.layout
  | objectField x => x.layout
  | objectType x => x.layout 0
  | operationDefinition x => x.layout 0
  | scalarType x => x.layout
  | selectionSet x => x.layout 0
  | typeRef x => x.layout
  | typeExtension x => x.layout 0
  | unionType x => x.layout
  | value x => x.layout
  | var x => x.layout
  | variableDefinition x => x.layout

/-- Writes a node behind a text, at a level of nesting. -/
def appendTo (sink : String) (level : Nat) (n : Node) : String :=
  sink ++ String.ofList (render level n.layout)

/-- A node as a text of its own. -/
def source (n : Node) : String := n.appendTo "" 0

theorem sizeOf_selection_node (s : Selection) : sizeOf s.node ≤ 1 + sizeOf s := by
  cases s <;> simp [Selection.node]

theorem sizeOf_definition_node (d : Definition) : sizeOf d.node ≤ 1 + sizeOf d := by
  cases d with
  | type t => cases t <;> simp [Definition.node, TypeDefinition.node] <;> omega
  | _ => simp [Definition.node]

/-- A child is smaller than the node it is inside. -/
theorem sizeOf_lt_of_mem_children {n c : Node} (h : c ∈ n.children) : sizeOf c < sizeOf n := by
  have hs := sizeOf_selection_node
  have hd := sizeOf_definition_node
  cases n <;> rename_i x <;> cases x <;>
    simp [children, ofValueParts, ofTypeParts] at h ⊢ <;>
    grind [→ List.sizeOf_lt_of_mem]

end Node

/-- A document as a text. -/
def Document.source (d : Document) : String := (Node.document d).source

end GraphQL
