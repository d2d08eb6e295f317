/-
Documents.

A `Document` is a list of definitions: operations and fragments, which can be
executed, and types, which make up a schema.

* `Document.executable`, `Document.schema`, `Document.operations` — its parts;
* `OperationDefinition.isShorthand` — the operations written as a bare
  selection set.
-/
import GraphQL.Document.TypeRef
import GraphQL.Document.Selection
import GraphQL.Keyword

namespace GraphQL

/-- What an operation does. -/
inductive OperationKind
  | query
  | mutation
  | subscription
deriving DecidableEq

namespace OperationKind

/-- The keyword that opens an operation. -/
def keyword : OperationKind → Keyword
  | query => .query
  | mutation => .mutation
  | subscription => .subscription

/-- The kind of operation that a keyword opens. -/
def ofKeyword? : Keyword → Option OperationKind
  | .query => some query
  | .mutation => some mutation
  | .subscription => some subscription
  | _ => none

end OperationKind

/-- A variable that an operation declares. -/
structure VariableDefinition where
  var : Variable
  type : TypeRef
  default? : Option Value
deriving DecidableEq

/-- An operation. -/
structure OperationDefinition where
  operation : OperationKind
  name? : Option Name
  variableDefinitions : List VariableDefinition
  directives : List Directive
  selectionSet : SelectionSet
deriving DecidableEq

/-- Whether an operation is written as a bare selection set: a query without
name, variables and directives. -/
def OperationDefinition.isShorthand (o : OperationDefinition) : Bool :=
  o.operation == .query && o.name?.isNone && o.variableDefinitions.isEmpty && o.directives.isEmpty

/-- A fragment that can be taken in by name. -/
structure FragmentDefinition where
  name : Name
  typeCondition : Name
  directives : List Directive
  selectionSet : SelectionSet
deriving DecidableEq

/-- An argument of a field, or a field of an input object. -/
structure InputValueDefinition where
  name : Name
  type : TypeRef
  default? : Option Value
deriving DecidableEq

/-- A field of an object or interface type. -/
structure FieldDefinition where
  name : Name
  arguments : List InputValueDefinition
  type : TypeRef
deriving DecidableEq

/-- One of the values of an enum type. -/
structure EnumValueDefinition where
  name : Name
deriving DecidableEq

/-- A scalar type. -/
structure ScalarType where
  name : Name
deriving DecidableEq

/-- An object type. -/
structure ObjectType where
  name : Name
  interfaces : List Name
  fields : List FieldDefinition
deriving DecidableEq

/-- An interface type. -/
structure InterfaceType where
  name : Name
  fields : List FieldDefinition
deriving DecidableEq

/-- A union type. -/
structure UnionType where
  name : Name
  members : List Name
deriving DecidableEq

/-- An enum type. -/
structure EnumType where
  name : Name
  values : List EnumValueDefinition
deriving DecidableEq

/-- An input object type. -/
structure InputObjectType where
  name : Name
  fields : List InputValueDefinition
deriving DecidableEq

/-- A definition of a type. -/
inductive TypeDefinition
  | scalar (t : ScalarType)
  | object (t : ObjectType)
  | interface (t : InterfaceType)
  | union (t : UnionType)
  | enum (t : EnumType)
  | inputObject (t : InputObjectType)
deriving DecidableEq

/-- The name of the defined type. -/
def TypeDefinition.name : TypeDefinition → Name
  | scalar t => t.name
  | object t => t.name
  | interface t => t.name
  | union t => t.name
  | enum t => t.name
  | inputObject t => t.name

/-- More fields and interfaces for an object type. -/
structure TypeExtension where
  definition : ObjectType
deriving DecidableEq

/-- One definition of a document. -/
inductive Definition
  | operation (d : OperationDefinition)
  | fragment (d : FragmentDefinition)
  | type (d : TypeDefinition)
  | extension (d : TypeExtension)
deriving DecidableEq

/-- Whether a definition can be executed. -/
def Definition.isExecutable : Definition → Bool
  | operation _ | fragment _ => true
  | type _ | extension _ => false

/-- A document. -/
structure Document where
  definitions : List Definition
deriving DecidableEq

namespace Document

/-- The operations and fragments of a document. -/
def executable (d : Document) : List Definition := d.definitions.filter (·.isExecutable)

/-- The types and type extensions of a document. -/
def schema (d : Document) : List Definition := d.definitions.filter (!·.isExecutable)

/-- The operations of a document. -/
def operations (d : Document) : List OperationDefinition :=
  d.definitions.filterMap fun
    | .operation o => some o
    | _ => none

end Document

end GraphQL
