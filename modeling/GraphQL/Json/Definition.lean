/-
Documents as JSON.
-/
import GraphQL.Document.Definition
import GraphQL.Json.Selection

namespace GraphQL

open Codec Json

instance : Codec OperationKind where
  encode
    | .query => .string "Query"
    | .mutation => .string "Mutation"
    | .subscription => .string "Subscription"
  decode? j := do
    match ← j.unitVariant? with
    | "Query" => some .query
    | "Mutation" => some .mutation
    | "Subscription" => some .subscription
    | _ => none

instance : Codec VariableDefinition where
  encode d :=
    .object [("default_value", encode d.default?), ("var_type", encode d.type),
      ("variable", encode d.var)]
  decode? j := do
    let members ← j.members?
    return ⟨← required members "variable", ← required members "var_type",
      ← optional members "default_value"⟩

instance : Codec OperationDefinition where
  encode d :=
    .object [("directives", encode d.directives), ("name", encode d.name?),
      ("operation", encode d.operation), ("selection_set", encode d.selectionSet),
      ("variable_definitions", encode d.variableDefinitions)]
  decode? j := do
    let members ← j.members?
    return ⟨← required members "operation", ← optional members "name",
      ← required members "variable_definitions", ← required members "directives",
      ← required members "selection_set"⟩

instance : Codec FragmentDefinition where
  encode d :=
    .object [("directives", encode d.directives), ("name", encode d.name),
      ("selection_set", encode d.selectionSet), ("type_condition", encode d.typeCondition)]
  decode? j := do
    let members ← j.members?
    return ⟨← required members "name", ← required members "type_condition",
      ← required members "directives", ← required members "selection_set"⟩

instance : Codec InputValueDefinition where
  encode d :=
    .object [("default_value", encode d.default?), ("name", encode d.name),
      ("value_type", encode d.type)]
  decode? j := do
    let members ← j.members?
    return ⟨← required members "name", ← required members "value_type",
      ← optional members "default_value"⟩

instance : Codec FieldDefinition where
  encode d :=
    .object [("arguments", encode d.arguments), ("field_type", encode d.type),
      ("name", encode d.name)]
  decode? j := do
    let members ← j.members?
    return ⟨← required members "name", ← required members "arguments",
      ← required members "field_type"⟩

instance : Codec EnumValueDefinition where
  encode d := .object [("name", encode d.name)]
  decode? j := do
    let members ← j.members?
    return ⟨← required members "name"⟩

instance : Codec ScalarType where
  encode t := .object [("name", encode t.name)]
  decode? j := do
    let members ← j.members?
    return ⟨← required members "name"⟩

instance : Codec ObjectType where
  encode t :=
    .object [("fields", encode t.fields), ("interfaces", encode t.interfaces),
      ("name", encode t.name)]
  decode? j := do
    let members ← j.members?
    return ⟨← required members "name", ← required members "interfaces",
      ← required members "fields"⟩

instance : Codec InterfaceType where
  encode t := .object [("fields", encode t.fields), ("name", encode t.name)]
  decode? j := do
    let members ← j.members?
    return ⟨← required members "name", ← required members "fields"⟩

instance : Codec UnionType where
  encode t := .object [("name", encode t.name), ("types", encode t.members)]
  decode? j := do
    let members ← j.members?
    return ⟨← required members "name", ← required members "types"⟩

instance : Codec EnumType where
  encode t := .object [("name", encode t.name), ("values", encode t.values)]
  decode? j := do
    let members ← j.members?
    return ⟨← required members "name", ← required members "values"⟩

instance : Codec InputObjectType where
  encode t := .object [("fields", encode t.fields), ("name", encode t.name)]
  decode? j := do
    let members ← j.members?
    return ⟨← required members "name", ← required members "fields"⟩

instance : Codec TypeDefinition where
  encode
    | .scalar t => variant "Scalar" t
    | .object t => variant "Object" t
    | .interface t => variant "Interface" t
    | .union t => variant "Union" t
    | .enum t => variant "Enum" t
    | .inputObject t => variant "InputObject" t
  decode?
    | .object [(tag, payload)] =>
      match tag with
      | "Scalar" => .scalar <$> decode? payload
      | "Object" => .object <$> decode? payload
      | "Interface" => .interface <$> decode? payload
      | "Union" => .union <$> decode? payload
      | "Enum" => .enum <$> decode? payload
      | "InputObject" => .inputObject <$> decode? payload
      | _ => none
    | _ => none

instance : Codec TypeExtension where
  encode e := .object [("definition", encode e.definition)]
  decode? j := do
    let members ← j.members?
    return ⟨← required members "definition"⟩

instance : Codec Definition where
  encode
    | .operation d => variant "OperationDefinition" d
    | .fragment d => variant "FragmentDefinition" d
    | .type d => variant "TypeDefinition" d
    | .extension d => variant "TypeExtension" d
  decode?
    | .object [(tag, payload)] =>
      match tag with
      | "OperationDefinition" => .operation <$> decode? payload
      | "FragmentDefinition" => .fragment <$> decode? payload
      | "TypeDefinition" => .type <$> decode? payload
      | "TypeExtension" => .extension <$> decode? payload
      | _ => none
    | _ => none

instance : Codec Document where
  encode d := .object [("definitions", encode d.definitions)]
  decode? j := do
    let members ← j.members?
    return ⟨← required members "definitions"⟩

end GraphQL
