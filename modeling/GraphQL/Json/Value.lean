/-
Names, values and types as JSON.
-/
import GraphQL.Document.TypeRef
import GraphQL.Json

namespace GraphQL

open Codec Json

instance : Codec Name where
  encode n := .object [("value", encode n.text)]
  decode? j := do
    let members ← j.members?
    return ⟨← required members "value"⟩

instance : Codec Variable where
  encode v := .object [("name", encode v.name)]
  decode? j := do
    let members ← j.members?
    return ⟨← required members "name"⟩

mutual

/-- Writes a value as JSON. -/
def Value.toJson : Value → Json
  | .var v => variant "Variable" v
  | .int text => variant "Int" text
  | .float text => variant "Float" text
  | .string contents => variant "String" contents
  | .boolean b => variant "Boolean" b
  | .enum text => variant "Enum" text
  | .list items => .object [("List", .array (Value.toJsonItems items))]
  | .object fields => .object [("Object", .array (ObjectField.toJsonItems fields))]

/-- Writes an object field as JSON. -/
def ObjectField.toJson : ObjectField → Json
  | ⟨name, value⟩ => .object [("name", encode name), ("value", value.toJson)]

/-- Writes some values as JSON. -/
def Value.toJsonItems : List Value → List Json
  | [] => []
  | v :: vs => v.toJson :: Value.toJsonItems vs

/-- Writes some object fields as JSON. -/
def ObjectField.toJsonItems : List ObjectField → List Json
  | [] => []
  | f :: fs => f.toJson :: ObjectField.toJsonItems fs

end

mutual

/-- Reads a value from JSON. -/
def Value.ofJson? : Json → Option Value
  | .object [(tag, payload)] =>
    match tag with
    | "Variable" => Value.var <$> decode? payload
    | "Int" => Value.int <$> decode? payload
    | "Float" => Value.float <$> decode? payload
    | "String" => Value.string <$> decode? payload
    | "Boolean" => Value.boolean <$> decode? payload
    | "Enum" => Value.enum <$> decode? payload
    | "List" => Value.list <$> Value.ofArray? payload
    | "Object" => Value.object <$> ObjectField.ofArray? payload
    | _ => none
  | _ => none

/-- Reads an array of values. -/
def Value.ofArray? : Json → Option (List Value)
  | .array items => Value.ofItems? items
  | _ => none

/-- Reads the items of an array as values. -/
def Value.ofItems? : List Json → Option (List Value)
  | [] => some []
  | j :: js => do return (← Value.ofJson? j) :: (← Value.ofItems? js)

/-- Reads a field of a record as a value. -/
def Value.ofMember? (field : String) : List (String × Json) → Option Value
  | [] => none
  | (name, j) :: rest => if field == name then Value.ofJson? j else Value.ofMember? field rest

/-- Reads an object field. -/
def ObjectField.ofJson? : Json → Option ObjectField
  | .object members => do
    return ⟨← required members "name", ← Value.ofMember? "value" members⟩
  | _ => none

/-- Reads an array of object fields. -/
def ObjectField.ofArray? : Json → Option (List ObjectField)
  | .array items => ObjectField.ofItems? items
  | _ => none

/-- Reads the items of an array as object fields. -/
def ObjectField.ofItems? : List Json → Option (List ObjectField)
  | [] => some []
  | j :: js => do return (← ObjectField.ofJson? j) :: (← ObjectField.ofItems? js)

end

instance : Codec Value := ⟨Value.toJson, Value.ofJson?⟩

instance : Codec ObjectField := ⟨ObjectField.toJson, ObjectField.ofJson?⟩

/-- Writes a type as JSON. -/
def TypeRef.toJson : TypeRef → Json
  | .named name => variant "Named" name
  | .list item => .object [("List", item.toJson)]
  | .nonNull inner => .object [("NonNull", inner.toJson)]

/-- Reads a type from JSON. -/
def TypeRef.ofJson? : Json → Option TypeRef
  | .object [(tag, payload)] =>
    match tag with
    | "Named" => TypeRef.named <$> decode? payload
    | "List" => TypeRef.list <$> TypeRef.ofJson? payload
    | "NonNull" => TypeRef.nonNull <$> TypeRef.ofJson? payload
    | _ => none
  | _ => none

instance : Codec TypeRef := ⟨TypeRef.toJson, TypeRef.ofJson?⟩

end GraphQL
