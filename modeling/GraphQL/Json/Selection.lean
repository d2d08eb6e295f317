/-
Selections as JSON.
-/
import GraphQL.Document.Selection
import GraphQL.Json.Value

namespace GraphQL

open Codec Json

instance : Codec Argument where
  encode a := .object [("name", encode a.name), ("value", encode a.value)]
  decode? j := do
    let members ← j.members?
    return ⟨← required members "name", ← required members "value"⟩

instance : Codec Directive where
  encode d := .object [("arguments", encode d.arguments), ("name", encode d.name)]
  decode? j := do
    let members ← j.members?
    return ⟨← required members "name", ← required members "arguments"⟩

instance : Codec FragmentSpread where
  encode s := .object [("directives", encode s.directives), ("name", encode s.name)]
  decode? j := do
    let members ← j.members?
    return ⟨← required members "name", ← required members "directives"⟩

mutual

/-- Writes a selection as JSON. -/
def Selection.toJson : Selection → Json
  | .field f => .object [("Field", f.toJson)]
  | .spread s => variant "FragmentSpread" s
  | .inline f => .object [("InlineFragment", f.toJson)]

/-- Writes a field as JSON. -/
def Field.toJson : Field → Json
  | ⟨alias?, name, arguments, directives, selectionSet?⟩ =>
    .object [("alias", encode alias?), ("arguments", encode arguments),
      ("directives", encode directives), ("name", encode name),
      ("selection_set",
        match selectionSet? with
        | some ss => ss.toJson
        | none => .null)]

/-- Writes an inline fragment as JSON. -/
def InlineFragment.toJson : InlineFragment → Json
  | ⟨typeCondition?, directives, selectionSet⟩ =>
    .object [("directives", encode directives), ("selection_set", selectionSet.toJson),
      ("type_condition", encode typeCondition?)]

/-- Writes a selection set as JSON. -/
def SelectionSet.toJson : SelectionSet → Json
  | ⟨selections⟩ => .object [("selections", .array (Selection.toJsonItems selections))]

/-- Writes some selections as JSON. -/
def Selection.toJsonItems : List Selection → List Json
  | [] => []
  | s :: ss => s.toJson :: Selection.toJsonItems ss

end

mutual

/-- Reads a selection from JSON. -/
def Selection.ofJson? : Json → Option Selection
  | .object [(tag, payload)] =>
    match tag with
    | "Field" => Selection.field <$> Field.ofJson? payload
    | "FragmentSpread" => Selection.spread <$> decode? payload
    | "InlineFragment" => Selection.inline <$> InlineFragment.ofJson? payload
    | _ => none
  | _ => none

/-- Reads a field from JSON. -/
def Field.ofJson? : Json → Option Field
  | .object members => do
    return ⟨← optional members "alias", ← required members "name",
      ← required members "arguments", ← required members "directives",
      ← SelectionSet.ofOptional? "selection_set" members⟩
  | _ => none

/-- Reads an inline fragment from JSON. -/
def InlineFragment.ofJson? : Json → Option InlineFragment
  | .object members => do
    return ⟨← optional members "type_condition", ← required members "directives",
      ← SelectionSet.ofRequired? "selection_set" members⟩
  | _ => none

/-- Reads a selection set from JSON. -/
def SelectionSet.ofJson? : Json → Option SelectionSet
  | .object members => SelectionSet.mk <$> Selection.ofRequired? "selections" members
  | _ => none

/-- Reads a selection set that may be missing. -/
def SelectionSet.ofNullable? : Json → Option (Option SelectionSet)
  | .null => some none
  | .object members => (some ∘ SelectionSet.mk) <$> Selection.ofRequired? "selections" members
  | _ => none

/-- Reads a field of a record as a selection set that may be missing. -/
def SelectionSet.ofOptional? (field : String) :
    List (String × Json) → Option (Option SelectionSet)
  | [] => some none
  | (name, j) :: rest =>
    if field == name then SelectionSet.ofNullable? j else SelectionSet.ofOptional? field rest

/-- Reads a field of a record as a selection set. -/
def SelectionSet.ofRequired? (field : String) : List (String × Json) → Option SelectionSet
  | [] => none
  | (name, j) :: rest =>
    if field == name then SelectionSet.ofJson? j else SelectionSet.ofRequired? field rest

/-- Reads a field of a record as an array of selections. -/
def Selection.ofRequired? (field : String) : List (String × Json) → Option (List Selection)
  | [] => none
  | (name, j) :: rest =>
    if field == name then Selection.ofArray? j else Selection.ofRequired? field rest

/-- Reads an array of selections. -/
def Selection.ofArray? : Json → Option (List Selection)
  | .array items => Selection.ofItems? items
  | _ => none

/-- Reads the items of an array as selections. -/
def Selection.ofItems? : List Json → Option (List Selection)
  | [] => some []
  | j :: js => do return (← Selection.ofJson? j) :: (← Selection.ofItems? js)

end

instance : Codec Selection := ⟨Selection.toJson, Selection.ofJson?⟩

instance : Codec Field := ⟨Field.toJson, Field.ofJson?⟩

instance : Codec InlineFragment := ⟨InlineFragment.toJson, InlineFragment.ofJson?⟩

instance : Codec SelectionSet := ⟨SelectionSet.toJson, SelectionSet.ofJson?⟩

end GraphQL
