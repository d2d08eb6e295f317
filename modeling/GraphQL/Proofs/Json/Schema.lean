/-
What documents look like as JSON.

* `TreeType.shape` — for each type of tree its fields, or its alternatives;
* `Canonical` — the form in which trees are written: records with all their
  fields, alternatives under their names;
* `Accepts` — which JSON values are read, and the form in which they are written
  again;
* `Accepts.canonical` — this form is the canonical one.

Design notes: nothing here refers to a codec.  Trees are recursive, so a schema
refers to their types by name.  An option may only be one of a tree, since no
tree is written as `null`.
-/
import GraphQL.Json.Definition

namespace GraphQL

/-- The types of tree that a document is made up of. -/
inductive TreeType
  | argument
  | definition
  | directive
  | document
  | enumType
  | enumValueDefinition
  | field
  | fieldDefinition
  | fragmentDefinition
  | fragmentSpread
  | inlineFragment
  | inputObjectType
  | inputValueDefinition
  | interfaceType
  | name
  | objectField
  | objectType
  | operationDefinition
  | operationKind
  | scalarType
  | selection
  | selectionSet
  | typeDefinition
  | typeExtension
  | typeRef
  | unionType
  | value
  | var
  | variableDefinition
deriving DecidableEq

/-- What stands in a field of a record or in an alternative. -/
inductive Schema
  | text
  | flag
  | tree (t : TreeType)
  | optional (t : TreeType)
  | list (t : TreeType)
deriving DecidableEq

/-- What a tree is made up of: fields, one of some alternatives, or only a name. -/
inductive Shape
  | record (fields : List (String × Schema))
  | sum (alternatives : List (String × Schema))
  | unit (names : List String)

/-- What each type of tree is made up of. -/
def TreeType.shape : TreeType → Shape
  | argument => .record [("name", .tree name), ("value", .tree value)]
  | definition =>
    .sum [("OperationDefinition", .tree operationDefinition),
      ("FragmentDefinition", .tree fragmentDefinition), ("TypeDefinition", .tree typeDefinition),
      ("TypeExtension", .tree typeExtension)]
  | directive => .record [("arguments", .list argument), ("name", .tree name)]
  | document => .record [("definitions", .list definition)]
  | enumType => .record [("name", .tree name), ("values", .list enumValueDefinition)]
  | enumValueDefinition => .record [("name", .tree name)]
  | field =>
    .record [("alias", .optional name), ("arguments", .list argument),
      ("directives", .list directive), ("name", .tree name),
      ("selection_set", .optional selectionSet)]
  | fieldDefinition =>
    .record [("arguments", .list inputValueDefinition), ("field_type", .tree typeRef),
      ("name", .tree name)]
  | fragmentDefinition =>
    .record [("directives", .list directive), ("name", .tree name),
      ("selection_set", .tree selectionSet), ("type_condition", .tree name)]
  | fragmentSpread => .record [("directives", .list directive), ("name", .tree name)]
  | inlineFragment =>
    .record [("directives", .list directive), ("selection_set", .tree selectionSet),
      ("type_condition", .optional name)]
  | inputObjectType => .record [("fields", .list inputValueDefinition), ("name", .tree name)]
  | inputValueDefinition =>
    .record [("default_value", .optional value), ("name", .tree name),
      ("value_type", .tree typeRef)]
  | interfaceType => .record [("fields", .list fieldDefinition), ("name", .tree name)]
  | name => .record [("value", .text)]
  | objectField => .record [("name", .tree name), ("value", .tree value)]
  | objectType =>
    .record [("fields", .list fieldDefinition), ("interfaces", .list name), ("name", .tree name)]
  | operationDefinition =>
    .record [("directives", .list directive), ("name", .optional name),
      ("operation", .tree operationKind), ("selection_set", .tree selectionSet),
      ("variable_definitions", .list variableDefinition)]
  | operationKind => .unit ["Query", "Mutation", "Subscription"]
  | scalarType => .record [("name", .tree name)]
  | selection =>
    .sum [("Field", .tree field), ("FragmentSpread", .tree fragmentSpread),
      ("InlineFragment", .tree inlineFragment)]
  | selectionSet => .record [("selections", .list selection)]
  | typeDefinition =>
    .sum [("Scalar", .tree scalarType), ("Object", .tree objectType),
      ("Interface", .tree interfaceType), ("Union", .tree unionType), ("Enum", .tree enumType),
      ("InputObject", .tree inputObjectType)]
  | typeExtension => .record [("definition", .tree objectType)]
  | typeRef => .sum [("Named", .tree name), ("List", .tree typeRef), ("NonNull", .tree typeRef)]
  | unionType => .record [("name", .tree name), ("types", .list name)]
  | value =>
    .sum [("Variable", .tree var), ("Int", .text), ("Float", .text), ("String", .text),
      ("Boolean", .flag), ("Enum", .text), ("List", .list value), ("Object", .list objectField)]
  | var => .record [("name", .tree name)]
  | variableDefinition =>
    .record [("default_value", .optional value), ("var_type", .tree typeRef),
      ("variable", .tree var)]

mutual

/-- The canonical form: a record has all its fields and nothing else, an
alternative is an object of one member, and a missing option is `null`. -/
inductive Canonical : Schema → Json → Prop
  | text (s : String) : Canonical .text (.string s)
  | flag (b : Bool) : Canonical .flag (.bool b)
  | record {t : TreeType} {fields : List (String × Schema)} {cs : List (String × Json)}
    (ht : t.shape = .record fields) (h : CanonicalFields fields cs) :
    Canonical (.tree t) (.object cs)
  | alternative {t : TreeType} {alternatives : List (String × Schema)} {tag : String} {s : Schema}
    {c : Json} (ht : t.shape = .sum alternatives) (hs : (tag, s) ∈ alternatives)
    (h : Canonical s c) : Canonical (.tree t) (.object [(tag, c)])
  | unit {t : TreeType} {names : List String} {tag : String} (ht : t.shape = .unit names)
    (h : tag ∈ names) : Canonical (.tree t) (.string tag)
  | none (t : TreeType) : Canonical (.optional t) .null
  | some {t : TreeType} {c : Json} (h : Canonical (.tree t) c) : Canonical (.optional t) c
  | list {t : TreeType} {cs : List Json} (h : CanonicalItems t cs) :
    Canonical (.list t) (.array cs)

/-- The members of a record in canonical form, one for each field. -/
inductive CanonicalFields : List (String × Schema) → List (String × Json) → Prop
  | nil : CanonicalFields [] []
  | cons {field : String} {s : Schema} {c : Json} {fields : List (String × Schema)}
    {cs : List (String × Json)} (h : Canonical s c) (hs : CanonicalFields fields cs) :
    CanonicalFields ((field, s) :: fields) ((field, c) :: cs)

/-- The items of a list in canonical form. -/
inductive CanonicalItems : TreeType → List Json → Prop
  | nil (t : TreeType) : CanonicalItems t []
  | cons {t : TreeType} {c : Json} {cs : List Json} (h : Canonical (.tree t) c)
    (hs : CanonicalItems t cs) : CanonicalItems t (c :: cs)

end

mutual

/-- What is read, and the canonical form of it. -/
inductive Accepts : Schema → Json → Json → Prop
  | text (s : String) : Accepts .text (.string s) (.string s)
  | flag (b : Bool) : Accepts .flag (.bool b) (.bool b)
  | record {t : TreeType} {fields : List (String × Schema)} {members cs : List (String × Json)}
    (ht : t.shape = .record fields) (h : AcceptsFields members fields cs) :
    Accepts (.tree t) (.object members) (.object cs)
  | alternative {t : TreeType} {alternatives : List (String × Schema)} {tag : String} {s : Schema}
    {j c : Json} (ht : t.shape = .sum alternatives) (hs : (tag, s) ∈ alternatives)
    (h : Accepts s j c) : Accepts (.tree t) (.object [(tag, j)]) (.object [(tag, c)])
  | unit {t : TreeType} {names : List String} {tag : String} (ht : t.shape = .unit names)
    (h : tag ∈ names) : Accepts (.tree t) (.string tag) (.string tag)
  | unitObject {t : TreeType} {names : List String} {tag : String} (ht : t.shape = .unit names)
    (h : tag ∈ names) : Accepts (.tree t) (.object [(tag, .null)]) (.string tag)
  | none (t : TreeType) : Accepts (.optional t) .null .null
  | some {t : TreeType} {j c : Json} (h : Accepts (.tree t) j c) : Accepts (.optional t) j c
  | list {t : TreeType} {js cs : List Json} (h : AcceptsItems t js cs) :
    Accepts (.list t) (.array js) (.array cs)

/-- The fields of a record are looked up among its members, whatever their order
and whatever else there is. -/
inductive AcceptsFields :
    List (String × Json) → List (String × Schema) → List (String × Json) → Prop
  | nil (members : List (String × Json)) : AcceptsFields members [] []
  | cons {members : List (String × Json)} {field : String} {s : Schema} {j c : Json}
    {fields : List (String × Schema)} {cs : List (String × Json)}
    (hj : members.lookup field = some j) (h : Accepts s j c)
    (hs : AcceptsFields members fields cs) :
    AcceptsFields members ((field, s) :: fields) ((field, c) :: cs)
  /-- Only an option may be missing. -/
  | missing {members : List (String × Json)} {field : String} {t : TreeType}
    {fields : List (String × Schema)} {cs : List (String × Json)}
    (hj : members.lookup field = none) (hs : AcceptsFields members fields cs) :
    AcceptsFields members ((field, .optional t) :: fields) ((field, .null) :: cs)

/-- Lists are read item by item. -/
inductive AcceptsItems : TreeType → List Json → List Json → Prop
  | nil (t : TreeType) : AcceptsItems t [] []
  | cons {t : TreeType} {j c : Json} {js cs : List Json} (h : Accepts (.tree t) j c)
    (hs : AcceptsItems t js cs) : AcceptsItems t (j :: js) (c :: cs)

end

mutual

/-- What is written again is in canonical form. -/
theorem Accepts.canonical {s : Schema} {j c : Json} : Accepts s j c → Canonical s c
  | .text s => .text s
  | .flag b => .flag b
  | .record ht h => .record ht h.canonical
  | .alternative ht hs h => .alternative ht hs h.canonical
  | .unit ht h => .unit ht h
  | .unitObject ht h => .unit ht h
  | .none t => .none t
  | .some h => .some h.canonical
  | .list h => .list h.canonical

theorem AcceptsFields.canonical {members : List (String × Json)} {fields : List (String × Schema)}
    {cs : List (String × Json)} : AcceptsFields members fields cs → CanonicalFields fields cs
  | .nil _ => .nil
  | .cons _ h hs => .cons h.canonical hs.canonical
  | .missing _ hs => .cons (.none _) hs.canonical

theorem AcceptsItems.canonical {t : TreeType} {js cs : List Json} :
    AcceptsItems t js cs → CanonicalItems t cs
  | .nil t => .nil t
  | .cons h hs => .cons h.canonical hs.canonical

end

end GraphQL
