/-
Well-formed documents.

Trees can be built that no text stands for: a selection set without
selections, a name with a blank in it, a fragment that is called `on`.  The
others are well-formed.

* `Value.WellFormed`, `TypeRef.WellFormed`, `SelectionSet.WellFormed` — the
  constructs that can contain themselves;
* `Document.WellFormed` — whole documents.

Design notes: a part is well-formed if the parts inside it are and nothing
stands in it that its place does not allow.  How deep a document is nested has
no part in it.
-/
import GraphQL.Document.Definition
import GraphQL.Proofs.Lexical.Lexeme

namespace GraphQL

/-! ### Names, values and types -/

/-- A name has the text of one. -/
def Name.WellFormed (n : Name) : Prop := IsName n.text

/-- A name that a fragment can have: any but `on`. -/
def Name.NamesFragment (n : Name) : Prop := n.WellFormed ∧ n.text ≠ Keyword.on.text

/-- A name that stands for itself as a value. -/
def IsEnumText (text : String) : Prop :=
  IsName text ∧ text ≠ Keyword.trueLiteral.text ∧ text ≠ Keyword.falseLiteral.text ∧
    text ≠ Keyword.nullLiteral.text

/-- Names, numbers and enum values have the text of one; a string may be any text. -/
inductive Value.WellFormed : Value → Prop
  | var {v : Variable} (h : v.name.WellFormed) : WellFormed (.var v)
  | int {text : String} (h : IsInteger text) : WellFormed (.int text)
  | float {text : String} (h : IsFloat text) : WellFormed (.float text)
  | string (contents : String) : WellFormed (.string contents)
  | boolean (b : Bool) : WellFormed (.boolean b)
  | enum {text : String} (h : IsEnumText text) : WellFormed (.enum text)
  | list {items : List Value} (h : ∀ v ∈ items, WellFormed v) : WellFormed (.list items)
  | object {fields : List ObjectField} (hn : ∀ f ∈ fields, f.name.WellFormed)
    (hv : ∀ f ∈ fields, WellFormed f.value) : WellFormed (.object fields)

namespace Value

@[simp] theorem wellFormed_var_iff {v : Variable} : (var v).WellFormed ↔ v.name.WellFormed :=
  ⟨fun | .var h => h, .var⟩

@[simp] theorem wellFormed_int_iff {text : String} : (int text).WellFormed ↔ IsInteger text :=
  ⟨fun | .int h => h, .int⟩

@[simp] theorem wellFormed_float_iff {text : String} : (float text).WellFormed ↔ IsFloat text :=
  ⟨fun | .float h => h, .float⟩

@[simp] theorem wellFormed_enum_iff {text : String} : (enum text).WellFormed ↔ IsEnumText text :=
  ⟨fun | .enum h => h, .enum⟩

@[simp] theorem wellFormed_list_iff {items : List Value} :
    (list items).WellFormed ↔ ∀ v ∈ items, v.WellFormed :=
  ⟨fun | .list h => h, .list⟩

@[simp] theorem wellFormed_object_iff {fields : List ObjectField} :
    (object fields).WellFormed ↔ ∀ f ∈ fields, f.name.WellFormed ∧ f.value.WellFormed :=
  ⟨fun | .object hn hv => fun f hf => ⟨hn f hf, hv f hf⟩,
    fun h => .object (fun f hf => (h f hf).1) fun f hf => (h f hf).2⟩

end Value

/-- A default value is free of variables. -/
def Value.WellFormedDefault (v : Value) : Prop := v.WellFormed ∧ v.isConst = true

/-- No type has two non-null marks in the same place. -/
def TypeRef.WellFormed : TypeRef → Prop
  | .named n => n.WellFormed
  | .list item => item.WellFormed
  | .nonNull inner => inner.isNonNull = false ∧ inner.WellFormed

/-! ### Selections -/

/-- An argument has a name and a value. -/
structure Argument.WellFormed (a : Argument) : Prop where
  name : a.name.WellFormed
  value : a.value.WellFormed

/-- A directive has a name and arguments. -/
structure Directive.WellFormed (d : Directive) : Prop where
  name : d.name.WellFormed
  arguments : ∀ a ∈ d.arguments, a.WellFormed

/-- A selection is well-formed, the selection set inside it left aside. -/
def Selection.WellFormedOutside : Selection → Prop
  | .field f =>
    (∀ a ∈ f.alias?, a.WellFormed) ∧ f.name.WellFormed ∧ (∀ a ∈ f.arguments, a.WellFormed) ∧
      ∀ d ∈ f.directives, d.WellFormed
  | .spread s => s.name.NamesFragment ∧ ∀ d ∈ s.directives, d.WellFormed
  | .inline f => (∀ t ∈ f.typeCondition?, t.WellFormed) ∧ ∀ d ∈ f.directives, d.WellFormed

/-- A selection set has selections, and those inside it have too. -/
inductive SelectionSet.WellFormed : SelectionSet → Prop
  | intro {ss : List Selection} (hne : ss ≠ []) (ho : ∀ s ∈ ss, s.WellFormedOutside)
    (hi : ∀ s ∈ ss, ∀ t, s.selectionSet? = some t → WellFormed t) : WellFormed ⟨ss⟩

/-! ### Operations and fragments -/

/-- A variable is declared with a type and maybe a default value. -/
structure VariableDefinition.WellFormed (d : VariableDefinition) : Prop where
  name : d.var.name.WellFormed
  type : d.type.WellFormed
  default : ∀ v ∈ d.default?, v.WellFormedDefault

/-- The parts of an operation are well-formed. -/
structure OperationDefinition.WellFormed (d : OperationDefinition) : Prop where
  name : ∀ n ∈ d.name?, n.WellFormed
  variableDefinitions : ∀ v ∈ d.variableDefinitions, v.WellFormed
  directives : ∀ m ∈ d.directives, m.WellFormed
  selectionSet : d.selectionSet.WellFormed

/-- The parts of a fragment are well-formed, and it is not called `on`. -/
structure FragmentDefinition.WellFormed (d : FragmentDefinition) : Prop where
  name : d.name.NamesFragment
  typeCondition : d.typeCondition.WellFormed
  directives : ∀ m ∈ d.directives, m.WellFormed
  selectionSet : d.selectionSet.WellFormed

/-! ### Types -/

/-- An input value has a type and maybe a default value. -/
structure InputValueDefinition.WellFormed (d : InputValueDefinition) : Prop where
  name : d.name.WellFormed
  type : d.type.WellFormed
  default : ∀ v ∈ d.default?, v.WellFormedDefault

/-- A field has arguments and a type. -/
structure FieldDefinition.WellFormed (d : FieldDefinition) : Prop where
  name : d.name.WellFormed
  arguments : ∀ a ∈ d.arguments, a.WellFormed
  type : d.type.WellFormed

/-- An object type has fields; interfaces it may have. -/
structure ObjectType.WellFormed (t : ObjectType) : Prop where
  name : t.name.WellFormed
  interfaces : ∀ n ∈ t.interfaces, n.WellFormed
  nonempty : t.fields ≠ []
  fields : ∀ f ∈ t.fields, f.WellFormed

/-- A defined type has a name, and a list of parts is not empty. -/
def TypeDefinition.WellFormed : TypeDefinition → Prop
  | .scalar t => t.name.WellFormed
  | .object t => t.WellFormed
  | .interface t => t.name.WellFormed ∧ t.fields ≠ [] ∧ ∀ f ∈ t.fields, f.WellFormed
  | .union t => t.name.WellFormed ∧ t.members ≠ [] ∧ ∀ n ∈ t.members, n.WellFormed
  | .enum t => t.name.WellFormed ∧ t.values ≠ [] ∧ ∀ v ∈ t.values, v.name.WellFormed
  | .inputObject t => t.name.WellFormed ∧ t.fields ≠ [] ∧ ∀ f ∈ t.fields, f.WellFormed

/-! ### Documents -/

/-- A definition of any kind is well-formed. -/
def Definition.WellFormed : Definition → Prop
  | .operation d => d.WellFormed
  | .fragment d => d.WellFormed
  | .type d => d.WellFormed
  | .extension d => d.definition.WellFormed

/-- A document has definitions. -/
structure Document.WellFormed (d : Document) : Prop where
  nonempty : d.definitions ≠ []
  definitions : ∀ x ∈ d.definitions, x.WellFormed

end GraphQL
