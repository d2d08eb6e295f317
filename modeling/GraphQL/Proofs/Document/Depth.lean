/-
How deep the parts of a document are nested.

Values, types and selection sets can stand inside each other; each of them is
one level, and the non-null mark of a type is none.

* `Value.depth`, `TypeRef.depth`, `SelectionSet.depth` — the levels of the
  nested constructs, the outermost one counted;
* `Document.depth` — the levels of a whole document;
* `Document.depth_le_iff` and its like — a part is within a bound exactly if
  the parts inside it are.
-/
import GraphQL.Document.Definition

namespace GraphQL

/-- The greatest of some numbers, zero if there are none. -/
def greatest (ns : List Nat) : Nat := ns.foldr max 0

@[simp] theorem greatest_le_iff {ns : List Nat} {n : Nat} : greatest ns ≤ n ↔ ∀ m ∈ ns, m ≤ n := by
  induction ns with
  | nil => simp [greatest]
  | cons m ns ih =>
    rw [greatest, List.foldr_cons, ← greatest, Nat.max_le, ih, List.forall_mem_cons]

/-- The depth of a part that may be missing. -/
def optionalDepth {α : Type} (depth : α → Nat) (a? : Option α) : Nat := (a?.map depth).getD 0

@[simp] theorem optionalDepth_none {α : Type} (depth : α → Nat) :
    optionalDepth depth none = 0 := rfl

@[simp] theorem optionalDepth_some {α : Type} (depth : α → Nat) (a : α) :
    optionalDepth depth (some a) = depth a := rfl

/-! ### Values and types -/

mutual

/-- The levels of a value. -/
def Value.depth : Value → Nat
  | .var _ | .int _ | .float _ | .string _ | .boolean _ | .enum _ => 1
  | .list items => Value.depths items + 1
  | .object fields => ObjectField.depths fields + 1

/-- The levels of the deepest of some values. -/
def Value.depths : List Value → Nat
  | [] => 0
  | v :: vs => max v.depth (Value.depths vs)

/-- The levels of the deepest of some object fields. -/
def ObjectField.depths : List ObjectField → Nat
  | [] => 0
  | ⟨_, v⟩ :: fs => max v.depth (ObjectField.depths fs)

end

theorem Value.depths_le_iff {vs : List Value} {n : Nat} :
    Value.depths vs ≤ n ↔ ∀ v ∈ vs, v.depth ≤ n := by
  induction vs with
  | nil => simp [Value.depths]
  | cons v vs ih => rw [Value.depths, Nat.max_le, ih, List.forall_mem_cons]

theorem ObjectField.depths_le_iff {fs : List ObjectField} {n : Nat} :
    ObjectField.depths fs ≤ n ↔ ∀ f ∈ fs, f.value.depth ≤ n := by
  induction fs with
  | nil => simp [ObjectField.depths]
  | cons f fs ih =>
    obtain ⟨m, v⟩ := f
    rw [ObjectField.depths, Nat.max_le, ih, List.forall_mem_cons]

@[simp] theorem Value.depth_list_le_iff {vs : List Value} {n : Nat} :
    (Value.list vs).depth ≤ n + 1 ↔ ∀ v ∈ vs, v.depth ≤ n := by
  rw [Value.depth, Nat.add_le_add_iff_right, Value.depths_le_iff]

@[simp] theorem Value.depth_object_le_iff {fs : List ObjectField} {n : Nat} :
    (Value.object fs).depth ≤ n + 1 ↔ ∀ f ∈ fs, f.value.depth ≤ n := by
  rw [Value.depth, Nat.add_le_add_iff_right, ObjectField.depths_le_iff]

/-- The levels of a type. -/
def TypeRef.depth : TypeRef → Nat
  | .named _ => 1
  | .list item => item.depth + 1
  | .nonNull inner => inner.depth

/-- Marks do not make a type less than one level. -/
theorem TypeRef.depth_pos (t : TypeRef) : 1 ≤ t.depth := by
  induction t with
  | named n => exact Nat.le_refl 1
  | list item ih => exact Nat.le_add_left 1 _
  | nonNull inner ih => exact ih

/-! ### Selections -/

/-- The levels of some arguments. -/
def argumentsDepth (as : List Argument) : Nat := greatest (as.map (·.value.depth))

/-- The levels of a directive. -/
def Directive.depth (d : Directive) : Nat := argumentsDepth d.arguments

/-- The levels of some directives. -/
def directivesDepth (ds : List Directive) : Nat := greatest (ds.map Directive.depth)

@[simp] theorem argumentsDepth_le_iff {as : List Argument} {n : Nat} :
    argumentsDepth as ≤ n ↔ ∀ a ∈ as, a.value.depth ≤ n := by
  simp [argumentsDepth]

@[simp] theorem directivesDepth_le_iff {ds : List Directive} {n : Nat} :
    directivesDepth ds ≤ n ↔ ∀ d ∈ ds, d.depth ≤ n := by
  simp [directivesDepth]

mutual

/-- The levels inside a selection. -/
def Selection.depth : Selection → Nat
  | .field f => f.depth
  | .spread s => directivesDepth s.directives
  | .inline f => f.depth

/-- The levels inside a field. -/
def Field.depth : Field → Nat
  | ⟨_, _, arguments, directives, selectionSet?⟩ =>
    max (argumentsDepth arguments) (max (directivesDepth directives)
      (match selectionSet? with
        | some ss => ss.depth
        | none => 0))

/-- The levels inside an inline fragment. -/
def InlineFragment.depth : InlineFragment → Nat
  | ⟨_, directives, selectionSet⟩ => max (directivesDepth directives) selectionSet.depth

/-- The levels of a selection set. -/
def SelectionSet.depth : SelectionSet → Nat
  | ⟨selections⟩ => Selection.depths selections + 1

/-- The levels inside the deepest of some selections. -/
def Selection.depths : List Selection → Nat
  | [] => 0
  | s :: ss => max s.depth (Selection.depths ss)

end

theorem Selection.depths_le_iff {ss : List Selection} {n : Nat} :
    Selection.depths ss ≤ n ↔ ∀ s ∈ ss, s.depth ≤ n := by
  induction ss with
  | nil => simp [Selection.depths]
  | cons s ss ih => rw [Selection.depths, Nat.max_le, ih, List.forall_mem_cons]

@[simp] theorem SelectionSet.depth_le_iff {ss : List Selection} {n : Nat} :
    (SelectionSet.mk ss).depth ≤ n + 1 ↔ ∀ s ∈ ss, s.depth ≤ n := by
  rw [SelectionSet.depth, Nat.add_le_add_iff_right, Selection.depths_le_iff]

@[simp] theorem Field.depth_le_iff {f : Field} {n : Nat} :
    f.depth ≤ n ↔ (∀ a ∈ f.arguments, a.value.depth ≤ n) ∧ (∀ d ∈ f.directives, d.depth ≤ n) ∧
      optionalDepth SelectionSet.depth f.selectionSet? ≤ n := by
  obtain ⟨a, m, as, ds, ss?⟩ := f
  have hdepth : (Field.mk a m as ds ss?).depth = max (argumentsDepth as)
      (max (directivesDepth ds) (optionalDepth SelectionSet.depth ss?)) := by
    cases ss? <;> (rw [Field.depth]; rfl)
  rw [hdepth, Nat.max_le, Nat.max_le, argumentsDepth_le_iff, directivesDepth_le_iff]

@[simp] theorem InlineFragment.depth_le_iff {f : InlineFragment} {n : Nat} :
    f.depth ≤ n ↔ (∀ d ∈ f.directives, d.depth ≤ n) ∧ f.selectionSet.depth ≤ n := by
  obtain ⟨t, ds, ss⟩ := f
  rw [InlineFragment.depth, Nat.max_le, directivesDepth_le_iff]

/-! ### Definitions -/

/-- The levels of a variable definition. -/
def VariableDefinition.depth (d : VariableDefinition) : Nat :=
  max d.type.depth (optionalDepth Value.depth d.default?)

/-- The levels of an operation. -/
def OperationDefinition.depth (d : OperationDefinition) : Nat :=
  max (greatest (d.variableDefinitions.map VariableDefinition.depth))
    (max (directivesDepth d.directives) d.selectionSet.depth)

/-- The levels of a fragment definition. -/
def FragmentDefinition.depth (d : FragmentDefinition) : Nat :=
  max (directivesDepth d.directives) d.selectionSet.depth

/-- The levels of an input value definition. -/
def InputValueDefinition.depth (d : InputValueDefinition) : Nat :=
  max d.type.depth (optionalDepth Value.depth d.default?)

/-- The levels of a field definition. -/
def FieldDefinition.depth (d : FieldDefinition) : Nat :=
  max (greatest (d.arguments.map InputValueDefinition.depth)) d.type.depth

/-- The levels of some field definitions. -/
def fieldsDepth (fs : List FieldDefinition) : Nat := greatest (fs.map FieldDefinition.depth)

/-- The levels of a type definition. -/
def TypeDefinition.depth : TypeDefinition → Nat
  | .scalar _ | .union _ | .enum _ => 0
  | .object t => fieldsDepth t.fields
  | .interface t => fieldsDepth t.fields
  | .inputObject t => greatest (t.fields.map InputValueDefinition.depth)

/-- The levels of a definition. -/
def Definition.depth : Definition → Nat
  | .operation d => d.depth
  | .fragment d => d.depth
  | .type d => d.depth
  | .extension d => fieldsDepth d.definition.fields

/-- The levels of a document. -/
def Document.depth (d : Document) : Nat := greatest (d.definitions.map Definition.depth)

@[simp] theorem VariableDefinition.depth_le_iff {d : VariableDefinition} {n : Nat} :
    d.depth ≤ n ↔ d.type.depth ≤ n ∧ optionalDepth Value.depth d.default? ≤ n := by
  rw [VariableDefinition.depth, Nat.max_le]

@[simp] theorem OperationDefinition.depth_le_iff {d : OperationDefinition} {n : Nat} :
    d.depth ≤ n ↔ (∀ v ∈ d.variableDefinitions, v.depth ≤ n) ∧ (∀ m ∈ d.directives, m.depth ≤ n) ∧
      d.selectionSet.depth ≤ n := by
  rw [OperationDefinition.depth, Nat.max_le, Nat.max_le, greatest_le_iff, List.forall_mem_map,
    directivesDepth_le_iff]

@[simp] theorem FragmentDefinition.depth_le_iff {d : FragmentDefinition} {n : Nat} :
    d.depth ≤ n ↔ (∀ m ∈ d.directives, m.depth ≤ n) ∧ d.selectionSet.depth ≤ n := by
  rw [FragmentDefinition.depth, Nat.max_le, directivesDepth_le_iff]

@[simp] theorem InputValueDefinition.depth_le_iff {d : InputValueDefinition} {n : Nat} :
    d.depth ≤ n ↔ d.type.depth ≤ n ∧ optionalDepth Value.depth d.default? ≤ n := by
  rw [InputValueDefinition.depth, Nat.max_le]

@[simp] theorem FieldDefinition.depth_le_iff {d : FieldDefinition} {n : Nat} :
    d.depth ≤ n ↔ (∀ a ∈ d.arguments, a.depth ≤ n) ∧ d.type.depth ≤ n := by
  rw [FieldDefinition.depth, Nat.max_le, greatest_le_iff, List.forall_mem_map]

@[simp] theorem fieldsDepth_le_iff {fs : List FieldDefinition} {n : Nat} :
    fieldsDepth fs ≤ n ↔ ∀ f ∈ fs, f.depth ≤ n := by
  simp [fieldsDepth]

@[simp] theorem TypeDefinition.depth_inputObject_le_iff {t : InputObjectType} {n : Nat} :
    (TypeDefinition.inputObject t).depth ≤ n ↔ ∀ f ∈ t.fields, f.depth ≤ n := by
  simp [TypeDefinition.depth]

@[simp] theorem Document.depth_le_iff {d : Document} {n : Nat} :
    d.depth ≤ n ↔ ∀ x ∈ d.definitions, x.depth ≤ n := by
  simp [Document.depth]

end GraphQL
