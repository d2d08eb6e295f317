/-
The layout of documents.

Each part of a document has one canonical layout, a sequence of pieces.

* `Value.layout`, `TypeRef.layout`, `SelectionSet.layout`, … — the layout of
  each kind of part;
* `Document.layout` — the layout of a whole document.

Design notes: members of a block stand on lines of their own, one level deeper
than the line that opens it; everything else stays on its line.  A list or
block without members is left out together with its brackets, so trees that no
document has are still written, if not readably.  `depth` is the level of the
line on which a part starts.
-/
import GraphQL.Document.Definition
import GraphQL.Layout.Piece

namespace GraphQL

/-! ### Shared shapes -/

namespace Layout

open Piece

/-- Sequences one after the other, with a separator between them. -/
def joined (separator : List Piece) : List (List Piece) → List Piece
  | [] => []
  | [x] => x
  | x :: y :: rest => x ++ separator ++ joined separator (y :: rest)

/-- Members on one line, separated by commas. -/
def commaSeparated (members : List (List Piece)) : List Piece := joined [comma, space] members

/-- Members on one line in parentheses. -/
def parenthesized (members : List (List Piece)) : List Piece :=
  if members.isEmpty then []
  else punctuator .parenOpen :: commaSeparated members ++ [punctuator .parenClose]

/-- Members on lines of their own in braces. -/
def block (depth : Nat) (members : List (List Piece)) : List Piece :=
  if members.isEmpty then []
  else
    punctuator .braceOpen :: members.flatMap (newLine (depth + 1) :: ·)
      ++ [newLine depth, punctuator .braceClose]

/-- A block that follows something on the same line. -/
def spacedBlock (depth : Nat) (members : List (List Piece)) : List Piece :=
  if members.isEmpty then [] else space :: block depth members

end Layout

open Piece Layout

/-! ### Names, values and types -/

/-- The layout of a name. -/
def Name.layout (n : Name) : List Piece := [word n.text]

/-- The layout of a variable. -/
def Variable.layout (v : Variable) : List Piece := punctuator .dollar :: v.name.layout

mutual

/-- The layout of a value. -/
def Value.layout : Value → List Piece
  | .var v => v.layout
  | .int text => [.lexeme ⟨.int, some text⟩]
  | .float text => [.lexeme ⟨.float, some text⟩]
  | .string contents => [.lexeme ⟨.string, some contents⟩]
  | .boolean b => [word (if b then "true" else "false")]
  | .enum text => [word text]
  | .list items =>
    punctuator .bracketOpen :: commaSeparated (Value.layouts items) ++ [punctuator .bracketClose]
  | .object fields =>
    punctuator .braceOpen :: commaSeparated (ObjectField.layouts fields)
      ++ [punctuator .braceClose]

/-- The layout of an object field. -/
def ObjectField.layout : ObjectField → List Piece
  | ⟨name, value⟩ => name.layout ++ [punctuator .colon, space] ++ value.layout

/-- The layouts of some values. -/
def Value.layouts : List Value → List (List Piece)
  | [] => []
  | v :: vs => v.layout :: Value.layouts vs

/-- The layouts of some object fields. -/
def ObjectField.layouts : List ObjectField → List (List Piece)
  | [] => []
  | f :: fs => f.layout :: ObjectField.layouts fs

end

theorem Value.layouts_eq (vs : List Value) : Value.layouts vs = vs.map Value.layout := by
  induction vs with
  | nil => rfl
  | cons v vs ih => simp [Value.layouts, ih]

theorem ObjectField.layouts_eq (fs : List ObjectField) :
    ObjectField.layouts fs = fs.map ObjectField.layout := by
  induction fs with
  | nil => rfl
  | cons f fs ih => simp [ObjectField.layouts, ih]

/-- The layout of a type. -/
def TypeRef.layout : TypeRef → List Piece
  | .named name => name.layout
  | .list item => punctuator .bracketOpen :: item.layout ++ [punctuator .bracketClose]
  | .nonNull inner => inner.layout ++ [punctuator .bang]

/-! ### Selections -/

/-- The layout of an argument. -/
def Argument.layout (a : Argument) : List Piece :=
  a.name.layout ++ [punctuator .colon, space] ++ a.value.layout

/-- The layout of a directive. -/
def Directive.layout (d : Directive) : List Piece :=
  punctuator .atSign :: d.name.layout ++ parenthesized (d.arguments.map Argument.layout)

/-- The layout of directives behind what they mark. -/
def directivesLayout (ds : List Directive) : List Piece := ds.flatMap (space :: ·.layout)

/-- The layout of a fragment spread. -/
def FragmentSpread.layout (s : FragmentSpread) : List Piece :=
  punctuator .ellipsis :: s.name.layout ++ directivesLayout s.directives

mutual

/-- The layout of a selection. -/
def Selection.layout (depth : Nat) : Selection → List Piece
  | .field f => f.layout depth
  | .spread s => s.layout
  | .inline f => f.layout depth

/-- The layout of a field. -/
def Field.layout (depth : Nat) : Field → List Piece
  | ⟨alias?, name, arguments, directives, selectionSet?⟩ =>
    (match alias? with
      | some a => a.layout ++ [punctuator .colon, space]
      | none => [])
    ++ name.layout ++ parenthesized (arguments.map Argument.layout)
    ++ directivesLayout directives
    ++ (match selectionSet? with
        | some ss => spacedBlock depth (ss.members (depth + 1))
        | none => [])

/-- The layout of an inline fragment. -/
def InlineFragment.layout (depth : Nat) : InlineFragment → List Piece
  | ⟨typeCondition?, directives, selectionSet⟩ =>
    punctuator .ellipsis
      :: (match typeCondition? with
          | some t => [space, word "on", space] ++ t.layout
          | none => [])
      ++ directivesLayout directives ++ spacedBlock depth (selectionSet.members (depth + 1))

/-- The layouts of the members of a selection set. -/
def SelectionSet.members (depth : Nat) : SelectionSet → List (List Piece)
  | ⟨selections⟩ => Selection.layouts depth selections

/-- The layouts of some selections. -/
def Selection.layouts (depth : Nat) : List Selection → List (List Piece)
  | [] => []
  | s :: ss => s.layout depth :: Selection.layouts depth ss

end

theorem SelectionSet.members_eq (depth : Nat) (ss : SelectionSet) :
    ss.members depth = ss.selections.map (Selection.layout depth) := by
  obtain ⟨selections⟩ := ss
  rw [SelectionSet.members]
  induction selections with
  | nil => rfl
  | cons s ss ih => simp [Selection.layouts, ih]

/-- The layout of a selection set. -/
def SelectionSet.layout (depth : Nat) (ss : SelectionSet) : List Piece :=
  block depth (ss.members (depth + 1))

/-! ### Operations and fragments -/

/-- The layout of what a variable or input value falls back on. -/
def defaultLayout : Option Value → List Piece
  | some v => [space, punctuator .equals, space] ++ v.layout
  | none => []

/-- The layout of a variable definition. -/
def VariableDefinition.layout (d : VariableDefinition) : List Piece :=
  d.var.layout ++ [punctuator .colon, space] ++ d.type.layout ++ defaultLayout d.default?

/-- The layout of an operation. -/
def OperationDefinition.layout (depth : Nat) (o : OperationDefinition) : List Piece :=
  if o.isShorthand then o.selectionSet.layout depth
  else
    word o.operation.keyword.text
      :: (match o.name? with
          | some n => space :: n.layout
          | none => if o.variableDefinitions.isEmpty then [] else [space])
      ++ parenthesized (o.variableDefinitions.map VariableDefinition.layout)
      ++ directivesLayout o.directives ++ spacedBlock depth (o.selectionSet.members (depth + 1))

/-- The layout of a fragment definition. -/
def FragmentDefinition.layout (depth : Nat) (d : FragmentDefinition) : List Piece :=
  [word "fragment", space] ++ d.name.layout ++ [space, word "on", space]
    ++ d.typeCondition.layout ++ directivesLayout d.directives
    ++ spacedBlock depth (d.selectionSet.members (depth + 1))

/-! ### Types -/

/-- The layout of an input value definition. -/
def InputValueDefinition.layout (d : InputValueDefinition) : List Piece :=
  d.name.layout ++ [punctuator .colon, space] ++ d.type.layout ++ defaultLayout d.default?

/-- The layout of a field definition. -/
def FieldDefinition.layout (d : FieldDefinition) : List Piece :=
  d.name.layout ++ parenthesized (d.arguments.map InputValueDefinition.layout)
    ++ [punctuator .colon, space] ++ d.type.layout

/-- The layout of an enum value definition. -/
def EnumValueDefinition.layout (d : EnumValueDefinition) : List Piece := d.name.layout

/-- The layout of a scalar type. -/
def ScalarType.layout (t : ScalarType) : List Piece := [word "scalar", space] ++ t.name.layout

/-- The layout of an object type. -/
def ObjectType.layout (depth : Nat) (t : ObjectType) : List Piece :=
  [word "type", space] ++ t.name.layout
    ++ (if t.interfaces.isEmpty then []
        else [space, word "implements", space] ++ commaSeparated (t.interfaces.map Name.layout))
    ++ spacedBlock depth (t.fields.map FieldDefinition.layout)

/-- The layout of an interface type. -/
def InterfaceType.layout (depth : Nat) (t : InterfaceType) : List Piece :=
  [word "interface", space] ++ t.name.layout
    ++ spacedBlock depth (t.fields.map FieldDefinition.layout)

/-- The layout of a union type. -/
def UnionType.layout (t : UnionType) : List Piece :=
  [word "union", space] ++ t.name.layout
    ++ (if t.members.isEmpty then []
        else
          [space, punctuator .equals, space]
            ++ joined [space, punctuator .pipe, space] (t.members.map Name.layout))

/-- The layout of an enum type. -/
def EnumType.layout (depth : Nat) (t : EnumType) : List Piece :=
  [word "enum", space] ++ t.name.layout
    ++ spacedBlock depth (t.values.map EnumValueDefinition.layout)

/-- The layout of an input object type. -/
def InputObjectType.layout (depth : Nat) (t : InputObjectType) : List Piece :=
  [word "input", space] ++ t.name.layout
    ++ spacedBlock depth (t.fields.map InputValueDefinition.layout)

/-- The layout of a type definition. -/
def TypeDefinition.layout (depth : Nat) : TypeDefinition → List Piece
  | .scalar t => t.layout
  | .object t => t.layout depth
  | .interface t => t.layout depth
  | .union t => t.layout
  | .enum t => t.layout depth
  | .inputObject t => t.layout depth

/-- The layout of a type extension. -/
def TypeExtension.layout (depth : Nat) (e : TypeExtension) : List Piece :=
  [word "extend", space] ++ e.definition.layout depth

/-! ### Documents -/

/-- The layout of a definition. -/
def Definition.layout (depth : Nat) : Definition → List Piece
  | .operation d => d.layout depth
  | .fragment d => d.layout depth
  | .type d => d.layout depth
  | .extension d => d.layout depth

/-- The layout of a document: an empty line between definitions, and a line
feed at the end. -/
def Document.layout (depth : Nat) (d : Document) : List Piece :=
  joined [lineFeed, lineFeed] (d.definitions.map (Definition.layout depth)) ++ [lineFeed]

end GraphQL
