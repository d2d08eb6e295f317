/-
The grammar of documents.

* `Nested.rule` — how values, types and selection sets are read;
* `Rule.definition`, `Rule.document` — how everything around them is read.

Design notes: keywords are names that are compared by their text where the
grammar asks for one.  Every decision needs one lexeme of lookahead.
-/
import GraphQL.Grammar.Rule

namespace GraphQL

/-- Whether a lexeme is of a given kind. -/
def Lexeme.hasKind (k : TokenKind) (x : Lexeme) : Bool := x.kind == k

/-- Whether a lexeme is a given keyword. -/
def Lexeme.isKeyword (k : Keyword) (x : Lexeme) : Bool := x.isName k.text

/-- The keyword that a lexeme opens a definition with. -/
def Lexeme.definitionKeyword? (x : Lexeme) : Option Keyword :=
  if x.kind = .name then x.value.bind Keyword.definitionOfText? else none

/-- Why a value may not use variables. -/
def ValueContext.objection? : ValueContext → Option String
  | argument => none
  | variableDefault => some "variables are not allowed in variable default values"
  | inputDefault => some "variables are not allowed in input value default values"

namespace Rule

open Lexeme

/-- Reads a name. -/
def name : Rule Name := Name.mk <$> expect .name

/-- Reads a variable. -/
def var : Rule Variable := do
  let _ ← expect Punctuator.dollar
  return ⟨← name⟩

/-! ### Values and types -/

/-- What a name means where a value stands. -/
def nameValue (x : Lexeme) : Except Refusal Value :=
  match x.value.bind Keyword.ofText? with
  | some .trueLiteral => .ok (.boolean true)
  | some .falseLiteral => .ok (.boolean false)
  | some .nullLiteral => .error (.unexpected ["`null` is not a supported value literal"])
  | _ => .ok (.enum x.text)

/-- Reads a field of an object value. -/
def objectField (context : ValueContext) : Rule ObjectField := do
  let field ← name
  let _ ← expect Punctuator.colon
  return ⟨field, ← nested (.value context)⟩

/-- Reads a value. -/
def value (context : ValueContext) : Rule Value :=
  look fun x =>
    match x.kind with
    | .punctuator .bracketOpen =>
      Value.list <$> zeroOrMore .bracketOpen (nested (.value context)) .bracketClose
    | .punctuator .braceOpen =>
      Value.object <$> zeroOrMore .braceOpen (objectField context) .braceClose
    | .int => Value.int <$> expect .int
    | .float => Value.float <$> expect .float
    | .string => Value.string <$> expect .string
    | .name => take nameValue done
    | .punctuator .dollar =>
      match context.objection? with
      | none => Value.var <$> var
      | some objection => refuse (.unexpected [objection])
    | _ => refuse (.unexpected [])

/-- Reads a type without its non-null mark. -/
def nullableType : Rule TypeRef :=
  look fun x =>
    if x.hasKind Punctuator.bracketOpen then do
      let _ ← expect Punctuator.bracketOpen
      let item ← nested .typeRef
      let _ ← expect Punctuator.bracketClose
      return .list item
    else TypeRef.named <$> name

/-- Reads a type. -/
def typeRef : Rule TypeRef := do
  let inner ← nullableType
  match ← ifNext (hasKind Punctuator.bang) (expect Punctuator.bang) with
  | some _ => return .nonNull inner
  | none => return inner

/-! ### Selections -/

/-- Reads an argument. -/
def argument : Rule Argument := do
  let parameter ← name
  let _ ← expect Punctuator.colon
  return ⟨parameter, ← nested (.value .argument)⟩

/-- Reads the arguments that may stand here. -/
def arguments : Rule (List Argument) := do
  let present ← ifNext (hasKind Punctuator.parenOpen) (oneOrMore .parenOpen argument .parenClose)
  return present.getD []

/-- Reads a directive. -/
def directive : Rule Directive := do
  let _ ← expect Punctuator.atSign
  let mark ← name
  return ⟨mark, ← arguments⟩

/-- Reads the directives that may stand here. -/
def directives : Rule (List Directive) := many (hasKind Punctuator.atSign) directive done

/-- Reads a field. -/
def field : Rule Field := do
  let first ← name
  let second ← ifNext (hasKind Punctuator.colon) (do
    let _ ← expect Punctuator.colon
    name)
  let args ← arguments
  let marks ← directives
  let below ← ifNext (hasKind Punctuator.braceOpen) (nested .selectionSet)
  match second with
  | some actual => return ⟨some first, actual, args, marks, below⟩
  | none => return ⟨none, first, args, marks, below⟩

/-- Reads the name of a fragment, which is never `on`. -/
def fragmentName : Rule Name :=
  look fun x => if x.isKeyword .on then refuse (.unexpected []) else name

/-- Reads a fragment in a selection set: a spread if a name other than `on`
follows the dots, and otherwise a fragment in place. -/
def fragment : Rule Selection := do
  let _ ← expect Punctuator.ellipsis
  look fun x =>
    if x.hasKind .name && !x.isKeyword .on then do
      let spread ← fragmentName
      return .spread ⟨spread, ← directives⟩
    else do
      let condition ← ifNext (isKeyword .on) (do
        keyword .on
        name)
      let marks ← directives
      return .inline ⟨condition, marks, ← nested .selectionSet⟩

/-- Reads a selection. -/
def selection : Rule Selection :=
  look fun x => if x.hasKind Punctuator.ellipsis then fragment else Selection.field <$> field

/-- Reads a selection set. -/
def selectionSet : Rule SelectionSet :=
  SelectionSet.mk <$> oneOrMore .braceOpen selection .braceClose

/-! ### Operations and fragments -/

/-- Reads what comes after an equals sign that may stand here. -/
def defaultValue (context : ValueContext) : Rule (Option Value) :=
  ifNext (hasKind Punctuator.equals) (do
    let _ ← expect Punctuator.equals
    nested (.value context))

/-- Reads a variable definition. -/
def variableDefinition : Rule VariableDefinition := do
  let v ← var
  let _ ← expect Punctuator.colon
  let t ← nested .typeRef
  return ⟨v, t, ← defaultValue .variableDefault⟩

/-- What a name means where an operation starts. -/
def operationKind (x : Lexeme) : Except Refusal OperationKind :=
  match (x.value.bind Keyword.ofText?).bind OperationKind.ofKeyword? with
  | some kind => .ok kind
  | none => .error (.unexpected [])

/-- Reads an operation that starts with a keyword. -/
def namedOperation : Rule OperationDefinition := do
  let kind ← take operationKind done
  let title ← ifNext (hasKind .name) name
  let declared ← ifNext (hasKind Punctuator.parenOpen)
    (oneOrMore .parenOpen variableDefinition .parenClose)
  let marks ← directives
  return ⟨kind, title, declared.getD [], marks, ← nested .selectionSet⟩

/-- Reads an operation that is a bare selection set. -/
def bareOperation : Rule OperationDefinition := do
  return ⟨.query, none, [], [], ← nested .selectionSet⟩

/-- Reads a fragment definition. -/
def fragmentDefinition : Rule FragmentDefinition := do
  keyword .fragment
  let title ← fragmentName
  keyword .on
  let condition ← name
  let marks ← directives
  return ⟨title, condition, marks, ← nested .selectionSet⟩

/-! ### Types -/

/-- Reads an argument of a field, or a field of an input object. -/
def inputValue : Rule InputValueDefinition := do
  let title ← name
  let _ ← expect Punctuator.colon
  let t ← nested .typeRef
  return ⟨title, t, ← defaultValue .inputDefault⟩

/-- Reads a field of an object or interface type. -/
def fieldDefinition : Rule FieldDefinition := do
  let title ← name
  let parameters ← ifNext (hasKind Punctuator.parenOpen)
    (oneOrMore .parenOpen inputValue .parenClose)
  let _ ← expect Punctuator.colon
  return ⟨title, parameters.getD [], ← nested .typeRef⟩

/-- Reads the fields of an object or interface type. -/
def fields : Rule (List FieldDefinition) := oneOrMore .braceOpen fieldDefinition .braceClose

/-- Reads the interfaces that an object type may list; the brace of its fields
ends them. -/
def interfaces : Rule (List Name) := do
  let present ← ifNext (isKeyword .implements) (do
    keyword .implements
    let first ← name
    let others ← many (!hasKind Punctuator.braceOpen ·) name done
    return first :: others)
  return present.getD []

/-- Reads an object type. -/
def objectType : Rule ObjectType := do
  keyword .type
  let title ← name
  let above ← interfaces
  return ⟨title, above, ← fields⟩

/-- Reads an interface type. -/
def interfaceType : Rule InterfaceType := do
  keyword .interface
  let title ← name
  return ⟨title, ← fields⟩

/-- Reads a union type. -/
def unionType : Rule UnionType := do
  keyword .union
  let title ← name
  let _ ← expect Punctuator.equals
  let first ← name
  let others ← many (hasKind Punctuator.pipe) (do
    let _ ← expect Punctuator.pipe
    name) done
  return ⟨title, first :: others⟩

/-- Reads a scalar type. -/
def scalarType : Rule ScalarType := do
  keyword .scalar
  return ⟨← name⟩

/-- Reads an enum type. -/
def enumType : Rule EnumType := do
  keyword .enum
  let title ← name
  return ⟨title, ← oneOrMore .braceOpen (EnumValueDefinition.mk <$> name) .braceClose⟩

/-- Reads an input object type. -/
def inputObjectType : Rule InputObjectType := do
  keyword .input
  let title ← name
  return ⟨title, ← oneOrMore .braceOpen inputValue .braceClose⟩

/-- Reads a type extension. -/
def typeExtension : Rule TypeExtension := do
  keyword .extend
  return ⟨← objectType⟩

/-! ### Documents -/

/-- Reads a definition; its first lexeme tells which. -/
def definition : Rule Definition :=
  look fun x =>
    if x.hasKind Punctuator.braceOpen then Definition.operation <$> bareOperation
    else
      match x.definitionKeyword? with
      | some .query | some .mutation | some .subscription =>
        Definition.operation <$> namedOperation
      | some .fragment => Definition.fragment <$> fragmentDefinition
      | some .type => (Definition.type ∘ TypeDefinition.object) <$> objectType
      | some .interface => (Definition.type ∘ TypeDefinition.interface) <$> interfaceType
      | some .union => (Definition.type ∘ TypeDefinition.union) <$> unionType
      | some .scalar => (Definition.type ∘ TypeDefinition.scalar) <$> scalarType
      | some .enum => (Definition.type ∘ TypeDefinition.enum) <$> enumType
      | some .input => (Definition.type ∘ TypeDefinition.inputObject) <$> inputObjectType
      | some .extend => Definition.extension <$> typeExtension
      | _ => refuse (.unexpected [])

/-- Reads a document: definitions up to the end of the input. -/
def document : Rule Document := do
  let first ← definition
  let others ← many (!hasKind .endOfInput ·) definition done
  return ⟨first :: others⟩

end Rule

/-- How a nested construct is read. -/
def Nested.rule : (n : Nested) → Rule n.Tree
  | value context => Rule.value context
  | typeRef => Rule.typeRef
  | selectionSet => Rule.selectionSet

end GraphQL
