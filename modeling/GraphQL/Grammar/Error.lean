/-
Syntax errors.

* `SyntaxError` — why a document cannot be read, and where;
* `SyntaxCause.message` — the wording of each cause;
* `Refusal` — what a rule of the grammar holds against a token.
-/
import GraphQL.Keyword
import GraphQL.Lexeme
import GraphQL.Lexical.Basic

namespace GraphQL

/-- Why a document cannot be read. -/
inductive SyntaxCause
  /-- A token that fits nowhere here. -/
  | unexpectedToken (found : Token)
  /-- A token of another kind than the only one that fits. -/
  | wrongKind (expected found : TokenKind)
  /-- Another token than the keyword that must stand here. -/
  | wrongKeyword (expected : Keyword) (found : Token)
  /-- Values, selection sets or types inside each other beyond the limit. -/
  | tooDeep (limit : Nat)
  /-- A text that cannot be split into tokens. -/
  | lexical (error : LexicalError)
deriving DecidableEq

/-- The wording of a cause. -/
def SyntaxCause.message : SyntaxCause → String
  | unexpectedToken found => "unexpected " ++ found.describe
  | wrongKind expected found => "expected " ++ expected.describe ++ ", found " ++ found.describe
  | wrongKeyword expected found =>
    "expected keyword `" ++ expected.text ++ "`, found " ++ found.describe
  | tooDeep limit => "maximum nesting depth of " ++ toString limit ++ " exceeded"
  | lexical error => error.cause.message

/-- A reason why a document cannot be read, and its place. -/
structure SyntaxError where
  cause : SyntaxCause
  span : Span
  notes : List Note
deriving DecidableEq

namespace SyntaxError

/-- An error without notes. -/
def of (cause : SyntaxCause) (span : Span) : SyntaxError := ⟨cause, span, []⟩

/-- A lexical fault, met while reading a document. -/
def ofLexical (e : LexicalError) : SyntaxError := ⟨.lexical e, e.span, e.notes⟩

/-- The same error with one more note. -/
def withNote (e : SyntaxError) (n : Note) : SyntaxError := { e with notes := e.notes ++ [n] }

/-- What to tell about an error. -/
def report (e : SyntaxError) : Report := ⟨e.cause.message, e.span, e.notes⟩

end SyntaxError

/-- What a rule of the grammar holds against a token. -/
inductive Refusal
  /-- It fits nowhere here; the notes say why not. -/
  | unexpected (notes : List String)
  /-- Only a token of another kind fits. -/
  | wrongKind (expected : TokenKind)
  /-- Only a keyword fits. -/
  | wrongKeyword (expected : Keyword)
deriving DecidableEq

/-- The error that refuses a token. -/
def Refusal.error (r : Refusal) (t : Token) : SyntaxError :=
  match r with
  | unexpected notes => ⟨.unexpectedToken t, t.span, notes.map Note.general⟩
  | wrongKind expected => .of (.wrongKind expected t.kind) t.span
  | wrongKeyword expected => .of (.wrongKeyword expected t) t.span

end GraphQL
