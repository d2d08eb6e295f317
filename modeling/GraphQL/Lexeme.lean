/-
Lexemes and tokens.

A `Lexeme` is one word of the language: its kind and, for names, numbers and
strings, the text it stands for.  A `Token` is a lexeme that knows where it
was read.

* `Punctuator.text` — the spelling of a punctuator;
* `TokenKind.describe`, `Lexeme.describe` — how messages speak of them;
* `Punctuator.ofChar?_eq_some_iff` — which punctuators are one character long.

Design notes: the value of a string is what the literal denotes, not how it is
written.  Lexemes come from any source, so a value may be missing where one is
expected and present where none is; `Lexeme.text` is the value or nothing.
-/
import GraphQL.Text.Position
import GraphQL.Text.Quoted

namespace GraphQL

/-- The fixed symbols of the language. -/
inductive Punctuator
  | bang
  | dollar
  | parenOpen
  | parenClose
  | ellipsis
  | colon
  | equals
  | atSign
  | bracketOpen
  | bracketClose
  | braceOpen
  | pipe
  | braceClose
deriving DecidableEq

namespace Punctuator

/-- How a punctuator is written. -/
def text : Punctuator → String
  | bang => "!"
  | dollar => "$"
  | parenOpen => "("
  | parenClose => ")"
  | ellipsis => "..."
  | colon => ":"
  | equals => "="
  | atSign => "@"
  | bracketOpen => "["
  | bracketClose => "]"
  | braceOpen => "\x7b"
  | pipe => "|"
  | braceClose => "\x7d"

/-- The punctuator that a single character writes. -/
def ofChar? (c : Char) : Option Punctuator :=
  match c with
  | '!' => some bang
  | '$' => some dollar
  | '(' => some parenOpen
  | ')' => some parenClose
  | ':' => some colon
  | '=' => some equals
  | '@' => some atSign
  | '[' => some bracketOpen
  | ']' => some bracketClose
  | '{' => some braceOpen
  | '|' => some pipe
  | '}' => some braceClose
  | _ => none

theorem ofChar?_eq_some_iff {c : Char} {p : Punctuator} :
    ofChar? c = some p ↔ p.text.toList = [c] := by
  constructor
  · intro h
    unfold ofChar? at h
    split at h <;> first | (cases h; rfl) | simp at h
  · intro h
    cases p <;> simp [text] at h <;> subst h <;> rfl

end Punctuator

/-- What a lexeme is, its value left aside. -/
inductive TokenKind
  | punctuator (p : Punctuator)
  | name
  | int
  | float
  | string
  | endOfInput
deriving DecidableEq

instance : Coe Punctuator TokenKind := ⟨.punctuator⟩

namespace TokenKind

/-- The spelling of a kind that has only one. -/
def punctuatorText? : TokenKind → Option String
  | punctuator p => some p.text
  | _ => none

/-- Whether a kind is a punctuator. -/
def isPunctuator (k : TokenKind) : Bool := k.punctuatorText?.isSome

/-- Whether lexemes of this kind carry a value. -/
def hasValue : TokenKind → Bool
  | name | int | float | string => true
  | punctuator _ | endOfInput => false

/-- How messages speak of a kind. -/
def describe : TokenKind → String
  | punctuator p => "`" ++ p.text ++ "`"
  | name => "name"
  | int => "int"
  | float => "float"
  | string => "string"
  | endOfInput => "<EOF>"

end TokenKind

/-- One word of the language. -/
structure Lexeme where
  kind : TokenKind
  /-- The text of a name or number, the contents of a string. -/
  value : Option String
deriving DecidableEq

namespace Lexeme

/-- The lexeme of a punctuator. -/
def ofPunctuator (p : Punctuator) : Lexeme := ⟨.punctuator p, none⟩

/-- The lexeme of a name. -/
def ofName (text : String) : Lexeme := ⟨.name, some text⟩

/-- The value, or nothing. -/
def text (x : Lexeme) : String := x.value.getD ""

/-- Whether a lexeme is the name spelled `name`. -/
def isName (x : Lexeme) (name : String) : Bool := x.kind == .name && x.value == some name

/-- How messages speak of a lexeme: its kind and, where it has one, its value. -/
def describe (x : Lexeme) : String :=
  match x.kind, x.value with
  | .name, some text => "name `" ++ text ++ "`"
  | .int, some text => "int `" ++ text ++ "`"
  | .float, some text => "float `" ++ text ++ "`"
  | .string, some text => "string " ++ quote text
  | kind, _ => kind.describe

end Lexeme

/-- A lexeme and the place where it was read. -/
structure Token extends Lexeme where
  span : Span
deriving DecidableEq

/-- The token that stands for the end of the input at a place. -/
def Token.endAt (p : Position) : Token := ⟨⟨.endOfInput, none⟩, .emptyAt p⟩

end GraphQL
