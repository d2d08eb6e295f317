/-
Pieces of written text.

A text is written as a sequence of pieces: lexemes, and what stands between
them.

* `Lexeme.written` — how a lexeme is spelled;
* `render` — the text of a sequence of pieces.

Design notes: a new line knows how deep it is nested, and `render` adds the
level at which the whole sequence stands.  An empty line carries no blanks, so
it has a piece of its own.
-/
import GraphQL.Lexeme
import GraphQL.Text.Hex

namespace GraphQL

/-- How one character is spelled inside a string literal. -/
def writtenChar (c : Char) : List Char :=
  match c with
  | '"' => ['\\', '"']
  | '\\' => ['\\', '\\']
  | '\n' => ['\\', 'n']
  | '\r' => ['\\', 'r']
  | '\t' => ['\\', 't']
  | _ => if c < ' ' then '\\' :: 'u' :: fourHexDigits c.toNat else [c]

/-- How a string literal with the given contents is spelled. -/
def writtenString (contents : String) : List Char :=
  '"' :: contents.toList.flatMap writtenChar ++ ['"']

/-- How a lexeme is spelled. -/
def Lexeme.written (x : Lexeme) : List Char :=
  match x.kind with
  | .punctuator p => p.text.toList
  | .name | .int | .float => x.text.toList
  | .string => writtenString x.text
  | .endOfInput => []

/-- A piece of written text. -/
inductive Piece
  | lexeme (x : Lexeme)
  | comma
  | space
  /-- A new line, indented to a depth of nesting. -/
  | newLine (depth : Nat)
  /-- A line feed that nothing is indented after. -/
  | lineFeed
deriving DecidableEq

namespace Piece

/-- The piece of a punctuator. -/
def punctuator (p : Punctuator) : Piece := lexeme (.ofPunctuator p)

/-- The piece of a name or keyword. -/
def word (text : String) : Piece := lexeme (.ofName text)

/-- The text of a piece, in a sequence that stands at a level of nesting.  Each
level is two blanks wide. -/
def render (level : Nat) : Piece → List Char
  | lexeme x => x.written
  | comma => [',']
  | space => [' ']
  | newLine depth => '\n' :: List.replicate (2 * (level + depth)) ' '
  | lineFeed => ['\n']

end Piece

/-- The text of a sequence of pieces that stands at a level of nesting. -/
def render (level : Nat) (pieces : List Piece) : List Char := pieces.flatMap (Piece.render level)

end GraphQL
