/-
Token kinds, positions and options as JSON.
-/
import GraphQL.Grammar.Parse
import GraphQL.Json

namespace GraphQL

open Codec Json

/-- The name of a punctuator in JSON. -/
def Punctuator.tag : Punctuator → String
  | bang => "Bang"
  | dollar => "Dollar"
  | parenOpen => "ParenOpen"
  | parenClose => "ParenClose"
  | ellipsis => "Ellipsis"
  | colon => "Colon"
  | equals => "Equals"
  | atSign => "At"
  | bracketOpen => "SquareBracketOpen"
  | bracketClose => "SquareBracketClose"
  | braceOpen => "CurlyBraceOpen"
  | pipe => "Pipe"
  | braceClose => "CurlyBraceClose"

/-- Every punctuator, once. -/
def Punctuator.all : List Punctuator :=
  [bang, dollar, parenOpen, parenClose, ellipsis, colon, equals, atSign, bracketOpen,
   bracketClose, braceOpen, pipe, braceClose]

namespace TokenKind

/-- The name of a kind in JSON. -/
def tag : TokenKind → String
  | punctuator p => p.tag
  | name => "Name"
  | int => "IntValue"
  | float => "FloatValue"
  | string => "StringValue"
  | endOfInput => "Eof"

/-- Every kind, once. -/
def all : List TokenKind :=
  Punctuator.all.map punctuator ++ [name, int, float, string, endOfInput]

/-- The kind of a given name. -/
def ofTag? (tag : String) : Option TokenKind := all.find? (·.tag == tag)

theorem ofTag?_tag (k : TokenKind) : ofTag? k.tag = some k := by
  cases k with
  | punctuator p => cases p <;> decide
  | _ => decide

end TokenKind

instance : Codec TokenKind where
  encode k := .string k.tag
  decode? j := j.unitVariant?.bind TokenKind.ofTag?

instance : Codec Position where
  encode p :=
    .object [("offset", encode p.offset), ("line", encode p.line), ("col", encode p.column),
      ("byte_offset", encode p.byteOffset)]
  decode? j := do
    let members ← j.members?
    return ⟨← required members "offset", ← required members "line", ← required members "col",
      ← required members "byte_offset"⟩

instance : Codec ParseOptions where
  encode o := .object [("max_recursion_depth", encode o.maxDepth)]
  decode? j := do
    let members ← j.members?
    match members.lookup "max_recursion_depth" with
    | some depth => return ⟨← decode? depth⟩
    | none => return {}

end GraphQL
