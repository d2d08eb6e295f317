/-
Keywords.

Keywords are names: the lexical grammar does not know them, and each place of
the document grammar that takes one compares the spelling.

* `Keyword.text`, `Keyword.ofText?` — the spelling and back;
* `Keyword.ofText?_eq_some_iff` — a keyword is found exactly by its spelling.
-/
namespace GraphQL

/-- Names with a meaning of their own in some places of a document. -/
inductive Keyword
  | on
  | fragment
  | trueLiteral
  | falseLiteral
  | nullLiteral
  | implements
  | type
  | interface
  | union
  | scalar
  | enum
  | input
  | extend
  | query
  | mutation
  | subscription
deriving DecidableEq

namespace Keyword

/-- How a keyword is written. -/
def text : Keyword → String
  | on => "on"
  | fragment => "fragment"
  | trueLiteral => "true"
  | falseLiteral => "false"
  | nullLiteral => "null"
  | implements => "implements"
  | type => "type"
  | interface => "interface"
  | union => "union"
  | scalar => "scalar"
  | enum => "enum"
  | input => "input"
  | extend => "extend"
  | query => "query"
  | mutation => "mutation"
  | subscription => "subscription"

/-- Every keyword, once. -/
def all : List Keyword :=
  [on, fragment, trueLiteral, falseLiteral, nullLiteral, implements, type, interface, union,
   scalar, enum, input, extend, query, mutation, subscription]

/-- The keyword with a given spelling. -/
def ofText? (text : String) : Option Keyword := all.find? (·.text == text)

/-- Whether a keyword may open a definition. -/
def opensDefinition : Keyword → Bool
  | query | mutation | subscription | fragment => true
  | type | interface | union | scalar | enum | input | extend => true
  | on | trueLiteral | falseLiteral | nullLiteral | implements => false

/-- The keyword with a given spelling, if it may open a definition. -/
def definitionOfText? (text : String) : Option Keyword := (ofText? text).filter opensDefinition

theorem mem_all (k : Keyword) : k ∈ all := by cases k <;> decide

theorem ofText?_text (k : Keyword) : ofText? k.text = some k := by cases k <;> decide

theorem ofText?_eq_some_iff {s : String} {k : Keyword} : ofText? s = some k ↔ k.text = s := by
  constructor
  · intro h
    simpa using List.find?_some h
  · rintro rfl
    exact ofText?_text k

end Keyword

end GraphQL
