/-
Reading documents.

* `Rule.run` — follows a rule along a token stream;
* `enter` — reads a nested construct within a budget of levels;
* `Document.ofItems`, `Document.ofSource` — read a whole document.

Design notes: `run` recurses on the rule and `enter` on the budget, so no
input can keep them going.  A loop ends when an item takes no token; the rules
of the grammar have no such item.
-/
import GraphQL.Grammar.Document
import GraphQL.TokenStream

namespace GraphQL

/-- What following a rule leads to: a result or an error, and the stream as it
was left. -/
abbrev Outcome (α : Type) : Type := EStateM.Result SyntaxError TokenStream α

/-- Goes on after a success. -/
def Outcome.andThen {α β : Type} (o : Outcome α) (f : α → TokenStream → Outcome β) : Outcome β :=
  match o with
  | .ok a s => f a s
  | .error e s => .error e s

/-- Takes the token in view and judges it.  The next token is fetched first, so
a fault there is met before the judgement.  There is nothing to take at the end
of the input. -/
def TokenStream.take {β : Type} (judge : Lexeme → Except Refusal β) (s : TokenStream) :
    Outcome β :=
  if s.atEnd then .error ((Refusal.unexpected []).error s.current) s
  else
    match s.advance with
    | (.error e, s') => .error (.ofLexical e) s'
    | (.ok t, s') =>
      match judge t.toLexeme with
      | .ok b => .ok b s'
      | .error r => .error (r.error t) s'

/-- Follows `item` again and again, as long as the lexeme in view passes a test. -/
def repeatWhile {β : Type} (test : Lexeme → Bool) (item : TokenStream → Outcome β)
    (s : TokenStream) : Outcome (List β) :=
  if test s.current.toLexeme then
    match item s with
    | .error e s' => .error e s'
    | .ok b s' =>
      if s'.size < s.size then
        (repeatWhile test item s').andThen fun bs s'' => .ok (b :: bs) s''
      else .ok [b] s'
  else .ok [] s
termination_by s.size

/-- Follows a rule; `enter` reads the nested constructs. -/
def Rule.run (enter : (n : Nested) → TokenStream → Outcome n.Tree) {α : Type} :
    Rule α → TokenStream → Outcome α
  | done a, s => .ok a s
  | look next, s => (next s.current.toLexeme).run enter s
  | take judge next, s => (s.take judge).andThen fun b s' => (next b).run enter s'
  | refuse r, s => .error (r.error s.current) s
  | nest n next, s => (enter n s).andThen fun t s' => (next t).run enter s'
  | many test item next, s =>
    (repeatWhile test (item.run enter) s).andThen fun bs s' => (next bs).run enter s'

/-- Reads a nested construct with a budget of levels; `limit` is what the
budget was at the start. -/
def enter (limit : Nat) : Nat → (n : Nested) → TokenStream → Outcome n.Tree
  | 0, _, s => .error (.of (.tooDeep limit) s.current.span) s
  | budget + 1, n, s => n.rule.run (enter limit budget) s

/-- How documents are read. -/
structure ParseOptions where
  /-- How many values, selection sets and types may stand inside each other. -/
  maxDepth : Nat := 64
deriving DecidableEq

/-- Reads a document from a stream that has not been advanced yet. -/
def TokenStream.document (options : ParseOptions) (s : TokenStream) : Outcome Document :=
  match s.advance with
  | (.error e, s') => .error (.ofLexical e) s'
  | (.ok _, s') => Rule.document.run (enter options.maxDepth options.maxDepth) s'

/-- What an outcome says, the stream left aside. -/
def Outcome.toExcept {α : Type} : Outcome α → Except SyntaxError α
  | .ok a _ => .ok a
  | .error e _ => .error e

namespace Document

/-- Reads a document from the items of a token source. -/
def ofItems (options : ParseOptions) (items : List Item) : Except SyntaxError Document :=
  Outcome.toExcept ((TokenStream.new items).document options)

/-- Reads a document from its text. -/
def ofSource (options : ParseOptions) (source : String) : Except SyntaxError Document :=
  ofItems options (tokenize source)

end Document

end GraphQL
