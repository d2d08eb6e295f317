/-
Rules of the document grammar.

A `Rule α` tells how to read something of type `α` from tokens: it looks at the
next lexeme, takes it or refuses it, and goes on accordingly.

* `Rule` — the steps a rule is made of;
* `Rule.expect`, `Rule.keyword`, `Rule.ifNext`, `Rule.zeroOrMore`,
  `Rule.oneOrMore` — the usual shapes.

Design notes: rules see lexemes and never places, so where a token stands
cannot change how it is read.  The three constructs that may contain
themselves — values, types and selection sets — are entered by name through
`Rule.nest`; that makes every rule a finite object, and the nesting limit a
bound on how often `nest` is followed.
-/
import GraphQL.Document.Definition
import GraphQL.Grammar.Error

namespace GraphQL

/-- Where a value stands, which decides whether it may use variables. -/
inductive ValueContext
  | argument
  | variableDefault
  | inputDefault
deriving DecidableEq

/-- The constructs that can contain themselves. -/
inductive Nested
  | value (context : ValueContext)
  | typeRef
  | selectionSet
deriving DecidableEq

/-- What reading a nested construct yields. -/
abbrev Nested.Tree : Nested → Type
  | value _ => Value
  | typeRef => TypeRef
  | selectionSet => SelectionSet

/-- How to read something of type `α` from tokens. -/
inductive Rule : Type → Type 1
  /-- Reads nothing more. -/
  | done {α : Type} (a : α) : Rule α
  /-- Decides by the next lexeme how to go on. -/
  | look {α : Type} (next : Lexeme → Rule α) : Rule α
  /-- Takes the next lexeme and then judges it. -/
  | take {α β : Type} (judge : Lexeme → Except Refusal β) (next : β → Rule α) : Rule α
  /-- Refuses the next lexeme. -/
  | refuse {α : Type} (r : Refusal) : Rule α
  /-- Reads a nested construct, one level deeper. -/
  | nest {α : Type} (n : Nested) (next : n.Tree → Rule α) : Rule α
  /-- Reads items as long as the next lexeme passes a test. -/
  | many {α β : Type} (test : Lexeme → Bool) (item : Rule β) (next : List β → Rule α) : Rule α

namespace Rule

/-- Reads one thing and then another. -/
protected def bind {α β : Type} : Rule α → (α → Rule β) → Rule β
  | done a, f => f a
  | look next, f => look fun x => (next x).bind f
  | take judge next, f => take judge fun b => (next b).bind f
  | refuse r, _ => refuse r
  | nest n next, f => nest n fun t => (next t).bind f
  | many test item next, f => many test item fun bs => (next bs).bind f

instance : Monad Rule where
  pure := done
  bind := Rule.bind

/-- Reads a lexeme of a given kind, and yields its text. -/
def expect (k : TokenKind) : Rule String :=
  look fun x => if x.kind = k then take (fun x => .ok x.text) done else refuse (.wrongKind k)

/-- Reads a keyword. -/
def keyword (k : Keyword) : Rule Unit :=
  look fun x => if x.isName k.text then take (fun _ => .ok ()) done else refuse (.wrongKeyword k)

/-- Reads something if the next lexeme passes a test. -/
def ifNext {α : Type} (test : Lexeme → Bool) (r : Rule α) : Rule (Option α) :=
  look fun x => if test x then some <$> r else done none

/-- Reads items up to a closing lexeme. -/
def upTo {α : Type} (item : Rule α) (close : Punctuator) : Rule (List α) := do
  let items ← many (·.kind != .punctuator close) item done
  let _ ← expect close
  return items

/-- Reads an opening lexeme, any number of items and a closing lexeme. -/
def zeroOrMore {α : Type} (opening : Punctuator) (item : Rule α) (close : Punctuator) :
    Rule (List α) := do
  let _ ← expect opening
  upTo item close

/-- Reads an opening lexeme, at least one item and a closing lexeme. -/
def oneOrMore {α : Type} (opening : Punctuator) (item : Rule α) (close : Punctuator) :
    Rule (List α) := do
  let _ ← expect opening
  let first ← item
  let others ← upTo item close
  return first :: others

/-- Reads a construct that may contain itself. -/
def nested (n : Nested) : Rule n.Tree := nest n done

end Rule

end GraphQL
