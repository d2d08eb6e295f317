/-
The journal of reading a document.

* `journal` — what is noted down while a document is read, in order.
-/
import GraphQL.Grammar.Parse

namespace GraphQL

/-- How much an entry matters. -/
inductive Level
  | trace
  | debug
deriving DecidableEq

/-- One entry of the journal. -/
structure Entry where
  level : Level
  message : String
deriving DecidableEq

/-- The entries for a document that was read, or could not be read. -/
def journal (result : Except SyntaxError Document) : List Entry :=
  [⟨.trace, "parsing GraphQL document"⟩,
   match result with
   | .ok d =>
     ⟨.trace, "parsed GraphQL document with " ++ toString d.definitions.length ++ " definition(s)"⟩
   | .error e => ⟨.debug, "failed to parse GraphQL document: " ++ e.report.oneLine⟩]

end GraphQL
