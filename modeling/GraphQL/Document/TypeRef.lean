/-
Type references.

* `TypeRef` — a named type under any number of list and non-null marks;
* `TypeRef.innermost` — the name under the marks.
-/
import GraphQL.Document.Value

namespace GraphQL

/-- The type of a variable, a field or an argument. -/
inductive TypeRef
  | named (name : Name)
  | list (item : TypeRef)
  | nonNull (inner : TypeRef)
deriving DecidableEq

namespace TypeRef

/-- The name under all marks. -/
def innermost : TypeRef → Name
  | named name => name
  | list item => item.innermost
  | nonNull inner => inner.innermost

/-- Whether the outermost mark is the non-null mark. -/
def isNonNull : TypeRef → Bool
  | nonNull _ => true
  | named _ | list _ => false

end TypeRef

end GraphQL
