/-
Walking a document.

A walk enters a node, walks what is inside it in the order of the text, and
leaves the node again.

* `Node.events` — what happens on a walk;
* `Node.events_eq` — the law of a walk;
* `Node.entered` — the nodes in the order in which a walk comes to them.
-/
import GraphQL.Node

namespace GraphQL

/-- What happens to a node on a walk. -/
inductive Event
  | enter (n : Node)
  | leave (n : Node)
deriving DecidableEq

/-- The node that an event enters. -/
def Event.entered? : Event → Option Node
  | enter n => some n
  | leave _ => none

namespace Node

/-- What happens on a walk from a node. -/
def events (n : Node) : List Event :=
  .enter n :: n.children.attach.flatMap (fun ⟨c, _⟩ => c.events) ++ [.leave n]
termination_by sizeOf n
decreasing_by exact sizeOf_lt_of_mem_children ‹_›

/-- A walk enters its node, walks the children and leaves the node. -/
theorem events_eq (n : Node) :
    n.events = .enter n :: n.children.flatMap events ++ [.leave n] := by
  rw [events]
  simp

/-- The nodes inside a node, itself first, in the order in which they are entered. -/
def entered (n : Node) : List Node := n.events.filterMap Event.entered?

end Node

end GraphQL
