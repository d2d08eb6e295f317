/-
How the events of a walk are nested.

* `Event.openAfter` — the nodes that some events enter and do not leave again, on a
  stack;
* `Event.Closed` — events that leave the nodes that they enter, and no others;
* `Node.closed_events` — the events of a walk are closed;
* `Node.events_of_enter` — where a walk enters a node, the walk from that node follows;
* `Node.walk_nested_complete` — a walk is well nested, and it enters the node at each
  place, and each once.

Design notes: of events in the middle of others it is not enough that the stack behind
them is the one in front of them, since what they leave might be entered again.  `Closed`
speaks of all the stacks on the way.
-/
import GraphQL.Proofs.Document.Parts

namespace GraphQL

namespace Event

/-- The nodes that are open behind some events, the last one first, if those on the stack
are open in front of them.  Only the last one can be left. -/
def openAfter : List Node → List Event → Option (List Node)
  | stack, [] => some stack
  | stack, enter n :: es => openAfter (n :: stack) es
  | [], leave _ :: _ => none
  | m :: stack, leave n :: es => if m = n then openAfter stack es else none

theorem openAfter_append (stack : List Node) (es es' : List Event) :
    openAfter stack (es ++ es') = (openAfter stack es).bind (openAfter · es') := by
  fun_induction openAfter stack es with
  | case1 => rfl
  | case2 stack n es ih => exact ih
  | case3 => rfl
  | case4 m stack es ih => rw [List.cons_append, openAfter, if_pos rfl, ih]
  | case5 m stack n es hne =>
    rw [List.cons_append, openAfter, if_neg hne]
    rfl

/-- Events that leave the nodes that they enter, and no others: what is open in front of
them stays open all along, and nothing else is open behind them. -/
structure Closed (es : List Event) : Prop where
  along : ∀ stack part, part <+: es → ∃ opened, openAfter stack part = some (opened ++ stack)
  behind : ∀ stack, openAfter stack es = some stack

namespace Closed

variable {es es' : List Event}

theorem nil : Closed [] where
  along := by
    intro stack part hpart
    rw [List.prefix_nil.1 hpart]
    exact ⟨[], rfl⟩
  behind _ := rfl

theorem append (h : Closed es) (h' : Closed es') : Closed (es ++ es') where
  along := by
    intro stack part hpart
    rcases List.prefix_or_prefix_of_prefix hpart (List.prefix_append es es') with hle | ⟨more, hge⟩
    · exact h.along stack part hle
    · subst hge
      rw [openAfter_append, h.behind]
      exact h'.along stack more ((List.prefix_append_right_inj es).1 hpart)
  behind stack := by
    rw [openAfter_append, h.behind]
    exact h'.behind stack

theorem flatMap {α : Type} {f : α → List Event} {xs : List α} (h : ∀ x ∈ xs, Closed (f x)) :
    Closed (xs.flatMap f) := by
  induction xs with
  | nil => exact .nil
  | cons x xs ih =>
    rw [List.flatMap_cons]
    exact (h x (by simp)).append (ih fun y hy => h y (by simp [hy]))

/-- A node may be entered in front of closed events and left behind them. -/
theorem wrap (h : Closed es) (n : Node) : Closed (enter n :: es ++ [leave n]) := by
  have hbehind : ∀ stack, openAfter stack (enter n :: es ++ [leave n]) = some stack := by
    intro stack
    rw [List.cons_append, openAfter, openAfter_append, h.behind]
    exact if_pos rfl
  refine ⟨fun stack part hpart => ?_, hbehind⟩
  rcases List.prefix_concat_iff.1 hpart with rfl | hpart
  · exact ⟨[], hbehind stack⟩
  · rcases List.prefix_cons_iff.1 hpart with rfl | ⟨inside, rfl, hinside⟩
    · exact ⟨[], rfl⟩
    · obtain ⟨opened, hopened⟩ := h.along (n :: stack) inside hinside
      exact ⟨opened ++ [n], by rw [openAfter, hopened, List.append_assoc]; rfl⟩

end Closed

end Event

/-- What stands in a list made of parts stands in one of them, and the rest of that part
follows. -/
theorem exists_of_flatMap_eq {α β : Type} {f : α → List β} {xs : List α} {x : β}
    {before later : List β} (h : xs.flatMap f = before ++ x :: later) :
    ∃ a ∈ xs, ∃ front back more, f a = front ++ x :: back ∧ later = back ++ more := by
  induction xs generalizing before with
  | nil => simp at h
  | cons a xs ih =>
    rw [List.flatMap_cons, List.append_eq_append_iff] at h
    rcases h with ⟨front, -, hrest⟩ | ⟨part, hpart, hrest⟩
    · obtain ⟨b, hb, hsplit⟩ := ih hrest
      exact ⟨b, List.mem_cons_of_mem a hb, hsplit⟩
    · rcases List.cons_eq_append_iff.1 hrest with ⟨rfl, hx⟩ | ⟨back, rfl, hlater⟩
      · have hxs : xs.flatMap f = [] ++ x :: later := hx
        obtain ⟨b, hb, hsplit⟩ := ih hxs
        exact ⟨b, List.mem_cons_of_mem a hb, hsplit⟩
      · exact ⟨a, List.mem_cons_self, before, back, _, hpart, hlater⟩

namespace Node

/-- The events of a walk leave the nodes that they enter, and no others. -/
theorem closed_events (n : Node) : Event.Closed n.events := by
  induction n using induct with
  | step n ih =>
    rw [events_eq]
    exact Event.Closed.wrap (.flatMap ih) n

/-- Where a walk enters a node, the walk from that node follows. -/
theorem events_of_enter {n m : Node} {before later : List Event}
    (h : n.events = before ++ .enter m :: later) : m.events <+: .enter m :: later := by
  induction n using induct generalizing before later with
  | step n ih =>
    rw [events_eq, List.cons_append] at h
    cases before with
    | nil =>
      cases List.head_eq_of_cons_eq h
      rw [← List.nil_append (_ :: later), ← h, events_eq]
      exact List.prefix_rfl
    | cons e before =>
      have hrest := List.tail_eq_of_cons_eq h
      rcases List.append_eq_append_iff.1 hrest with ⟨part, -, hlast⟩ | ⟨part, hinside, hpart⟩
      · -- The last event enters no node.
        have hmem : Event.enter m ∈ [Event.leave n] := by
          rw [hlast]
          exact List.mem_append_right part List.mem_cons_self
        cases List.mem_singleton.1 hmem
      · rcases List.append_eq_cons_iff.1 hpart.symm with ⟨-, hlast⟩ | ⟨later, rfl, rfl⟩
        · cases hlast
        · obtain ⟨c, hc, front, back, more, hevents, rfl⟩ := exists_of_flatMap_eq hinside
          have hprefix := ih c hc hevents
          rw [List.append_assoc]
          exact hprefix.trans (List.prefix_append (.enter m :: back) (more ++ [.leave n]))

/-- A walk is well nested and complete.  On a stack, every event leaves the node that was
entered last of those that are open; the first event enters the root, and the last one
leaves it.  Nothing is in a node but what is in its fields.  The places inside the root are
all the places where these lead to a node, each listed once, and the nodes that are entered
are those at these places.  Behind the event that enters a node stand the other events of
a walk from that node. -/
theorem walk_nested_complete (n : Node) :
    Event.openAfter [] n.events = some [] ∧
      n.events.head? = some (.enter n) ∧ n.events.getLast? = some (.leave n) ∧
      (∀ m : Node, n.ctorIdx = m.ctorIdx → n.contents = m.contents → n = m) ∧
      n.paths.Nodup ∧ (∀ path, path ∈ n.paths ↔ (n.at? path).isSome) ∧
      n.paths.map n.at? = n.entered.map some ∧
      ∀ before m later, n.events = before ++ .enter m :: later →
        ∃ inside more, later = inside ++ .leave m :: more ∧
          m.events = .enter m :: inside ++ [.leave m] ∧ Event.Closed inside := by
  have hfirst : n.events.head? = some (.enter n) := by
    rw [events_eq]
    rfl
  have hlast : n.events.getLast? = some (.leave n) := by
    rw [events_eq, List.getLast?_concat]
  refine ⟨n.closed_events.behind [], hfirst, hlast, fun _ => ext_contents, n.nodup_paths,
    fun _ => mem_paths_iff, n.map_at?_paths, ?_⟩
  intro before m later h
  obtain ⟨more, hmore⟩ := events_of_enter h
  have hinside : Event.Closed (m.children.flatMap events) :=
    .flatMap fun c _ => c.closed_events
  rw [events_eq, List.cons_append, List.cons_append, List.append_assoc] at hmore
  exact ⟨_, more, (List.tail_eq_of_cons_eq hmore).symm, m.events_eq, hinside⟩

/-- The value `[$a]`. -/
def listOfVariable : Node := value (.list [.var ⟨⟨"a"⟩⟩])

theorem walk_nested_complete_listOfVariable :
    let m := value (.var ⟨⟨"a"⟩⟩)
    let later : List Event :=
      [.enter (var ⟨⟨"a"⟩⟩), .enter (name ⟨"a"⟩), .leave (name ⟨"a"⟩), .leave (var ⟨⟨"a"⟩⟩),
        .leave m, .leave listOfVariable]
    listOfVariable.events = [.enter listOfVariable] ++ .enter m :: later ∧
      ∃ inside more, later = inside ++ .leave m :: more ∧
        m.events = .enter m :: inside ++ [.leave m] ∧ Event.Closed inside := by
  intro m later
  have hevents : listOfVariable.events = [.enter listOfVariable] ++ .enter m :: later := by
    simp [listOfVariable, m, later, events_eq, children, ofValueParts]
  obtain ⟨-, -, -, -, -, -, -, hinside⟩ := walk_nested_complete listOfVariable
  exact ⟨hevents, hinside _ _ _ hevents⟩

end Node

end GraphQL
