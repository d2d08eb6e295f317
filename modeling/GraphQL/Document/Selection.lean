/-
Selections.

A `SelectionSet` names what is asked of one object: fields, which may have
selection sets of their own, and fragments.

* `SelectionSet.induct` — induction over selection sets and those inside them;
* `Field.responseKey` — the name a field answers to;
* `SelectionSet.same_iff` — equality of selections is decidable.
-/
import GraphQL.Document.Value

namespace GraphQL

/-- A named value given to a field or directive. -/
structure Argument where
  name : Name
  value : Value
deriving DecidableEq

/-- A mark on a part of an executable definition. -/
structure Directive where
  name : Name
  arguments : List Argument
deriving DecidableEq

/-- A fragment taken in by name. -/
structure FragmentSpread where
  name : Name
  directives : List Directive
deriving DecidableEq

mutual

/-- One thing that is asked of an object. -/
inductive Selection
  | field (f : Field)
  | spread (s : FragmentSpread)
  | inline (f : InlineFragment)

/-- A field, with what is asked of its result. -/
structure Field where
  alias? : Option Name
  name : Name
  arguments : List Argument
  directives : List Directive
  selectionSet? : Option SelectionSet

/-- A fragment written in place. -/
structure InlineFragment where
  typeCondition? : Option Name
  directives : List Directive
  selectionSet : SelectionSet

/-- What is asked of one object. -/
structure SelectionSet where
  selections : List Selection

end

/-- The name that a field's result is reported under. -/
def Field.responseKey (f : Field) : Name := f.alias?.getD f.name

/-- The selection set directly inside a selection. -/
def Selection.selectionSet? : Selection → Option SelectionSet
  | field f => f.selectionSet?
  | spread _ => none
  | inline f => some f.selectionSet

@[simp] theorem Selection.selectionSet?_field (f : Field) :
    (field f).selectionSet? = f.selectionSet? := rfl

@[simp] theorem Selection.selectionSet?_spread (s : FragmentSpread) :
    (spread s).selectionSet? = none := rfl

@[simp] theorem Selection.selectionSet?_inline (f : InlineFragment) :
    (inline f).selectionSet? = some f.selectionSet := rfl

/-- Induction over selection sets and the selection sets inside them. -/
theorem SelectionSet.induct {motive : SelectionSet → Prop}
    (step : ∀ ss, (∀ s ∈ ss, ∀ t, s.selectionSet? = some t → motive t) → motive ⟨ss⟩)
    (ss : SelectionSet) : motive ss := by
  refine @SelectionSet.rec (fun s => ∀ t, s.selectionSet? = some t → motive t)
    (fun f => ∀ t, f.selectionSet? = some t → motive t) (fun f => motive f.selectionSet) motive
    (fun t? => ∀ t, t? = some t → motive t)
    (fun ss => ∀ s ∈ ss, ∀ t, s.selectionSet? = some t → motive t)
    ?_ ?_ ?_ ?_ ?_ step ?_ ?_ ?_ ?_ ss <;> simp_all

mutual

/-- Structural comparison of selections. -/
def Selection.same : Selection → Selection → Bool
  | .field f, .field g => f.same g
  | .spread s, .spread t => s == t
  | .inline f, .inline g => f.same g
  | _, _ => false

/-- Structural comparison of fields. -/
def Field.same : Field → Field → Bool
  | ⟨a, n, as, ds, s⟩, ⟨a', n', as', ds', s'⟩ =>
    a == a' && n == n' && as == as' && ds == ds' &&
      match s, s' with
      | none, none => true
      | some s, some s' => s.same s'
      | _, _ => false

/-- Structural comparison of inline fragments. -/
def InlineFragment.same : InlineFragment → InlineFragment → Bool
  | ⟨c, ds, s⟩, ⟨c', ds', s'⟩ => c == c' && ds == ds' && s.same s'

/-- Structural comparison of selection sets. -/
def SelectionSet.same : SelectionSet → SelectionSet → Bool
  | ⟨ss⟩, ⟨ts⟩ => Selection.sameAll ss ts

/-- Structural comparison of lists of selections. -/
def Selection.sameAll : List Selection → List Selection → Bool
  | [], [] => true
  | s :: ss, t :: ts => s.same t && Selection.sameAll ss ts
  | _, _ => false

end

mutual

theorem Selection.same_iff (s t : Selection) : s.same t = true ↔ s = t := by
  cases s <;> cases t <;> simp [Selection.same]
  · exact Field.same_iff _ _
  · exact InlineFragment.same_iff _ _
termination_by structural s

theorem Field.same_iff (f g : Field) : f.same g = true ↔ f = g := by
  obtain ⟨a, n, as, ds, s⟩ := f
  obtain ⟨a', n', as', ds', s'⟩ := g
  cases s with
  | none => cases s' <;> simp [Field.same, and_assoc]
  | some s => cases s' <;> simp [Field.same, SelectionSet.same_iff s, and_assoc]
termination_by structural f

theorem InlineFragment.same_iff (f g : InlineFragment) : f.same g = true ↔ f = g := by
  obtain ⟨c, ds, s⟩ := f
  obtain ⟨c', ds', s'⟩ := g
  simp [InlineFragment.same, SelectionSet.same_iff s s', and_assoc]
termination_by structural f

theorem SelectionSet.same_iff (s t : SelectionSet) : s.same t = true ↔ s = t := by
  obtain ⟨ss⟩ := s
  obtain ⟨ts⟩ := t
  simp [SelectionSet.same, Selection.sameAll_iff ss ts]
termination_by structural s

theorem Selection.sameAll_iff (ss ts : List Selection) :
    Selection.sameAll ss ts = true ↔ ss = ts := by
  cases ss with
  | nil => cases ts <;> simp [Selection.sameAll]
  | cons s ss =>
    cases ts with
    | nil => simp [Selection.sameAll]
    | cons t ts => simp [Selection.sameAll, Selection.same_iff s t, Selection.sameAll_iff ss ts]
termination_by structural ss

end

instance : DecidableEq Selection := fun s t => decidable_of_iff _ (Selection.same_iff s t)

instance : DecidableEq Field := fun f g => decidable_of_iff _ (Field.same_iff f g)

instance : DecidableEq InlineFragment :=
  fun f g => decidable_of_iff _ (InlineFragment.same_iff f g)

instance : DecidableEq SelectionSet := fun s t => decidable_of_iff _ (SelectionSet.same_iff s t)

end GraphQL
