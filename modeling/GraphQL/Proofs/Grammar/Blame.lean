/-
What a syntax error is about.

* `InView` — the tokens that a stream can show while it gives out some items;
* `Document.ofItems_error_cases` — an error is a fault among the items, or it
  speaks of a token that was in view.

Design notes: besides the tokens of its source a stream shows the end of the
input, at the very beginning and behind the last token of a source that runs
dry.
-/
import GraphQL.Proofs.Grammar.Stream

namespace GraphQL

/-- The tokens that can be in view while some items are read. -/
inductive InView (items : List Item) : Token → Prop
  | start : InView items (.endAt .zero)
  | item {t : Token} (h : .ok t ∈ items) : InView items t
  | stop {t : Token} (h : .ok t ∈ items) : InView items (.endAt t.span.stop)

theorem blamed_inView (ts : List Token) (tail : List Item) (rest : List Lexeme) :
    InView (ts.map .ok ++ tail) (blamed ts rest) := by
  have hitem {t : Token} (h : t ∈ ts) : .ok t ∈ ts.map Except.ok ++ tail :=
    List.mem_append_left tail (List.mem_map_of_mem h)
  obtain ⟨us, hus⟩ : ∃ us, ts.drop (ts.length - rest.length) = us := ⟨_, rfl⟩
  rw [blamed, hus]
  cases us with
  | cons t us => exact .item (hitem (List.mem_of_mem_drop (hus ▸ List.mem_cons_self)))
  | nil =>
    rw [viewed, endOf]
    cases hlast : ts.getLast? with
    | none => exact .start
    | some t => exact .stop (hitem (List.mem_of_getLast? hlast))

/-- An error is a fault of the source, or it refuses a token in view or finds
that it goes beyond the limit. -/
theorem Document.ofItems_error_cases {options : ParseOptions} {items : List Item} {e : SyntaxError}
    (h : ofItems options items = .error e) :
    (∃ f, .error f ∈ items ∧ e = .ofLexical f) ∨
      ∃ t, InView items t ∧
        ((∃ r : Refusal, e = r.error t) ∨ e = .of (.tooDeep options.maxDepth) t.span) := by
  rcases items_cases items with ⟨f, more, rfl⟩ | ⟨ts, tail, rfl, htail, hne⟩
  · cases h
    exact .inl ⟨f, List.mem_cons_self, rfl⟩
  · have hd := document_describes ts htail hne options
    rcases hd.toExcept_eq_error h with ⟨r, rest, _, rfl⟩ | ⟨rest, _, rfl⟩ | ⟨f, more, rfl, _, rfl⟩
    · exact .inr ⟨_, blamed_inView ts tail rest, .inl ⟨r, rfl⟩⟩
    · exact .inr ⟨_, blamed_inView ts tail rest, .inr rfl⟩
    · exact .inl ⟨f, List.mem_append_right _ List.mem_cons_self, rfl⟩

end GraphQL
