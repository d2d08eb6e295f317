/-
Exactly the documents of the grammar are read.

* `Document.verdict_accept_iff` — a list of lexemes is accepted exactly if what
  stands in front of the end of the input spells a document within the limit;
* `Document.ofItems_eq_ok_iff_derives` — hence so is a list of tokens;
* `Document.Derives.unique` — lexemes spell at most one document.

Design notes: the end of the input is a lexeme like any other in a list, so
the first one ends the document wherever it stands.
-/
import GraphQL.Proofs.Grammar.Completeness.Document
import GraphQL.Proofs.Grammar.Stream

namespace GraphQL

open Phrase

namespace Document

/-- What is accepted as a document is spelled by the lexemes in front of the
end of the input. -/
theorem verdict_accept {breaksOff : Bool} {maxDepth : Nat} {ws rest : List Lexeme} {d : Document}
    (h : verdict breaksOff maxDepth ws = .accept d rest) :
    ∃ w, ws = w ++ rest ∧ d.Derives w ∧ d.depth ≤ maxDepth ∧ (front rest).kind = .endOfInput := by
  have hk := Reader.within_keeps breaksOff maxDepth
  have hread := (Rule.document_keeps hk).read ws
  rw [show Rule.document.read (Reader.within breaksOff maxDepth) ws = .accept d rest from h]
    at hread
  obtain ⟨w, hw, hd⟩ := hread
  obtain ⟨hderives, hdepth⟩ := hd maxDepth (Nat.le_refl _)
  refine ⟨w, hw, hderives, hdepth, ?_⟩
  -- Every definition takes a lexeme, so the loop over them ends in front of the end.
  have hshort {ws b rest} (h : Rule.definition.read (Reader.within breaksOff maxDepth) ws =
      .accept b rest) : rest.length < ws.length := by
    have hread := (Rule.definition_keeps hk).read ws
    rw [h] at hread
    obtain ⟨w, rfl, hd⟩ := hread
    have := List.length_pos_iff.2 (hd maxDepth (Nat.le_refl _)).1.opens.ne_nil
    rw [List.length_append]
    omega
  rw [verdict, Rule.document, Rule.read_bind] at h
  obtain ⟨first, mid, _, h⟩ := Verdict.andThen_eq_accept_iff.1 h
  obtain ⟨others, rest', hothers, h⟩ := Verdict.andThen_eq_accept_iff.1 h
  have hstop := Reader.repeatWhile_stops hshort hothers
  cases h
  simpa [Lexeme.hasKind] using hstop

/-- When a list of lexemes is accepted. -/
theorem verdict_accept_iff {maxDepth : Nat} {ws rest : List Lexeme} {d : Document} :
    verdict false maxDepth ws = .accept d rest ↔
      ∃ w, ws = w ++ rest ∧ d.Derives w ∧ d.depth ≤ maxDepth ∧ (front rest).kind = .endOfInput := by
  constructor
  · exact verdict_accept
  · rintro ⟨w, rfl, hd, hdepth, hend⟩
    exact Rule.read_document (Reader.within_covers maxDepth) hd hdepth hend

/-- The lexemes that spell a document are accepted as it, within the limit. -/
theorem verdict_accept_nil_iff {maxDepth : Nat} {w : List Lexeme} {d : Document} :
    verdict false maxDepth w = .accept d [] ↔ d.Derives w ∧ d.depth ≤ maxDepth := by
  rw [verdict_accept_iff]
  constructor
  · rintro ⟨u, hu, hd, hdepth, _⟩
    rw [List.append_nil] at hu
    exact ⟨hu ▸ hd, hdepth⟩
  · rintro ⟨hd, hdepth⟩
    exact ⟨w, by simp, hd, hdepth, rfl⟩

/-- No lexemes spell two documents. -/
theorem Derives.unique {w : List Lexeme} {d d' : Document} (h : d.Derives w) (h' : d'.Derives w) :
    d = d' := by
  have hd := verdict_accept_nil_iff.2 ⟨h, Nat.le_max_left d.depth d'.depth⟩
  have hd' := verdict_accept_nil_iff.2 ⟨h', Nat.le_max_right d.depth d'.depth⟩
  rw [hd] at hd'
  cases hd'
  rfl

/-- Where the end of the input is not among the lexemes, all of them are taken. -/
theorem eq_nil_of_verdict_accept {breaksOff : Bool} {maxDepth : Nat} {ws rest : List Lexeme}
    {d : Document} (hws : ∀ x ∈ ws, x.kind ≠ .endOfInput)
    (h : verdict breaksOff maxDepth ws = .accept d rest) : rest = [] := by
  obtain ⟨w, rfl, _, _, hend⟩ := verdict_accept h
  cases rest with
  | nil => rfl
  | cons x rest => exact absurd hend (hws x (by simp))

/-- Tokens are read as a document exactly if they spell it and it is nested
within the limit. -/
theorem ofItems_eq_ok_iff_derives {options : ParseOptions} {ts : List Token} {d : Document}
    (hts : ∀ t ∈ ts, t.kind ≠ .endOfInput) :
    ofItems options (ts.map .ok) = .ok d ↔
      d.Derives (ts.map Token.toLexeme) ∧ d.depth ≤ options.maxDepth := by
  rw [ofItems_eq_ok_iff, ← verdict_accept_nil_iff]
  constructor
  · rintro ⟨rest, h⟩
    have hrest := eq_nil_of_verdict_accept (by simpa using hts) h
    rwa [hrest] at h
  · exact fun h => ⟨[], h⟩

/-- A field whose name is missing its text, in a selection set at the limit. -/
theorem ofItems_nameless_field :
    ofItems ⟨1⟩ (List.map .ok
      [⟨.ofPunctuator .braceOpen, .emptyAt .zero⟩, ⟨⟨.name, none⟩, .emptyAt .zero⟩,
        ⟨.ofPunctuator .braceClose, .emptyAt .zero⟩]) =
      .ok ⟨[.operation ⟨.query, none, [], [], ⟨[.field ⟨none, ⟨""⟩, [], [], none⟩]⟩⟩]⟩ := by
  have hn : Name.Derives ⟨_⟩ _ := Terminal.intro (x := ⟨.name, none⟩) rfl
  have hf : Field.Derives _ _ := .intro .none hn .none .nil .none
  have hopen : Symbol .braceOpen [.ofPunctuator .braceOpen] := .intro rfl
  have hclose : Symbol .braceClose [.ofPunctuator .braceClose] := .intro rfl
  have hs : SelectionSet.Derives _ _ := .intro hopen (.cons (.field hf) .nil) (by simp) hclose
  have hd : Document.Derives _ _ := .intro (.cons (.operation (.bare hs)) .nil) (by simp)
  exact (ofItems_eq_ok_iff_derives (by decide)).2 ⟨hd, by decide⟩

end Document

end GraphQL
