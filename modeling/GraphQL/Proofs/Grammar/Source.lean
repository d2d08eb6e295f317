/-
Which source texts are documents.

* `Document.ofSource_eq_ok_iff` — a text is read as a document exactly if it
  consists of lexemes that spell it, and it is nested within the limit.
-/
import GraphQL.Proofs.Grammar.CorrectPrefix
import GraphQL.Proofs.Lexical.Lexer

namespace GraphQL

/-- Two lists that end where the first lexeme of some kind stands are the same. -/
theorem eq_of_append_cons {k : TokenKind} {as bs us vs : List Lexeme} {x y : Lexeme}
    (has : ∀ a ∈ as, a.kind ≠ k) (hbs : ∀ b ∈ bs, b.kind ≠ k) (hx : x.kind = k) (hy : y.kind = k)
    (h : as ++ x :: us = bs ++ y :: vs) : as = bs := by
  induction as generalizing bs with
  | nil =>
    cases bs with
    | nil => rfl
    | cons b bs =>
      cases h
      exact absurd hx (hbs x (by simp))
  | cons a as ih =>
    cases bs with
    | nil =>
      cases h
      exact absurd hy (has y (by simp))
    | cons b bs =>
      rw [List.cons_append, List.cons_append] at h
      obtain ⟨rfl, hrest⟩ := List.cons.inj h
      rw [ih (fun a ha => has a (by simp [ha])) (fun b hb => hbs b (by simp [hb])) hrest]

namespace Document

/-- The lexemes in front of an end of the input are read as a document exactly
if they spell it. -/
theorem verdict_accept_end_iff {maxDepth : Nat} {ws : List Lexeme} {d : Document} {x : Lexeme}
    (hws : ∀ x ∈ ws, x.kind ≠ .endOfInput) (hx : x.kind = .endOfInput) :
    (∃ rest, verdict false maxDepth (ws ++ [x]) = .accept d rest) ↔
      d.Derives ws ∧ d.depth ≤ maxDepth := by
  constructor
  · rintro ⟨rest, h⟩
    obtain ⟨w, hw, hd, hdepth, hend⟩ := verdict_accept_iff.1 h
    refine ⟨?_, hdepth⟩
    cases rest with
    | nil =>
      -- Everything was taken, the end of the input too, which it never is.
      rw [List.append_nil] at hw
      exact absurd hx (hd.kind_ne x (hw ▸ List.mem_append_right ws (by simp)))
    | cons y rest =>
      have hwords := eq_of_append_cons hws hd.kind_ne hx hend hw
      exact hwords ▸ hd
  · rintro ⟨hd, hdepth⟩
    exact ⟨[x], verdict_accept_iff.2 ⟨ws, rfl, hd, hdepth, hx⟩⟩

/-- The result of reading can be told from whether there is one, and which. -/
theorem eq_ok_of_toOption {x : Except SyntaxError Document} {d : Document}
    (h : x.toOption = some d) : x = .ok d := by
  cases x with
  | ok d' => exact congrArg Except.ok (Option.some.inj h)
  | error e => cases h

/-- A text is read as a document exactly if its lexemes spell it and it is
nested within the limit. -/
theorem ofSource_eq_ok_iff {options : ParseOptions} {source : String} {d : Document} :
    ofSource options source = .ok d ↔
      ∃ ws, Lexes source.toList ws ∧ d.Derives ws ∧ d.depth ≤ options.maxDepth := by
  have hread {ws : List Lexeme} (hws : Lexes source.toList ws) :
      ofSource options source = .ok d ↔ d.Derives ws ∧ d.depth ≤ options.maxDepth := by
    obtain ⟨ts, p, hts, rfl⟩ := tokenize_of_lexes hws
    rw [ofSource, hts, ofItems_eq_ok_iff, List.map_append]
    exact verdict_accept_end_iff (fun x hx => (hws.spellable x hx).kind_ne) rfl
  constructor
  · intro h
    rcases tokenize_cases source with ⟨ws, hws⟩ | ⟨ts, e, hts, hkind⟩
    · exact ⟨ws, hws, (hread hws).1 h⟩
    · rw [ofSource, hts] at h
      obtain ⟨rest, hne, haccept⟩ := ofItems_fault h
      exact absurd (eq_nil_of_verdict_accept (by simpa using hkind) haccept) hne
  · rintro ⟨ws, hws, hd⟩
    exact (hread hws).2 hd

end Document

end GraphQL
