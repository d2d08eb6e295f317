/-
The nesting limit.

* `CutOff` — a document could not be read because it goes beyond the limit;
* `Document.cutOff_or_eq_of_le` — a larger limit leads to the same, unless the
  smaller one is met;
* `Document.limit_only_cuts_off` — so the limit changes no result, it can only
  cut reading off, and a smaller one cuts it off as well.

Design notes: one budget of levels is shared by selection sets, values and
types.  `Rule.read_mono` follows two budgets along a rule; what is left to do
here is to say what that means for the outcome of reading a source.
-/
import GraphQL.Proofs.Grammar.Stream

namespace GraphQL

/-- A document could not be read because it goes beyond a limit. -/
def CutOff (limit : Nat) : Except SyntaxError Document → Prop
  | .ok _ => False
  | .error e => e.cause = .tooDeep limit

instance (limit : Nat) : DecidablePred (CutOff limit)
  | .ok _ => inferInstanceAs (Decidable False)
  | .error e => inferInstanceAs (Decidable (e.cause = .tooDeep limit))

theorem Refusal.error_cause_ne_tooDeep (r : Refusal) (t : Token) (limit : Nat) :
    (r.error t).cause ≠ .tooDeep limit := by
  cases r <;> simp [Refusal.error, SyntaxError.of]

namespace Verdict.Describes

variable {limit limit' : Nat} {all : List Token} {tail : List Item}

/-- Outcomes that one verdict foretells are the same, whatever limits were not
met. -/
theorem toExcept_congr {α : Type} {v : Verdict α} {o o' : Outcome α}
    (h : v.Describes limit all tail o) (h' : v.Describes limit' all tail o')
    (hv : ∀ rest, v ≠ .tooDeep rest) : o.toExcept = o'.toExcept := by
  cases v with
  | accept a rest =>
    obtain ⟨s, us, rfl, _, _⟩ := h
    obtain ⟨s', us', rfl, _, _⟩ := h'
    rfl
  | refuse r rest =>
    obtain ⟨s, rfl⟩ := h
    obtain ⟨s', rfl⟩ := h'
    rfl
  | tooDeep rest => exact absurd rfl (hv rest)
  | broken =>
    obtain ⟨e, more, s, htail, rfl⟩ := h
    obtain ⟨e', more', s', htail', rfl⟩ := h'
    rw [htail] at htail'
    cases htail'
    rfl

/-- An outcome is cut off exactly if the verdict that foretells it is. -/
theorem cutOff_iff {v : Verdict Document} {o : Outcome Document}
    (h : v.Describes limit all tail o) (n : Nat) :
    CutOff n o.toExcept ↔ n = limit ∧ ∃ rest, v = .tooDeep rest := by
  cases v with
  | accept d rest =>
    obtain ⟨s, us, rfl, _, _⟩ := h
    simp [CutOff, Outcome.toExcept]
  | refuse r rest =>
    obtain ⟨s, rfl⟩ := h
    simp [CutOff, Outcome.toExcept, r.error_cause_ne_tooDeep]
  | tooDeep rest =>
    obtain ⟨s, rfl⟩ := h
    simp [CutOff, Outcome.toExcept, SyntaxError.of, eq_comm]
  | broken =>
    obtain ⟨e, more, s, _, rfl⟩ := h
    simp [CutOff, Outcome.toExcept, SyntaxError.ofLexical]

end Verdict.Describes

namespace Document

/-- Two limits lead to the same, unless the smaller one is met. -/
theorem cutOff_or_eq_of_le {d d' : Nat} (h : d ≤ d') (items : List Item) :
    CutOff d (ofItems ⟨d⟩ items) ∨ ofItems ⟨d'⟩ items = ofItems ⟨d⟩ items := by
  rcases items_cases items with ⟨e, more, rfl⟩ | ⟨ts, tail, rfl, htail, hne⟩
  · exact .inr rfl
  · have hd := document_describes ts htail hne ⟨d⟩
    have hd' := document_describes ts htail hne ⟨d'⟩
    have hmono : (verdict (!tail.isEmpty) d (ts.map Token.toLexeme)).Refines
        (verdict (!tail.isEmpty) d' (ts.map Token.toLexeme)) :=
      Rule.read_mono (Reader.within_extends _ h) Rule.document _
    by_cases hdeep : ∃ rest, verdict (!tail.isEmpty) d (ts.map Token.toLexeme) = .tooDeep rest
    · exact .inl ((hd.cutOff_iff d).2 ⟨rfl, hdeep⟩)
    · have hsame := hmono.resolve_left hdeep
      dsimp only at hd hd'
      rw [hsame] at hd'
      exact .inr (hd'.toExcept_congr hd fun rest hrest => hdeep ⟨rest, hrest⟩)

/-- The limit that is reported is the one that was given. -/
theorem eq_of_cutOff {d n : Nat} {items : List Item} (h : CutOff n (ofItems ⟨d⟩ items)) :
    n = d := by
  rcases items_cases items with ⟨e, more, rfl⟩ | ⟨ts, tail, rfl, htail, hne⟩
  · cases h
  · exact (((document_describes ts htail hne ⟨d⟩).cutOff_iff n).1 h).1

/-- A limit that is not met has no influence: every larger one leads to the same
document or error.  A limit that is met is reported, and so is every smaller
one. -/
theorem limit_only_cuts_off (items : List Item) :
    (∀ d d', d ≤ d' → ¬CutOff d (ofItems ⟨d⟩ items) →
      ofItems ⟨d'⟩ items = ofItems ⟨d⟩ items) ∧
    ∀ d n, CutOff n (ofItems ⟨d⟩ items) →
      n = d ∧ ∀ d' < d, CutOff d' (ofItems ⟨d'⟩ items) := by
  constructor
  · intro d d' hle hd
    exact (cutOff_or_eq_of_le hle items).resolve_left hd
  · intro d n hn
    have hnd := eq_of_cutOff hn
    refine ⟨hnd, fun d' hlt => ?_⟩
    rcases cutOff_or_eq_of_le (Nat.le_of_lt hlt) items with hcut | hsame
    · exact hcut
    · -- Otherwise the larger limit would not have been met either.
      rw [hsame] at hn
      have hlimits : d = d' := hnd.symm.trans (eq_of_cutOff hn)
      exact absurd hlimits (Nat.ne_of_gt hlt)

/-- The tokens of `{a{b}c{d}}`, all in one place. -/
def siblings : List Item :=
  let field (text : String) : Lexeme := .ofName text
  let opening : Lexeme := .ofPunctuator .braceOpen
  let close : Lexeme := .ofPunctuator .braceClose
  [opening, field "a", opening, field "b", close, field "c", opening, field "d", close, close].map
    fun x => .ok ⟨x, default⟩

/-- The levels of a first selection set are there again for the second one. -/
theorem limit_only_cuts_off_siblings :
    ¬CutOff 2 (ofItems ⟨2⟩ siblings) ∧ ofItems ⟨7⟩ siblings = ofItems ⟨2⟩ siblings ∧
      CutOff 1 (ofItems ⟨1⟩ siblings) ∧ CutOff 0 (ofItems ⟨0⟩ siblings) := by
  have htwo : ¬CutOff 2 (ofItems ⟨2⟩ siblings) := by decide +kernel
  have hone : CutOff 1 (ofItems ⟨1⟩ siblings) := by decide +kernel
  obtain ⟨hsame, hless⟩ := limit_only_cuts_off siblings
  exact ⟨htwo, hsame 2 7 (by decide) htwo, hone, (hless 1 1 hone).2 0 (by decide)⟩

end Document

end GraphQL
