/-
Lexical faults and the tokens in front of them.

The next token is fetched before the one in view is judged, so a lexical fault
may be met before a syntax error that stands to the left of it.

* `Document.completable_or_hopeless` — some tokens can start a document or
  cannot, and the end of the input has no part in it;
* `Document.completable_or_null_of_fault` — the tokens in front of a fault that
  is reported can be completed to a document, but for one name `null` directly
  in front of the fault;
* `Document.fault_hides_null` — that one error is hidden indeed.

Design notes: all other rules look at a token before they take it.  Only the
place of a value takes every name and then asks which one it is.
-/
import GraphQL.Proofs.Grammar.Source

namespace GraphQL

open Phrase

theorem Refusal.error_cause_ne (r : Refusal) (t : Token) (f : LexicalError) :
    (r.error t).cause ≠ .lexical f := by
  cases r <;> nofun

namespace Document

/-- Where the source breaks off, what has been taken can be completed. -/
theorem verdict_broken {maxDepth : Nat} {ws : List Lexeme}
    (h : verdict true maxDepth ws = .broken) :
    ∃ w rest, ws = w ++ rest ∧ Unjudged rest ∧ ∃ v d, Document.Derives d (w ++ v) := by
  have hread := (Rule.document_keeps (Reader.within_keeps true maxDepth)).read ws
  rw [show Rule.document.read (Reader.within true maxDepth) ws = .broken from h] at hread
  obtain ⟨w, rest, hw, ⟨d, v, m, hd⟩, hrest⟩ := hread
  exact ⟨w, rest, hw, hrest, v, d, (hd m (Nat.le_refl m)).1⟩

/-- Tokens without a fault are not refused for one. -/
theorem cause_ne_lexical {options : ParseOptions} {ts : List Token} {e : SyntaxError}
    (h : ofItems options (ts.map .ok) = .error e) (f : LexicalError) : e.cause ≠ .lexical f := by
  rcases ofItems_eq_error h with ⟨r, rest, _, rfl⟩ | ⟨rest, _, rfl⟩
  · exact r.error_cause_ne _ f
  · nofun

/-- A fault is reported where it is the first thing that is read, or where the
tokens in front of it are not enough to tell. -/
theorem verdict_of_fault {options : ParseOptions} {ts : List Token} {e : SyntaxError}
    {f f' : LexicalError} (h : ofItems options (ts.map .ok ++ [.error f']) = .error e)
    (hf : e.cause = .lexical f) :
    f' = f ∧ (ts = [] ∨ verdict true options.maxDepth (ts.map Token.toLexeme) = .broken) := by
  cases ts with
  | nil =>
    cases h
    exact ⟨SyntaxCause.lexical.inj hf, .inl rfl⟩
  | cons t ts =>
    have hd := document_describes (t :: ts) (.inr ⟨f', [], rfl⟩ : IsTail [.error f'])
      (.inl (List.cons_ne_nil t ts)) options
    rcases hd.toExcept_eq_error h with ⟨r, rest, _, rfl⟩ | ⟨rest, _, rfl⟩ | ⟨g, more, hg, hv, rfl⟩
    · exact absurd hf (r.error_cause_ne _ f)
    · cases hf
    · cases hg
      exact ⟨SyntaxCause.lexical.inj hf, .inr hv⟩

/-- Tokens that no tokens complete are not completed by an end of the input
among them either. -/
theorem completable_or_hopeless {ts : List Token} (hts : ∀ t ∈ ts, t.kind ≠ .endOfInput) :
    Completable ts ∨ Hopeless ts := by
  by_cases hc : Completable ts
  · exact .inl hc
  · refine .inr fun us options d hok => hc ?_
    obtain ⟨rest, haccept⟩ := ofItems_eq_ok_iff.1 hok
    obtain ⟨w, hw, hd, _, hend⟩ := verdict_accept haccept
    rw [List.map_append] at hw
    -- The document ends with the input, which is not among the tokens in question.
    rcases List.append_eq_append_iff.1 hw with ⟨v, rfl, _⟩ | ⟨v, hv, rfl⟩
    · exact completable_of_derives hd
    · cases v with
      | nil =>
        rw [List.append_nil] at hv
        exact completable_of_derives (v := []) (by rwa [List.append_nil, hv])
      | cons x v =>
        have hx : x ∈ ts.map Token.toLexeme := hv ▸ List.mem_append_right w (by simp)
        obtain ⟨t, ht, rfl⟩ := List.mem_map.1 hx
        exact absurd hend (hts t ht)

/-- Nothing has been read yet that could not start a document. -/
theorem completable_nil : Completable [] := by
  obtain ⟨d, v, m, hd⟩ := (Rule.document_keeps (Reader.within_keeps false 0)).viable
  exact completable_of_derives (hd m (Nat.le_refl m)).1

/-- If a lexical fault is reported, the tokens in front of it can be completed
to a document.  There is one exception: the name `null` directly in front of the
fault may stand where a value must; then all tokens but this one can be
completed. -/
theorem completable_or_null_of_fault {options : ParseOptions} {source : String}
    {e : SyntaxError} {f : LexicalError} (he : ofSource options source = .error e)
    (hf : e.cause = .lexical f) :
    ∃ ts : List Token, tokenize source = ts.map .ok ++ [.error f] ∧
      (Completable ts ∨ Hopeless ts ∧
        ∃ us t, ts = us ++ [t] ∧ t.isKeyword .nullLiteral = true ∧ Completable us) := by
  rcases tokenize_cases source with ⟨ws, hws⟩ | ⟨ts, f', hts, hkind⟩
  · -- A text that consists of lexemes has no fault to report.
    obtain ⟨ts, p, hts, _⟩ := tokenize_of_lexes hws
    rw [ofSource, hts] at he
    exact absurd hf (cause_ne_lexical he f)
  · rw [ofSource, hts] at he
    obtain ⟨rfl, hread⟩ := verdict_of_fault he hf
    refine ⟨ts, hts, ?_⟩
    rcases hread with rfl | hbroken
    · exact .inl completable_nil
    · obtain ⟨w, rest, hw, hrest, v, d, hd⟩ := verdict_broken hbroken
      obtain ⟨us, vs, rfl, rfl, rfl⟩ := List.map_eq_append_iff.1 hw
      have hus := completable_of_derives hd
      rcases hrest with hnil | ⟨x, hx, hnull⟩
      · obtain rfl := List.map_eq_nil_iff.1 hnil
        exact .inl (by rwa [List.append_nil])
      · obtain ⟨t, rfl, rfl⟩ := List.map_eq_singleton_iff.1 hx
        exact (completable_or_hopeless hkind).imp_right fun h => ⟨h, us, t, rfl, hnull, hus⟩

/-- The tokens of `{a(b: null`. -/
def nullArgument : List Token :=
  [⟨.ofPunctuator .braceOpen, ⟨0, 0, 0, 0⟩, ⟨1, 0, 1, 1⟩⟩,
    ⟨.ofName "a", ⟨1, 0, 1, 1⟩, ⟨2, 0, 2, 2⟩⟩,
    ⟨.ofPunctuator .parenOpen, ⟨2, 0, 2, 2⟩, ⟨3, 0, 3, 3⟩⟩,
    ⟨.ofName "b", ⟨3, 0, 3, 3⟩, ⟨4, 0, 4, 4⟩⟩,
    ⟨.ofPunctuator .colon, ⟨4, 0, 4, 4⟩, ⟨5, 0, 5, 5⟩⟩,
    ⟨.ofName "null", ⟨6, 0, 6, 6⟩, ⟨10, 0, 10, 10⟩⟩]

/-- The fault of `{a(b: null ?`. -/
def straySign : LexicalError :=
  .of (.unexpectedCharacter '?') ⟨⟨11, 0, 11, 11⟩, ⟨12, 0, 12, 12⟩⟩

theorem tokenize_nullArgument :
    tokenize "\x7ba(b: null ?" = nullArgument.map .ok ++ [.error straySign] := by
  rw [tokenize_eq_firstItems]
  rfl

theorem ofSource_nullArgument :
    ofSource ⟨64⟩ "\x7ba(b: null ?" = .error (.ofLexical straySign) := by
  rw [ofSource, tokenize_nullArgument]
  rfl

theorem not_completable_nullArgument : ¬Completable nullArgument := by
  rintro ⟨us, options, d, _, hok⟩
  obtain ⟨rest, haccept⟩ := ofItems_eq_ok_iff.1 hok
  rw [List.map_append] at haccept
  -- The name `null` is refused as a value, whatever follows it.
  have hrefuse : verdict false 64 ((nullArgument.take 5).map Token.toLexeme ++ [.ofName "null"]) =
      .refuse (.unexpected ["`null` is not a supported value literal"]) [.ofName "null"] := rfl
  exact verdict_ne_accept hrefuse haccept

theorem completable_or_null_of_fault_nullArgument :
    ofSource ⟨64⟩ "\x7ba(b: null ?" = .error (.ofLexical straySign) ∧
      ∃ ts : List Token, tokenize "\x7ba(b: null ?" = ts.map .ok ++ [.error straySign] ∧
        (Completable ts ∨ Hopeless ts ∧
          ∃ us t, ts = us ++ [t] ∧ t.isKeyword .nullLiteral = true ∧ Completable us) :=
  ⟨ofSource_nullArgument, completable_or_null_of_fault ofSource_nullArgument rfl⟩

/-- A name `null` that cannot stand where it stands is passed over in favour of
the fault behind it. -/
theorem fault_hides_null :
    ∃ (ts : List Token) (f : LexicalError), tokenize "\x7ba(b: null ?" = ts.map .ok ++ [.error f] ∧
      ofSource ⟨64⟩ "\x7ba(b: null ?" = .error (.ofLexical f) ∧ ¬Completable ts :=
  ⟨nullArgument, straySign, tokenize_nullArgument, ofSource_nullArgument,
    not_completable_nullArgument⟩

end Document

end GraphQL
