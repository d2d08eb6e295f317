/-
In front of a lexeme.

* `Lexer.Faces` — after a number of tokens a lexer has met no fault, and a text
  comes next behind ignored text;
* `Lexer.Faces.token`, `Lexer.Faces.fault` — then the next token is what can be
  read from the front of that text, or the next fault is why nothing can.
-/
import GraphQL.Proofs.Lexical.Cursor

namespace GraphQL.Lexer

/-- After `n` tokens the lexer of a source has met no fault, and `text` comes
next once ignored text is skipped. -/
structure Faces (source : String) (n : Nat) (text : List Char) : Prop where
  running : ((new source).after n).failure? = none
  next : (splitIgnored false ((new source).after n).rest).2 = text

namespace Faces

variable {source : String} {n : Nat} {text : List Char} (h : Faces source n text)
include h

/-- What can be read from the text is the next token, which covers what was read. -/
theorem token {r : Reading Lexeme} (hr : Scan.lexeme text = .ok r) :
    ∃ t : Token, ((new source).after n).nextToken.1 = .ok t ∧ t.toLexeme = r.value ∧
      t.span.slice? source = some (String.ofList r.text) ∧
      dropBytes? t.span.start.byteOffset source.toList = some text ∧
      dropBytes? t.span.stop.byteOffset source.toList = some r.rest := by
  obtain ⟨front, hfront⟩ := exists_behind_after source n
  obtain ⟨gap, hs⟩ : ∃ gap, splitIgnored false ((new source).after n).rest = (gap, text) :=
    ⟨_, Prod.ext rfl h.next⟩
  obtain ⟨hspan, htext⟩ := hfront.token hs hr
  have hread : Scan.lexeme (splitIgnored false ((new source).after n).rest).2 = .ok r := by
    rwa [h.next]
  rw [nextToken_of_ok h.running hread, hs]
  refine ⟨_, rfl, rfl, ?_, ?_, ?_⟩
  · rw [hspan, Span.slice?_behind htext]
  · rw [hspan, ← hfront.append_gap hs]
    exact dropBytes?_append _ _
  · rw [hspan, ← htext]
    exact dropBytes?_append _ _

/-- Why nothing can be read from the text is the next fault. -/
theorem fault {e : Misreading} (hr : Scan.lexeme text = .error e) :
    ∃ e' : LexicalError, ((new source).after n).nextToken.1 = .error e' ∧ e'.cause = e.cause := by
  have hread : Scan.lexeme (splitIgnored false ((new source).after n).rest).2 = .error e := by
    rwa [h.next]
  rw [nextToken_of_error h.running hread]
  exact ⟨_, rfl, rfl⟩

end Faces

end GraphQL.Lexer
