/-
Where a lexer stands.

* `Lexer.Behind` — a lexer has read a part of its source, and its cursor stands
  behind that part;
* `Lexer.Behind.nextToken` — it does so again after one more token, and the
  token or fault ends where it stands;
* `Lexer.behind_after` — so the positions of a lexer, and of everything it
  gives out, are those of the text read until then.

Design notes: a lexer that has met a fault does not move any more, and gives
the fault out again.  Therefore the part of the source that was read has to be
remembered with the place of the fault.
-/
import GraphQL.Lexical.Ignored
import GraphQL.Lexical.Lexer
import GraphQL.Proofs.Lexical.Fault
import GraphQL.Proofs.Text.Position

namespace GraphQL

/-- Where an item stands. -/
def Item.span : Item → Span
  | .ok t => t.span
  | .error e => e.span

namespace Lexer

/-- The lexer after a number of tokens have been asked for. -/
def after (l : Lexer) : Nat → Lexer
  | 0 => l
  | n + 1 => (l.after n).nextToken.2

/-- A lexer has read the front of a source and stands behind it; a fault that
it has met ends there. -/
structure Behind (l : Lexer) (source : String) (front : List Char) : Prop where
  text : front ++ l.rest = source.toList
  cursor : l.cursor = .behind front
  failure : ∀ e ∈ l.failure?, ∃ before text, front = before ++ text ∧ e.span = .behind before text

variable {l : Lexer} {source : String} {front : List Char}

theorem new_behind (source : String) : (new source).Behind source [] :=
  ⟨rfl, Cursor.behind_nil.symm, by simp [new]⟩

namespace Behind

theorem past (h : l.Behind source front) (text : List Char) :
    l.cursor.past text = .behind (front ++ text) := by
  rw [h.cursor, Cursor.behind_past]

variable {gap text : List Char} (hs : splitIgnored false l.rest = (gap, text))
include hs

theorem append_gap (h : l.Behind source front) : front ++ gap ++ text = source.toList := by
  have hsplit := splitIgnored_append false l.rest
  rw [hs] at hsplit
  rw [List.append_assoc, hsplit, h.text]

/-- Where the next lexeme stands, if it can be read. -/
theorem token (h : l.Behind source front) {r : Reading Lexeme} (hr : Scan.lexeme text = .ok r) :
    (l.cursor.past gap).spanOf r.text = .behind (front ++ gap) r.text ∧
      front ++ gap ++ r.text ++ r.rest = source.toList := by
  refine ⟨by rw [h.past, Cursor.spanOf_behind], ?_⟩
  rw [List.append_assoc _ r.text, Scan.Faithful.lexeme hr, h.append_gap hs]

/-- Where the next fault stands, if there is one. -/
theorem fault (h : l.Behind source front) {e : Misreading} (hr : Scan.lexeme text = .error e) :
    (e.locate (l.cursor.past gap)).span = .behind (front ++ gap ++ e.before) e.text ∧
      front ++ gap ++ e.before ++ e.text ++ text.drop e.consumed.length = source.toList := by
  refine ⟨by rw [Misreading.locate, h.past, Cursor.behind_past, Cursor.spanOf_behind], ?_⟩
  have hconsumed := List.prefix_iff_eq_append.1 (Scan.Contained.lexeme hr)
  calc front ++ gap ++ e.before ++ e.text ++ text.drop e.consumed.length
      = front ++ gap ++ (e.consumed ++ text.drop e.consumed.length) := by
        simp [Misreading.consumed]
    _ = source.toList := by rw [hconsumed, h.append_gap hs]

end Behind

/-- One more token or fault ends where the lexer stands then. -/
theorem Behind.nextToken (h : l.Behind source front) :
    ∃ before text, l.nextToken.1.span = .behind before text ∧
      l.nextToken.2.Behind source (before ++ text) := by
  cases hl : l.failure? with
  | some e =>
    obtain ⟨before, text, hfront, hspan⟩ := h.failure e hl
    rw [nextToken_of_failure hl]
    exact ⟨before, text, hspan, hfront ▸ h⟩
  | none =>
    obtain ⟨gap, text, hs⟩ : ∃ gap text, splitIgnored false l.rest = (gap, text) := ⟨_, _, rfl⟩
    cases hr : Scan.lexeme (splitIgnored false l.rest).2 with
    | error e =>
      rw [nextToken_of_error hl hr, hs]
      rw [hs] at hr
      obtain ⟨hspan, htext⟩ := h.fault hs hr
      refine ⟨_, _, hspan, htext, ?_, ?_⟩
      · show (l.cursor.past gap).past e.consumed = _
        rw [h.past, Cursor.behind_past, Misreading.consumed, List.append_assoc _ e.before]
      · rintro _ ⟨⟩
        exact ⟨_, _, rfl, hspan⟩
    | ok r =>
      rw [nextToken_of_ok hl hr, hs]
      rw [hs] at hr
      obtain ⟨hspan, htext⟩ := h.token hs hr
      refine ⟨_, _, hspan, htext, ?_, ?_⟩
      · show (l.cursor.past gap).past r.text = _
        rw [h.past, Cursor.behind_past]
      · intro e he
        cases hl.symm.trans he

/-- A lexer always stands behind some front of its source. -/
theorem exists_behind_after (source : String) (n : Nat) :
    ∃ front, ((new source).after n).Behind source front := by
  induction n with
  | zero => exact ⟨[], new_behind source⟩
  | succ n ih =>
    obtain ⟨front, h⟩ := ih
    obtain ⟨before, text, _, h⟩ := h.nextToken
    exact ⟨before ++ text, h⟩

/-- However many tokens have been asked for, the cursor stands on a boundary
between characters of the source and its counts are those of the text in front
of it; so are those of the next token or fault, at either end, and its text can
be cut out of the source. -/
theorem behind_after (source : String) (n : Nat) :
    (∃ front, front ++ ((new source).after n).rest = source.toList ∧
      ((new source).after n).cursor.position = .behind front ∧
      (((new source).after n).cursor.afterReturn = true ↔ front.getLast? = some '\r') ∧
      ((new source).after n).cursor.position.byteOffset ≤ source.utf8ByteSize ∧
      String.Pos.Raw.IsValid source ⟨((new source).after n).cursor.position.byteOffset⟩ ∧
      dropBytes? ((new source).after n).cursor.position.byteOffset source.toList =
        some ((new source).after n).rest) ∧
    ∃ before text rest, before ++ text ++ rest = source.toList ∧
      ((new source).after n).nextToken.1.span = ⟨.behind before, .behind (before ++ text)⟩ ∧
      ((new source).after n).nextToken.1.span.slice? source = some (String.ofList text) := by
  obtain ⟨front, h⟩ := exists_behind_after source n
  have hposition : ((new source).after n).cursor.position = .behind front := by
    rw [h.cursor]
    rfl
  have hbytes : ((new source).after n).cursor.position.byteOffset = byteLength front := by
    rw [hposition]
    rfl
  rw [hbytes]
  refine ⟨⟨front, h.text, hposition, ?_, ?_, isValid_byteLength h.text, ?_⟩, ?_⟩
  · simp [h.cursor, Cursor.behind]
  · rw [← byteLength_toList, ← h.text, byteLength_append]
    exact Nat.le_add_right _ _
  · rw [← h.text, dropBytes?_append]
  · obtain ⟨before, text, hspan, h'⟩ := h.nextToken
    refine ⟨before, text, _, h'.text, hspan, ?_⟩
    rw [hspan, Span.slice?_behind h'.text]

end Lexer

end GraphQL
