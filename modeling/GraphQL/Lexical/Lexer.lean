/-
Splitting a source text into tokens.

* `Lexer.nextToken` — the next token; at the end this is the end of the input,
  again and again;
* `Lexer.next?` — the next item, until the end of the input or a fault has been
  given out once;
* `Lexer.items`, `tokenize` — everything that is still to come.

Design notes: a lexer keeps the fault it has met and gives it out again from
then on, without moving; it stands behind the text that the fault concerns.
The two ways of asking share one lexer; only `next?` ever ends.
-/
import GraphQL.Lexical.Lexeme
import GraphQL.Lexical.Ignored

namespace GraphQL

/-- What a source of tokens gives out: a token, or why there is none. -/
abbrev Item := Except LexicalError Token

/-- Whether nothing can follow an item. -/
def Item.isLast : Item → Bool
  | .ok t => t.kind == .endOfInput
  | .error _ => true

/-- A source text that is being split into tokens. -/
structure Lexer where
  source : String
  /-- Where the lexer stands. -/
  cursor : Cursor
  /-- The text behind the cursor. -/
  rest : List Char
  /-- The fault that was met. -/
  failure? : Option LexicalError
  /-- Whether `next?` has given out its last item. -/
  finished : Bool

namespace Lexer

/-- A lexer at the start of a text. -/
def new (source : String) : Lexer := ⟨source, .start, source.toList, none, false⟩

/-- Reads the next token. -/
def nextToken (l : Lexer) : Item × Lexer :=
  match l.failure? with
  | some e => (.error e, l)
  | none =>
    let (ignored, text) := splitIgnored false l.rest
    let start := l.cursor.past ignored
    match Scan.lexeme text with
    | .error e =>
      (.error (e.locate start),
        { l with
          cursor := start.past e.consumed
          rest := text.drop e.consumed.length
          failure? := some (e.locate start) })
    | .ok r =>
      (.ok ⟨r.value, start.spanOf r.text⟩, { l with cursor := start.past r.text, rest := r.rest })

/-- Reads the next item, if there is one. -/
def next? (l : Lexer) : Option Item × Lexer :=
  if l.finished then (none, l)
  else
    let (item, l') := l.nextToken
    (some item, { l' with finished := item.isLast })

/-- A bound on the number of items to come. -/
def size (l : Lexer) : Nat := if l.finished then 0 else l.rest.length + 1

theorem nextToken_of_failure {l : Lexer} {e : LexicalError} (h : l.failure? = some e) :
    l.nextToken = (.error e, l) := by
  rw [nextToken, h]

theorem nextToken_of_error {l : Lexer} {e : Misreading} (hl : l.failure? = none)
    (h : Scan.lexeme (splitIgnored false l.rest).2 = .error e) :
    l.nextToken = (.error (e.locate (l.cursor.past (splitIgnored false l.rest).1)),
      { l with
        cursor := (l.cursor.past (splitIgnored false l.rest).1).past e.consumed
        rest := (splitIgnored false l.rest).2.drop e.consumed.length
        failure? := some (e.locate (l.cursor.past (splitIgnored false l.rest).1)) }) := by
  rw [nextToken, hl]
  simp only [h]

theorem nextToken_of_ok {l : Lexer} {r : Reading Lexeme} (hl : l.failure? = none)
    (h : Scan.lexeme (splitIgnored false l.rest).2 = .ok r) :
    l.nextToken = (.ok ⟨r.value, (l.cursor.past (splitIgnored false l.rest).1).spanOf r.text⟩,
      { l with
        cursor := (l.cursor.past (splitIgnored false l.rest).1).past r.text
        rest := r.rest }) := by
  rw [nextToken, hl]
  simp only [h]

/-- A token that does not end the input takes some of the text. -/
theorem length_rest_nextToken_lt {l l' : Lexer} {item : Item} (h : l.nextToken = (item, l'))
    (hi : item.isLast = false) : l'.rest.length < l.rest.length := by
  cases hl : l.failure? with
  | some e =>
    rw [nextToken_of_failure hl] at h
    cases h
    simp [Item.isLast] at hi
  | none =>
    cases hr : Scan.lexeme (splitIgnored false l.rest).2 with
    | error e =>
      rw [nextToken_of_error hl hr] at h
      cases h
      simp [Item.isLast] at hi
    | ok r =>
      rw [nextToken_of_ok hl hr] at h
      cases h
      have hne : (splitIgnored false l.rest).2 ≠ [] := by
        intro hnil
        rw [hnil] at hr
        cases hr
        simp [Item.isLast] at hi
      have hle := length_splitIgnored_le false l.rest
      have hlen := congrArg List.length (Scan.Faithful.lexeme hr)
      have hpos := List.length_pos_iff.2 (Scan.lexeme_ne_nil hne hr)
      rw [List.length_append] at hlen
      dsimp only
      omega

theorem size_next?_lt {l l' : Lexer} {item : Item} (h : l.next? = (some item, l')) :
    l'.size < l.size := by
  unfold next? at h
  split at h
  · simp at h
  · next hf =>
    generalize hn : l.nextToken = n at h
    obtain ⟨item, m⟩ := n
    cases h
    by_cases hi : item.isLast = true
    · simp [size, hf, hi]
    · have := length_rest_nextToken_lt hn (by simpa using hi)
      simpa [size, hf, hi] using this

/-- The items to come. -/
def items (l : Lexer) : List Item :=
  match _h : l.next? with
  | (none, _) => []
  | (some item, l') => item :: l'.items
termination_by l.size
decreasing_by exact size_next?_lt _h

end Lexer

/-- The tokens of a source text, up to and including the end of the input or
the first fault. -/
def tokenize (source : String) : List Item := (Lexer.new source).items

end GraphQL
