/-
Lexical faults, and how pieces of text are read.

* `LexicalError` — why a text cannot be split into lexemes, and where;
* `LexicalCause.message` — the wording of each cause;
* `Scan` — reads a piece from the front of a text, or says why it cannot;
* `Scan.Faithful` — no text is lost, which reading in sequence keeps.

Design notes: scans know nothing of positions.  A `Misreading` says how much
text stands between the start of its lexeme and the fault, and
`Misreading.locate` turns that into a place once the lexeme has one.
-/
import GraphQL.Text.Character
import GraphQL.Report

namespace GraphQL

/-- Why a text cannot be split into lexemes. -/
inductive LexicalCause
  /-- A character that starts no lexeme. -/
  | unexpectedCharacter (c : Char)
  /-- A control character outside of a string. -/
  | invalidCharacter (c : Char)
  /-- A control character inside a string. -/
  | invalidCharacterInString (c : Char)
  /-- An escape sequence that stands for nothing, as written. -/
  | invalidEscape (text : String)
  /-- A line break or the end of the input before the closing quote. -/
  | unterminatedString
  /-- A digit directly after a leading zero. -/
  | digitAfterZero (c : Char)
  /-- No digit where a number needs one; what stands there instead, if anything. -/
  | missingDigit (found : Option Char)
deriving DecidableEq

open Character in
/-- The wording of a cause. -/
def LexicalCause.message : LexicalCause → String
  | unexpectedCharacter c => "unexpected character " ++ describe c
  | invalidCharacter c => "invalid character " ++ describe c
  | invalidCharacterInString c => "invalid character within string: " ++ describe c
  | invalidEscape text => "invalid escape sequence `" ++ text ++ "`"
  | unterminatedString => "unterminated string"
  | digitAfterZero c => "invalid number, unexpected digit after 0: `" ++ c.toString ++ "`"
  | missingDigit found => "invalid number, expected digit but got " ++ describeNext found

/-- A lexical fault of a source text. -/
structure LexicalError where
  cause : LexicalCause
  span : Span
  notes : List Note
deriving DecidableEq

namespace LexicalError

/-- A fault without notes. -/
def of (cause : LexicalCause) (span : Span) : LexicalError := ⟨cause, span, []⟩

/-- The same fault with one more note. -/
def withNote (e : LexicalError) (n : Note) : LexicalError := { e with notes := e.notes ++ [n] }

/-- What to tell about a fault. -/
def report (e : LexicalError) : Report := ⟨e.cause.message, e.span, e.notes⟩

end LexicalError

/-- A piece of text that was read: what it means, how it is written, and what
follows it. -/
structure Reading (α : Type) where
  value : α
  text : List Char
  rest : List Char

/-- A piece of text that could not be read.  The fault concerns `text`, which
stands after `before`; both belong to the same lexeme. -/
structure Misreading where
  before : List Char
  text : List Char
  cause : LexicalCause
  notes : List Note

namespace Misreading

/-- Everything that was read of the lexeme, the text the fault concerns included. -/
def consumed (e : Misreading) : List Char := e.before ++ e.text

/-- The same fault, seen from further left. -/
def after (e : Misreading) (text : List Char) : Misreading :=
  { e with before := text ++ e.before }

/-- The fault of a lexeme that starts at a cursor. -/
def locate (e : Misreading) (k : Cursor) : LexicalError :=
  ⟨e.cause, (k.past e.before).spanOf e.text, e.notes⟩

end Misreading

/-- Reads a piece from the front of a text, or says why it cannot. -/
def Scan (α : Type) : Type := List Char → Except Misreading (Reading α)

namespace Scan

/-- Reads nothing. -/
protected def pure {α : Type} (a : α) : Scan α := fun cs => .ok ⟨a, [], cs⟩

/-- Reads one piece and then another. -/
protected def bind {α β : Type} (s : Scan α) (f : α → Scan β) : Scan β := fun cs =>
  match s cs with
  | .error e => .error e
  | .ok r =>
    match f r.value r.rest with
    | .error e => .error (e.after r.text)
    | .ok r' => .ok ⟨r'.value, r.text ++ r'.text, r'.rest⟩

instance : Monad Scan where
  pure := Scan.pure
  bind := Scan.bind

/-- Reads one of the given characters if the text starts with it. -/
def optional (marks : List Char) : Scan Bool
  | [] => .ok ⟨false, [], []⟩
  | c :: cs => if marks.contains c then .ok ⟨true, [c], cs⟩ else .ok ⟨false, [], c :: cs⟩

theorem bind_eq_ok_iff {α β : Type} {s : Scan α} {f : α → Scan β} {cs : List Char}
    {r : Reading β} :
    (s >>= f) cs = .ok r ↔ ∃ a b, s cs = .ok a ∧ f a.value a.rest = .ok b ∧
      r = ⟨b.value, a.text ++ b.text, b.rest⟩ := by
  show Scan.bind s f cs = .ok r ↔ _
  unfold Scan.bind
  split
  · simp [*]
  · next a ha =>
    split
    · next hb => simp [ha, hb]
    · next b hb => simp [ha, hb, eq_comm]

@[simp] theorem pure_eq_ok_iff {α : Type} {a : α} {cs : List Char} {r : Reading α} :
    (pure a : Scan α) cs = .ok r ↔ r = ⟨a, [], cs⟩ := by
  show Scan.pure a cs = .ok r ↔ _
  simp [Scan.pure, eq_comm]

/-- A scan is faithful if what it reads and what follows make up the text. -/
def Faithful {α : Type} (s : Scan α) : Prop :=
  ∀ ⦃cs r⦄, s cs = .ok r → r.text ++ r.rest = cs

theorem Faithful.pure {α : Type} (a : α) : Faithful (Pure.pure a : Scan α) := by
  intro cs r h
  simp [pure_eq_ok_iff.1 h]

theorem Faithful.bind {α β : Type} {s : Scan α} {f : α → Scan β} (hs : Faithful s)
    (hf : ∀ a, Faithful (f a)) : Faithful (s >>= f) := by
  intro cs r h
  obtain ⟨a, b, ha, hb, rfl⟩ := bind_eq_ok_iff.1 h
  rw [List.append_assoc, hf _ hb, hs ha]

theorem Faithful.ite {α : Type} {p : Prop} [Decidable p] {s t : Scan α} (hs : Faithful s)
    (ht : Faithful t) : Faithful (if p then s else t) := by
  split <;> assumption

theorem Faithful.optional (marks : List Char) : Faithful (optional marks) := by
  intro cs r h
  cases cs with
  | nil => cases h; rfl
  | cons c cs =>
    rw [Scan.optional] at h
    split at h <;> cases h <;> rfl

end Scan

end GraphQL
