/-
Positions in a source text.

A `Position` says how much of a text stands before it, in four units: code
points, lines, code points of the current line, and UTF-8 bytes.  A `Cursor`
is a position that knows how to move on:

* `Cursor.advance` — the position after one more character;
* `Cursor.past` — the position after a whole piece of text;
* `Span.slice?` — the text between two positions, found by byte offsets.

Design notes: LF, CR and the pair CR LF each end one line.  The line ends at
the CR; an LF directly after it belongs to the same break, so the cursor
remembers whether the last character was a CR.
-/
namespace GraphQL

/-- A place between two characters of a text.  Every count starts at zero. -/
structure Position where
  /-- Code points before this place. -/
  offset : Nat
  /-- Line breaks before this place. -/
  line : Nat
  /-- Code points since the last line break. -/
  column : Nat
  /-- UTF-8 bytes before this place. -/
  byteOffset : Nat
deriving DecidableEq, Inhabited

/-- The place before the first character. -/
def Position.zero : Position := ⟨0, 0, 0, 0⟩

/-- The text between two places. -/
structure Span where
  /-- The place before the first character of the span. -/
  start : Position
  /-- The place after the last character of the span. -/
  stop : Position
deriving DecidableEq, Inhabited

namespace Span

/-- The span without characters at a place. -/
def emptyAt (p : Position) : Span := ⟨p, p⟩

/-- How many code points a span covers. -/
def length (s : Span) : Nat := s.stop.offset - s.start.offset

/-- Whether a span covers nothing. -/
def isEmpty (s : Span) : Bool := s.length == 0

end Span

/-- What is left of a text after its first `n` bytes, unless that cut falls
inside a character or behind the end. -/
def dropBytes? : Nat → List Char → Option (List Char)
  | 0, cs => some cs
  | _ + 1, [] => none
  | n + 1, c :: cs => if c.utf8Size ≤ n + 1 then dropBytes? (n + 1 - c.utf8Size) cs else none
termination_by structural _ cs => cs

/-- The first `n` bytes of a text, unless that cut falls inside a character or
behind the end. -/
def takeBytes? : Nat → List Char → Option (List Char)
  | 0, _ => some []
  | _ + 1, [] => none
  | n + 1, c :: cs =>
    if c.utf8Size ≤ n + 1 then (takeBytes? (n + 1 - c.utf8Size) cs).map (c :: ·) else none
termination_by structural _ cs => cs

/-- The text that a span covers; `none` if the span does not fit the source. -/
def Span.slice? (s : Span) (source : String) : Option String :=
  if s.start.byteOffset ≤ s.stop.byteOffset then do
    let rest ← dropBytes? s.start.byteOffset source.toList
    let text ← takeBytes? (s.stop.byteOffset - s.start.byteOffset) rest
    return String.ofList text
  else none

/-- A place that moves through a text from left to right. -/
structure Cursor where
  /-- Where the cursor stands. -/
  position : Position
  /-- Whether the character before the cursor is a carriage return. -/
  afterReturn : Bool
deriving DecidableEq, Inhabited

namespace Cursor

/-- The cursor before the first character. -/
def start : Cursor := ⟨.zero, false⟩

/-- Moves over one character. -/
def advance (k : Cursor) (c : Char) : Cursor :=
  let offset := k.position.offset + 1
  let byteOffset := k.position.byteOffset + c.utf8Size
  let sameLine : Position := ⟨offset, k.position.line, k.position.column, byteOffset⟩
  let newLine : Position := ⟨offset, k.position.line + 1, 0, byteOffset⟩
  if c = '\r' then ⟨newLine, true⟩
  else if c = '\n' then ⟨if k.afterReturn then sameLine else newLine, false⟩
  else ⟨{ sameLine with column := k.position.column + 1 }, false⟩

/-- Moves over a piece of text. -/
def past (k : Cursor) (text : List Char) : Cursor := text.foldl advance k

@[simp] theorem past_nil (k : Cursor) : k.past [] = k := rfl

@[simp] theorem past_cons (k : Cursor) (c : Char) (cs : List Char) :
    k.past (c :: cs) = (k.advance c).past cs := rfl

@[simp] theorem past_append (k : Cursor) (as bs : List Char) :
    k.past (as ++ bs) = (k.past as).past bs := by
  simp [past]

/-- The span of a piece of text that starts at the cursor. -/
def spanOf (k : Cursor) (text : List Char) : Span := ⟨k.position, (k.past text).position⟩

end Cursor

end GraphQL
