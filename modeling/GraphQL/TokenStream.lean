/-
Token streams.

A `TokenStream` shows one token ahead of a source of items.

* `TokenStream.advance` — fetches the next token and gives back the one that
  was shown;
* `TokenStream.size` — a bound on the tokens that can still be taken.

Design notes: a fresh stream shows the end of the input at the very beginning,
until it is advanced once.  A source that runs dry without an end of the input
gets one, placed behind the last token shown.  A fault of the source is passed
on and leaves the shown token in place.
-/
import GraphQL.Lexical.Lexer

namespace GraphQL

/-- A source of items, with one token in view. -/
structure TokenStream where
  /-- The token in view. -/
  current : Token
  /-- What the source still holds. -/
  rest : List Item
  /-- How many times the source was asked for an item. -/
  pulls : Nat

namespace TokenStream

/-- A stream that has not asked its source for anything yet. -/
def new (items : List Item) : TokenStream := ⟨.endAt .zero, items, 0⟩

/-- Whether the token in view is the end of the input. -/
def atEnd (s : TokenStream) : Bool := s.current.kind == .endOfInput

/-- Fetches the next token and gives back the one that was in view. -/
def advance (s : TokenStream) : Item × TokenStream :=
  match s.rest with
  | [] => (.ok s.current, ⟨.endAt s.current.span.stop, [], s.pulls + 1⟩)
  | .error e :: rest => (.error e, ⟨s.current, rest, s.pulls + 1⟩)
  | .ok t :: rest => (.ok s.current, ⟨t, rest, s.pulls + 1⟩)

/-- How many tokens can be taken before the end of the input, at most. -/
def size (s : TokenStream) : Nat := if s.atEnd then 0 else s.rest.length + 1

theorem size_eq (s : TokenStream) (hs : s.atEnd = false) : s.size = s.rest.length + 1 := by
  simp [size, hs]

theorem size_le (s : TokenStream) : s.size ≤ s.rest.length + 1 := by
  unfold size
  split <;> omega

/-- Advancing past a token other than the end of the input uses up the stream,
unless the source gives out a fault. -/
theorem size_advance_lt {s s' : TokenStream} {t : Token} (hs : s.atEnd = false)
    (h : s.advance = (.ok t, s')) : s'.size < s.size := by
  rw [size_eq s hs]
  unfold advance at h
  split at h
  · cases h
    simp [size, atEnd, Token.endAt]
  · simp at h
  · next hr =>
    cases h
    rw [hr, List.length_cons]
    exact Nat.lt_succ_of_le (size_le _)

end TokenStream

end GraphQL
