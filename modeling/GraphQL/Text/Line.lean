/-
The lines of a text.

LF, CR and the pair CR LF each end a line, so a text always has at least one
line, and a break at the very end is followed by an empty one.

* `lines` — the lines of a text, without their breaks;
* `lines_ne_nil` — there is always a first line.
-/
namespace GraphQL

/-- The characters that end a line. -/
def isLineBreak (c : Char) : Bool := c == '\n' || c == '\r'

theorem isLineBreak_eq_false_iff {c : Char} : isLineBreak c = false ↔ c ≠ '\n' ∧ c ≠ '\r' := by
  simp [isLineBreak]

/-- Puts a character in front of the first line. -/
def consLine (c : Char) : List (List Char) → List (List Char)
  | [] => [[c]]
  | l :: ls => (c :: l) :: ls

/-- The lines of a text, without their breaks. -/
def lines : List Char → List (List Char)
  | [] => [[]]
  | [c] => if isLineBreak c then [[], []] else [[c]]
  | c :: d :: cs =>
    if c = '\r' ∧ d = '\n' then [] :: lines cs
    else if isLineBreak c then [] :: lines (d :: cs)
    else consLine c (lines (d :: cs))

theorem lines_ne_nil : ∀ cs : List Char, lines cs ≠ []
  | [] => by simp [lines]
  | [c] => by rw [lines]; split <;> simp
  | c :: d :: cs => by
    rw [lines]
    split
    · simp
    · split
      · simp
      · cases h : lines (d :: cs) <;> simp [consLine]

end GraphQL
