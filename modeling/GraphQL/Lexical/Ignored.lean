/-
Text between lexemes.

Blanks, line breaks, commas, byte order marks and comments separate lexemes
and mean nothing.  A comment runs from `#` to the end of its line.

* `splitIgnored` — the ignored text in front of a lexeme, and the rest;
* `splitIgnored_append` — nothing is lost;
* `splitIgnored_rest` — the rest starts with a character of a lexeme.
-/
import GraphQL.Text.Line

namespace GraphQL

/-- The single characters that mean nothing between lexemes. -/
def isIgnored (c : Char) : Bool :=
  c == ' ' || c == '\t' || isLineBreak c || c == ',' || c == '\uFEFF'

/-- Splits a text behind the ignored text in front of it.  `inComment` says
whether the text starts inside a comment. -/
def splitIgnored (inComment : Bool) : List Char → List Char × List Char
  | [] => ([], [])
  | c :: cs =>
    if inComment then
      let (ignored, rest) := splitIgnored (!isLineBreak c) cs
      (c :: ignored, rest)
    else if c = '#' || isIgnored c then
      let (ignored, rest) := splitIgnored (c == '#') cs
      (c :: ignored, rest)
    else ([], c :: cs)

theorem splitIgnored_append (inComment : Bool) (cs : List Char) :
    (splitIgnored inComment cs).1 ++ (splitIgnored inComment cs).2 = cs := by
  induction cs generalizing inComment with
  | nil => rfl
  | cons c cs ih =>
    unfold splitIgnored
    split
    · simpa using ih _
    · split
      · simpa using ih _
      · rfl

theorem splitIgnored_rest {inComment : Bool} {cs rest : List Char} {c : Char}
    (h : (splitIgnored inComment cs).2 = c :: rest) : c ≠ '#' ∧ isIgnored c = false := by
  induction cs generalizing inComment with
  | nil => simp [splitIgnored] at h
  | cons d cs ih =>
    unfold splitIgnored at h
    split at h
    · exact ih h
    · split at h
      · exact ih h
      · next hd =>
        cases h
        simpa using hd

theorem length_splitIgnored_le (inComment : Bool) (cs : List Char) :
    (splitIgnored inComment cs).2.length ≤ cs.length := by
  conv => rhs; rw [← splitIgnored_append inComment cs]
  simp

end GraphQL
