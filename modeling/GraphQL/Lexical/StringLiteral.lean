/-
String literals.

Between its quotes a string is a sequence of units, each of which stands for
one character: a plain character for itself, or an escape sequence.  A string
ends on the line it starts on.

* `stringUnit` — reads one unit;
* `stringBody` — reads units up to and including the closing quote;
* `stringUnit_append` — a unit is never empty, and no text is lost.
-/
import GraphQL.Lexical.Basic

namespace GraphQL.Scan

/-- Where the specification says how strings are written. -/
def stringNote : Note := .spec "https://spec.graphql.org/October2021/#sec-String-Value"

/-- The string that starts this way is never closed; `before` was read of the
unit at which that shows. -/
def unterminated (before : List Char) : Misreading :=
  ⟨before, [], .unterminatedString, [.help "Add closing `\"`"]⟩

/-- An escape sequence that stands for nothing. -/
def invalidEscape (text : List Char) : Misreading :=
  ⟨[], text, .invalidEscape (String.ofList text), [stringNote]⟩

/-- What a backslash and one more character stand for. -/
def shortEscape? : Char → Option Char
  | '"' => some '"'
  | '\\' => some '\\'
  | '/' => some '/'
  | 'n' => some '\n'
  | 'r' => some '\r'
  | 't' => some '\t'
  | _ => none

/-- What four hexadecimal digits stand for.  Halves of surrogate pairs are no
characters. -/
def unicodeEscape? : List Char → Option Char
  | [a, b, c, d] => do
    let n ← fourHexValue? a b c d
    if 0xD800 ≤ n ∧ n ≤ 0xDFFF then none else some (Char.ofNat n)
  | _ => none

/-- The characters after `\u` that are taken for digits: at most four, and none
beyond the end of the literal or of the line. -/
def unicodeDigits (cs : List Char) : List Char :=
  (cs.take 4).takeWhile fun c => c != '"' && !isLineBreak c

/-- Reads an escape sequence whose backslash stands in front of the given text. -/
def escape : List Char → Except Misreading (Reading Char)
  | [] => .error (unterminated ['\\'])
  | c :: cs =>
    if c = 'u' then
      let text := '\\' :: 'u' :: unicodeDigits cs
      match unicodeEscape? (unicodeDigits cs) with
      | some value => .ok ⟨value, text, cs.drop (unicodeDigits cs).length⟩
      | none => .error (invalidEscape text)
    else
      match shortEscape? c with
      | some value => .ok ⟨value, ['\\', c], cs⟩
      | none => .error (invalidEscape ['\\', c])

/-- Reads one unit of a string. -/
def stringUnit : Scan Char
  | [] => .error (unterminated [])
  | c :: cs =>
    if c = '\\' then escape cs
    else if isLineBreak c then .error (unterminated [])
    else if c < ' ' ∧ c ≠ '\t' then .error ⟨[], [c], .invalidCharacterInString c, []⟩
    else .ok ⟨c, [c], cs⟩

theorem unicodeDigits_append (cs : List Char) :
    unicodeDigits cs ++ cs.drop (unicodeDigits cs).length = cs :=
  List.prefix_iff_eq_append.1 ((List.takeWhile_prefix _).trans (List.take_prefix 4 cs))

theorem escape_append {cs : List Char} {r : Reading Char} (h : escape cs = .ok r) :
    r.text ++ r.rest = '\\' :: cs := by
  cases cs with
  | nil => simp [escape] at h
  | cons c cs =>
    rw [escape] at h
    split at h
    · next hc =>
      subst hc
      split at h
      · cases h
        simp [unicodeDigits_append]
      · simp at h
    · split at h
      · cases h
        rfl
      · simp at h

/-- A unit and what follows it make up the text. -/
theorem stringUnit_append {cs : List Char} {r : Reading Char} (h : stringUnit cs = .ok r) :
    r.text ++ r.rest = cs := by
  cases cs with
  | nil => simp [stringUnit] at h
  | cons c cs =>
    rw [stringUnit] at h
    split at h
    · next hc => exact hc ▸ escape_append h
    · split at h
      · simp at h
      · split at h
        · simp at h
        · cases h
          rfl

theorem escape_ne_nil {cs : List Char} {r : Reading Char} (h : escape cs = .ok r) :
    r.text ≠ [] := by
  cases cs with
  | nil => simp [escape] at h
  | cons c cs =>
    rw [escape] at h
    split at h <;> split at h <;> first | (cases h; simp) | simp at h

/-- A unit is never empty. -/
theorem stringUnit_ne_nil {cs : List Char} {r : Reading Char} (h : stringUnit cs = .ok r) :
    r.text ≠ [] := by
  cases cs with
  | nil => simp [stringUnit] at h
  | cons c cs =>
    rw [stringUnit] at h
    split at h
    · exact escape_ne_nil h
    · split at h
      · simp at h
      · split at h
        · simp at h
        · cases h
          simp

/-- What follows a unit is shorter than what it was read from. -/
theorem length_rest_lt_of_stringUnit {cs : List Char} {r : Reading Char}
    (h : stringUnit cs = .ok r) : r.rest.length < cs.length := by
  have hl := congrArg List.length (stringUnit_append h)
  have hp := List.length_pos_iff.2 (stringUnit_ne_nil h)
  rw [List.length_append] at hl
  omega

/-- Reads the units of a string and its closing quote; the value is what the
units stand for. -/
def stringBody (cs : List Char) : Except Misreading (Reading (List Char)) :=
  if cs.head? = some '"' then .ok ⟨[], ['"'], cs.tail⟩
  else
    match _h : stringUnit cs with
    | .error e => .error e
    | .ok u =>
      match stringBody u.rest with
      | .error e => .error (e.after u.text)
      | .ok r => .ok ⟨u.value :: r.value, u.text ++ r.text, r.rest⟩
termination_by cs.length
decreasing_by exact length_rest_lt_of_stringUnit _h

/-- The body of a string and what follows it make up the text. -/
theorem stringBody_append {cs : List Char} {r : Reading (List Char)}
    (h : stringBody cs = .ok r) : r.text ++ r.rest = cs := by
  fun_induction stringBody cs generalizing r with
  | case1 cs hq =>
    cases h
    cases cs <;> simp_all
  | case2 => simp at h
  | case3 => simp at h
  | case4 cs hq u hu b hb ih =>
    cases h
    rw [List.append_assoc, ih hb, stringUnit_append hu]

end GraphQL.Scan
