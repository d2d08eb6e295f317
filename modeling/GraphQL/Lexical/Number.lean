/-
Number literals.

A number is an optional `-`, an integer part without leading zeros, an
optional fraction and an optional exponent.

* `number` — reads a number, and says whether it has a fraction or an exponent;
* `Faithful.number`, `number_ne_nil` — no text is lost, and some is read.

Design notes: there is no going back.  Once a `.` or an exponent mark is read,
digits must follow, and a missing digit is reported in place.
-/
import GraphQL.Lexical.Basic

namespace GraphQL.Scan

/-- Reads as many digits as there are; there must be at least one. -/
def digits : Scan Unit
  | [] => .error ⟨[], [], .missingDigit none, []⟩
  | c :: cs =>
    if c.isDigit then .ok ⟨(), (c :: cs).takeWhile Char.isDigit, (c :: cs).dropWhile Char.isDigit⟩
    else .error ⟨[], [c], .missingDigit (some c), []⟩

/-- Where the specification says how integers are written. -/
def integerNote : Note := .spec "https://spec.graphql.org/October2021/#sec-Int-Value"

/-- Reads nothing, and fails if a digit follows. -/
def noDigit : Scan Unit
  | [] => .ok ⟨(), [], []⟩
  | c :: cs =>
    if c.isDigit then .error ⟨[], [c], .digitAfterZero c, [integerNote]⟩ else .ok ⟨(), [], c :: cs⟩

/-- Reads a single zero, or digits that do not start with one. -/
def integerPart : Scan Unit := do
  if ← optional ['0'] then noDigit else digits

/-- Reads a point and the digits after it, if there is one. -/
def fraction : Scan Bool := do
  if ← optional ['.'] then
    digits
    return true
  else return false

/-- Reads an exponent mark, a sign and digits, if there is such a mark. -/
def exponent : Scan Bool := do
  if ← optional ['e', 'E'] then
    let _ ← optional ['+', '-']
    digits
    return true
  else return false

/-- Reads a number; tells whether it has a fraction or an exponent. -/
def number : Scan Bool := do
  let _ ← optional ['-']
  integerPart
  let fractional ← fraction
  let scaled ← exponent
  return fractional || scaled

theorem Faithful.digits : Faithful digits := by
  intro cs r h
  cases cs with
  | nil => simp [Scan.digits] at h
  | cons c cs =>
    rw [Scan.digits] at h
    split at h
    · cases h
      exact List.takeWhile_append_dropWhile
    · simp at h

theorem Faithful.noDigit : Faithful noDigit := by
  intro cs r h
  cases cs with
  | nil => cases h; rfl
  | cons c cs =>
    rw [Scan.noDigit] at h
    split at h
    · simp at h
    · cases h
      rfl

theorem Faithful.integerPart : Faithful integerPart :=
  .bind (.optional _) fun _ => .ite .noDigit .digits

theorem Faithful.fraction : Faithful fraction :=
  .bind (.optional _) fun _ => .ite (.bind .digits fun _ => .pure _) (.pure _)

theorem Faithful.exponent : Faithful exponent :=
  .bind (.optional _) fun _ =>
    .ite (.bind (.optional _) fun _ => .bind .digits fun _ => .pure _) (.pure _)

theorem Faithful.number : Faithful number :=
  .bind (.optional _) fun _ => .bind .integerPart fun _ =>
    .bind .fraction fun _ => .bind .exponent fun _ => .pure _

theorem digits_ne_nil {cs : List Char} {r : Reading Unit} (h : digits cs = .ok r) :
    r.text ≠ [] := by
  cases cs with
  | nil => simp [digits] at h
  | cons c cs =>
    rw [digits] at h
    split at h
    · next hc =>
      cases h
      simp [hc]
    · simp at h

theorem integerPart_ne_nil {cs : List Char} {r : Reading Unit} (h : integerPart cs = .ok r) :
    r.text ≠ [] := by
  obtain ⟨a, b, ha, hb, rfl⟩ := bind_eq_ok_iff.1 h
  split at hb
  · next hz =>
    cases cs with
    | nil => cases ha; simp at hz
    | cons c cs =>
      rw [optional] at ha
      split at ha <;> cases ha
      · simp
      · simp at hz
  · simp [digits_ne_nil hb]

theorem number_ne_nil {cs : List Char} {r : Reading Bool} (h : number cs = .ok r) :
    r.text ≠ [] := by
  obtain ⟨_, _, _, h', rfl⟩ := bind_eq_ok_iff.1 h
  obtain ⟨_, _, hi, _, rfl⟩ := bind_eq_ok_iff.1 h'
  simp [integerPart_ne_nil hi]

end GraphQL.Scan
