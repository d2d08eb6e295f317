/-
Reading one lexeme.

* `Scan.lexeme` — reads the lexeme that a text starts with;
* `Scan.Faithful.lexeme` — a lexeme and what follows it make up the text;
* `Scan.lexeme_ne_nil` — only the end of the input is without text.

Design notes: the first character decides what a lexeme is.  The text is taken
to start with a character that is not ignored, so that one which starts no
lexeme is a fault.
-/
import GraphQL.Lexeme
import GraphQL.Lexical.Number
import GraphQL.Lexical.StringLiteral

namespace GraphQL

/-- The characters that start a name. -/
def isNameStart (c : Char) : Bool := c == '_' || c.isAlpha

/-- The characters that continue a name. -/
def isNameContinue (c : Char) : Bool := c == '_' || c.isAlphanum

namespace Scan

/-- Reads the longest name that the text starts with. -/
def name : Scan Lexeme := fun cs =>
  let text := cs.takeWhile isNameContinue
  .ok ⟨.ofName (String.ofList text), text, cs.dropWhile isNameContinue⟩

/-- Reads the spread operator.  Fewer than three dots are a fault. -/
def spread : Scan Lexeme := fun cs =>
  if ['.', '.', '.'] <+: cs then .ok ⟨.ofPunctuator .ellipsis, ['.', '.', '.'], cs.drop 3⟩
  else if ['.', '.'] <+: cs then
    .error ⟨[], ['.', '.'], .unexpectedCharacter '.',
      [.help "Add one more `.` to form the spread operator `...`"]⟩
  else .error ⟨[], ['.'], .unexpectedCharacter '.', []⟩

/-- Reads a number as a lexeme; its value is its text. -/
def numberLexeme : Scan Lexeme := fun cs =>
  match number cs with
  | .error e => .error e
  | .ok r => .ok { r with value := ⟨if r.value then .float else .int, some (String.ofList r.text)⟩ }

/-- Reads a string as a lexeme, given the text after its opening quote. -/
def stringLexeme (cs : List Char) : Except Misreading (Reading Lexeme) :=
  match stringBody cs with
  | .error e => .error (e.after ['"'])
  | .ok r => .ok ⟨⟨.string, some (String.ofList r.value)⟩, '"' :: r.text, r.rest⟩

/-- Reads the lexeme that a text starts with.  At the end of the text this is
the end of the input, which is written with nothing. -/
def lexeme : Scan Lexeme
  | [] => .ok ⟨⟨.endOfInput, none⟩, [], []⟩
  | c :: cs =>
    match Punctuator.ofChar? c with
    | some p => .ok ⟨.ofPunctuator p, [c], cs⟩
    | none =>
      if c = '.' then spread (c :: cs)
      else if c = '"' then stringLexeme cs
      else if isNameStart c then name (c :: cs)
      else if c = '-' ∨ c.isDigit then numberLexeme (c :: cs)
      else if c < ' ' then .error ⟨[], [c], .invalidCharacter c, []⟩
      else .error ⟨[], [c], .unexpectedCharacter c, []⟩

theorem Faithful.name : Faithful name := by
  intro cs r h
  cases h
  exact List.takeWhile_append_dropWhile

theorem Faithful.spread : Faithful spread := by
  intro cs r h
  unfold Scan.spread at h
  split at h
  · next hp =>
    cases h
    exact List.prefix_iff_eq_append.1 hp
  · split at h <;> simp at h

theorem Faithful.numberLexeme : Faithful numberLexeme := by
  intro cs r h
  unfold Scan.numberLexeme at h
  split at h
  · simp at h
  · next hn =>
    cases h
    exact Faithful.number hn

theorem stringLexeme_append {cs : List Char} {r : Reading Lexeme}
    (h : stringLexeme cs = .ok r) : r.text ++ r.rest = '"' :: cs := by
  unfold stringLexeme at h
  split at h
  · simp at h
  · next hb =>
    cases h
    simp [stringBody_append hb]

/-- A lexeme and what follows it make up the text. -/
theorem Faithful.lexeme : Faithful lexeme := by
  intro cs r h
  cases cs with
  | nil => cases h; rfl
  | cons c cs =>
    rw [Scan.lexeme] at h
    split at h
    · cases h
      rfl
    · split at h
      · exact Faithful.spread h
      · split at h
        · next hq => exact hq ▸ stringLexeme_append h
        · split at h
          · exact Faithful.name h
          · split at h
            · exact Faithful.numberLexeme h
            · split at h <;> simp at h

theorem spread_ne_nil {cs : List Char} {r : Reading Lexeme} (h : spread cs = .ok r) :
    r.text ≠ [] := by
  unfold spread at h
  split at h
  · cases h
    simp
  · split at h <;> simp at h

theorem numberLexeme_ne_nil {cs : List Char} {r : Reading Lexeme}
    (h : numberLexeme cs = .ok r) : r.text ≠ [] := by
  unfold numberLexeme at h
  split at h
  · simp at h
  · next hn =>
    cases h
    exact number_ne_nil hn

theorem stringLexeme_ne_nil {cs : List Char} {r : Reading Lexeme}
    (h : stringLexeme cs = .ok r) : r.text ≠ [] := by
  unfold stringLexeme at h
  split at h
  · simp at h
  · cases h
    simp

/-- Only the end of the input is a lexeme without text. -/
theorem lexeme_ne_nil {cs : List Char} {r : Reading Lexeme} (hcs : cs ≠ [])
    (h : lexeme cs = .ok r) : r.text ≠ [] := by
  cases cs with
  | nil => exact absurd rfl hcs
  | cons c cs =>
    rw [lexeme] at h
    split at h
    · cases h
      simp
    · split at h
      · exact spread_ne_nil h
      · split at h
        · exact stringLexeme_ne_nil h
        · split at h
          · next hs =>
            cases h
            have : isNameContinue c = true := by
              simp [isNameStart, isNameContinue, Char.isAlphanum] at hs ⊢
              grind
            simp [this]
          · split at h
            · exact numberLexeme_ne_nil h
            · split at h <;> simp at h

end Scan

end GraphQL
