/-
What follows a lexeme.

* `Scan.lexeme_followed` — a lexeme is read from its text as well if something
  else follows it that ends it;
* `EndsToo` — what ends every lexeme that the original text behind it ends;
* `Scan.stringBody_followed` — strings end with their closing quote, whatever
  follows it.

Design notes: only names and numbers look at what follows them, and they look
at one character.  So a text that starts like the original ends them, and so
does one that starts with no character of a word.
-/
import GraphQL.Proofs.Lexical.Lexeme

namespace GraphQL

/-- A text that ends every lexeme which `rest` ends: it starts like `rest`, or
it continues no word. -/
def EndsToo (rest rest' : List Char) : Prop :=
  rest'.head? = rest.head? ∨ Stops continuesWord rest'

namespace EndsToo

variable {rest rest' : List Char}

/-- More text in front of both leaves them alike. -/
theorem append_left (h : EndsToo rest rest') (front : List Char) :
    EndsToo (front ++ rest) (front ++ rest') := by
  cases front with
  | nil => exact h
  | cons c front => exact .inl rfl

theorem stops (h : EndsToo rest rest') {p : Char → Bool}
    (hp : ∀ c, continuesWord c = false → p c = false) (hr : Stops p rest) : Stops p rest' := by
  rcases h with hhead | hstops
  · rwa [Stops, hhead]
  · exact hstops.mono hp

theorem numeralEnds (h : EndsToo rest rest') {f e : Bool} (hr : NumeralEnds f e rest) :
    NumeralEnds f e rest' := by
  rcases h with hhead | hstops
  · constructor
    · rw [Stops, hhead]
      exact hr.digit
    · intro he
      rw [Stops, hhead]
      exact hr.mark he
    · intro hf he
      rw [Stops, hhead]
      exact hr.point hf he
  · exact numeralEnds_of_stops hstops f e

end EndsToo

namespace Scan

/-! ### Strings -/

/-- An escape sequence that stands for a character has four digits. -/
theorem length_of_unicodeEscape? {ds : List Char} {c : Char} (h : unicodeEscape? ds = some c) :
    ds.length = 4 := by
  rw [unicodeEscape?.eq_def] at h
  split at h
  · rfl
  · cases h

/-- Where there are four digits, no more are taken. -/
theorem unicodeDigits_append_of_length {cs : List Char} (h : (unicodeDigits cs).length = 4)
    (rest : List Char) : unicodeDigits (unicodeDigits cs ++ rest) = unicodeDigits cs := by
  have htake : (unicodeDigits cs ++ rest).take 4 = unicodeDigits cs := by
    rw [← h]
    exact List.take_left
  have hall : ∀ c ∈ unicodeDigits cs, (c != '"' && !isLineBreak c) = true :=
    List.all_eq_true.1 List.all_takeWhile
  have hspan := (takeWhile_append_of_stops hall (.nil _)).1
  rw [List.append_nil] at hspan
  conv => lhs; rw [unicodeDigits, htake, hspan]

theorem escape_followed {cs : List Char} {r : Reading Char} (h : escape cs = .ok r)
    (rest : List Char) : stringUnit (r.text ++ rest) = .ok ⟨r.value, r.text, rest⟩ := by
  cases cs with
  | nil => cases h
  | cons c cs =>
    rw [escape] at h
    split at h
    · split at h
      · next value hvalue =>
        cases h
        have hdigits := unicodeDigits_append_of_length (length_of_unicodeEscape? hvalue) rest
        show escape ('u' :: (unicodeDigits cs ++ rest)) = _
        rw [escape, if_pos rfl, hdigits, hvalue]
        simp
      · cases h
    · next hu =>
      split at h
      · next value hvalue =>
        cases h
        show escape (c :: rest) = _
        rw [escape, if_neg hu, hvalue]
      · cases h

theorem stringUnit_followed {cs : List Char} {r : Reading Char} (h : stringUnit cs = .ok r)
    (rest : List Char) : stringUnit (r.text ++ rest) = .ok ⟨r.value, r.text, rest⟩ := by
  cases cs with
  | nil => cases h
  | cons c cs =>
    rw [stringUnit] at h
    split at h
    · exact escape_followed h rest
    · next hslash =>
      split at h
      · cases h
      · next hbreak =>
        split at h
        · cases h
        · next hcontrol =>
          cases h
          rw [List.singleton_append, stringUnit, if_neg hslash, if_neg hbreak, if_neg hcontrol]

/-- A string ends with its closing quote, whatever follows it. -/
theorem stringBody_followed {cs : List Char} {r : Reading (List Char)} (h : stringBody cs = .ok r)
    (rest : List Char) : stringBody (r.text ++ rest) = .ok ⟨r.value, r.text, rest⟩ := by
  fun_induction stringBody cs generalizing r with
  | case1 =>
    cases h
    rw [stringBody]
    rfl
  | case2 => cases h
  | case3 => cases h
  | case4 cs hq u hu b hb ih =>
    cases h
    have hfirst : (u.text ++ b.text ++ rest).head? ≠ some '"' := by
      obtain ⟨c, text, htext⟩ := List.exists_cons_of_ne_nil (stringUnit_ne_nil hu)
      have hcs := stringUnit_append hu
      rw [htext] at hcs ⊢
      rw [← hcs] at hq
      exact hq
    have hunit : stringUnit (u.text ++ b.text ++ rest) = .ok ⟨u.value, u.text, b.text ++ rest⟩ := by
      rw [List.append_assoc]
      exact stringUnit_followed hu _
    rw [stringBody_of_unit hfirst hunit]
    simp only [ih hb]

/-! ### Lexemes -/

theorem stringLexeme_followed {cs : List Char} {r : Reading Lexeme} (h : stringLexeme cs = .ok r)
    (rest : List Char) : lexeme (r.text ++ rest) = .ok ⟨r.value, r.text, rest⟩ := by
  rw [stringLexeme] at h
  split at h
  · cases h
  · next b hb =>
    cases h
    show stringLexeme (b.text ++ rest) = _
    rw [stringLexeme, stringBody_followed hb]

theorem name_followed {c : Char} (hc : isNameStart c = true) {cs : List Char} {r : Reading Lexeme}
    (h : name (c :: cs) = .ok r) {rest : List Char} (hr : EndsToo r.rest rest) :
    lexeme (r.text ++ rest) = .ok ⟨r.value, r.text, rest⟩ := by
  cases h
  have hstops := hr.stops (p := isNameContinue) (fun c hc => (Bool.or_eq_false_iff.1 hc).1)
    (stops_dropWhile isNameContinue _)
  have hread := lexeme_ofName (isName_of_isNameStart hc cs) hstops
  rwa [String.toList_ofList] at hread

theorem numberLexeme_followed {cs : List Char} {r : Reading Lexeme} (h : numberLexeme cs = .ok r)
    {rest : List Char} (hr : EndsToo r.rest rest) :
    lexeme (r.text ++ rest) = .ok ⟨r.value, r.text, rest⟩ := by
  rw [numberLexeme] at h
  split at h
  · cases h
  · next n hn =>
    cases h
    obtain ⟨f, e, ht, hv, hends⟩ := numeral_of_number hn
    have hnumeral : Numeral f e (String.ofList n.text).toList := by rwa [String.toList_ofList]
    have hread := lexeme_numeral hnumeral (hr.numeralEnds hends)
    rw [String.toList_ofList] at hread
    rw [hread, hv]

/-- A lexeme is read from its text as well if something else follows it that
ends it. -/
theorem lexeme_followed {cs : List Char} {r : Reading Lexeme} (hcs : cs ≠ [])
    (h : lexeme cs = .ok r) {rest : List Char} (hr : EndsToo r.rest rest) :
    lexeme (r.text ++ rest) = .ok ⟨r.value, r.text, rest⟩ := by
  cases cs with
  | nil => exact absurd rfl hcs
  | cons c cs =>
    rw [lexeme] at h
    split at h
    · next p hp =>
      cases h
      rw [← Punctuator.ofChar?_eq_some_iff.1 hp]
      exact lexeme_punctuator p rest
    · split at h
      · rw [spread] at h
        split at h
        · cases h
          exact lexeme_punctuator .ellipsis rest
        · split at h <;> cases h
      · split at h
        · exact stringLexeme_followed h rest
        · split at h
          · next hc => exact name_followed hc h hr
          · split at h
            · exact numberLexeme_followed h hr
            · split at h <;> cases h

end Scan

end GraphQL
