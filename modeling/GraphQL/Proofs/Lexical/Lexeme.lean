/-
Written lexemes read back.

* `IsName`, `Lexeme.Spellable` — the texts of names, and the lexemes that a
  source text can hold;
* `Lexeme.Stands` — how a lexeme can look in a text;
* `Scan.lexeme_written` — a spellable lexeme is read from its spelling;
* `Scan.stands_of_lexeme`, `Scan.spellable_of_lexeme` — whatever is read looks
  as it should, and is spellable.

Design notes: only names and numbers can run on into what follows them, and
the same characters would continue both of them.
-/
import GraphQL.Lexical.Lexeme
import GraphQL.Lexical.Ignored
import GraphQL.Proofs.Lexical.Number
import GraphQL.Proofs.Lexical.StringLiteral

namespace GraphQL

/-- The text of a name: `[_A-Za-z][_0-9A-Za-z]*`. -/
def IsName (text : String) : Prop :=
  ∃ c cs, text.toList = c :: cs ∧ isNameStart c = true ∧ ∀ d ∈ cs, isNameContinue d = true

theorem isName_iff {text : String} : IsName text ↔
    text.toList.head?.any isNameStart = true ∧ text.toList.tail.all isNameContinue = true := by
  constructor
  · rintro ⟨c, cs, h, hc, hcs⟩
    rw [h]
    exact ⟨hc, List.all_eq_true.2 hcs⟩
  · rintro ⟨hc, hcs⟩
    cases h : text.toList with
    | nil =>
      rw [h] at hc
      cases hc
    | cons c cs =>
      rw [h] at hc hcs
      exact ⟨c, cs, h, hc, List.all_eq_true.1 hcs⟩

instance (text : String) : Decidable (IsName text) := decidable_of_iff _ isName_iff.symm

/-- The text of a number without fraction and exponent. -/
def IsInteger (text : String) : Prop := Numeral false false text.toList

/-- The text of a number with a fraction, an exponent or both. -/
def IsFloat (text : String) : Prop := ∃ f e, Numeral f e text.toList ∧ (f || e) = true

/-- A lexeme that has a spelling of its own: its value is there exactly if its
kind asks for one, and is the text of such a lexeme. -/
inductive Lexeme.Spellable : Lexeme → Prop
  | punctuator (p : Punctuator) : Spellable (.ofPunctuator p)
  | name {text : String} (h : IsName text) : Spellable (.ofName text)
  | int {text : String} (h : IsInteger text) : Spellable ⟨.int, some text⟩
  | float {text : String} (h : IsFloat text) : Spellable ⟨.float, some text⟩
  | string (contents : String) : Spellable ⟨.string, some contents⟩

theorem Lexeme.Spellable.kind_ne {x : Lexeme} (h : x.Spellable) : x.kind ≠ .endOfInput := by
  cases h <;> simp [Lexeme.ofPunctuator, Lexeme.ofName]

/-- How a lexeme can look in a text where `rest` follows it. -/
inductive Lexeme.Stands (rest : List Char) : Lexeme → List Char → Prop
  | punctuator (p : Punctuator) : Stands rest (.ofPunctuator p) p.text.toList
  | name {text : List Char} (h : IsName (String.ofList text)) (hr : Stops isNameContinue rest) :
    Stands rest (.ofName (String.ofList text)) text
  | int {text : List Char} (h : IsInteger (String.ofList text)) :
    Stands rest ⟨.int, some (String.ofList text)⟩ text
  | float {text : List Char} (h : IsFloat (String.ofList text)) :
    Stands rest ⟨.float, some (String.ofList text)⟩ text
  | string {contents : String} {inner : List Char} (h : ∀ c ∈ inner, isLineBreak c = false) :
    Stands rest ⟨.string, some contents⟩ ('"' :: (inner ++ ['"']))

theorem Lexeme.Stands.spellable {x : Lexeme} {text rest : List Char} (h : x.Stands rest text) :
    x.Spellable := by
  cases h with
  | punctuator p => exact .punctuator p
  | name h _ => exact .name h
  | int h => exact .int h
  | float h => exact .float h
  | string _ => exact .string _

/-- Whether a lexeme is a name or number, and so ends where its text does. -/
def Lexeme.isWord (x : Lexeme) : Bool := x.kind == .name || x.kind == .int || x.kind == .float

/-- The characters that could be taken for more of a name or number. -/
def continuesWord (c : Char) : Bool := isNameContinue c || c == '.'

theorem isNameContinue_of_isNameStart {c : Char} (h : isNameStart c = true) :
    isNameContinue c = true := by
  simp only [isNameStart, isNameContinue, Char.isAlphanum, Bool.or_eq_true] at h ⊢
  rcases h with h | h
  · exact .inl h
  · exact .inr (.inl h)

theorem isNameContinue_of_isDigit {c : Char} (h : c.isDigit = true) : isNameContinue c = true := by
  simp [isNameContinue, Char.isAlphanum, h]

/-- Letters and digits lie in ranges of their own. -/
theorem isNameStart_of_isDigit {c : Char} (h : c.isDigit = true) : isNameStart c = false := by
  have hle : c.val ≤ '9'.val := of_decide_eq_true (Bool.and_eq_true_iff.1 h).2
  rw [← Bool.not_eq_true]
  intro hs
  rcases Bool.or_eq_true_iff.1 hs with hs | hs
  · rw [beq_iff_eq.1 hs] at hle
    exact absurd hle (by decide)
  · rcases Bool.or_eq_true_iff.1 hs with hs | hs
    · have hge : 'A'.val ≤ c.val := (of_decide_eq_true hs).1
      exact absurd (UInt32.le_trans hge hle) (by decide)
    · have hge : 'a'.val ≤ c.val := of_decide_eq_true (Bool.and_eq_true_iff.1 hs).1
      exact absurd (UInt32.le_trans hge hle) (by decide)

/-- No punctuator starts like a name or number. -/
theorem Punctuator.ofChar?_eq_none {c : Char} (h : isNameContinue c = true ∨ c = '-') :
    ofChar? c = none := by
  cases hp : ofChar? c with
  | none => rfl
  | some p =>
    have hc := ofChar?_eq_some_iff.1 hp
    cases p <;> simp [text] at hc <;> subst hc <;> exact absurd h (by decide)

theorem Numeral.opens {f e : Bool} {text : List Char} (h : Numeral f e text) :
    ∃ c cs, text = c :: cs ∧ (c = '-' ∨ c.isDigit = true) := by
  obtain ⟨hs, hi, _, _⟩ := h
  rcases hs with rfl | ⟨c, hc, rfl⟩
  · obtain ⟨c, cs, rfl, hc⟩ := hi.opens
    exact ⟨c, _, rfl, .inr hc⟩
  · exact ⟨c, _, rfl, .inl (by simpa using hc)⟩

/-- Where no word goes on, every name ends. -/
theorem stops_isNameContinue {rest : List Char} (h : Stops continuesWord rest) :
    Stops isNameContinue rest :=
  h.mono fun _ hc => (Bool.or_eq_false_iff.1 hc).1

/-- Where no word goes on, every numeral ends. -/
theorem numeralEnds_of_stops {rest : List Char} (h : Stops continuesWord rest) (f e : Bool) :
    NumeralEnds f e rest := by
  have hno {c : Char} (hc : continuesWord c = false) : isNameContinue c = false ∧ c ≠ '.' := by
    simpa [continuesWord] using hc
  refine ⟨h.mono fun c hc => ?_, fun _ => h.mono fun c hc => ?_, fun _ _ => h.mono fun c hc => ?_⟩
  · rw [← Bool.not_eq_true]
    intro hd
    exact absurd (hno hc).1 (by simp [isNameContinue_of_isDigit hd])
  · rw [← Bool.not_eq_true]
    intro hm
    simp only [List.contains_eq_mem, List.mem_cons, List.not_mem_nil, or_false,
      decide_eq_true_eq] at hm
    rcases hm with rfl | rfl <;> exact absurd hc (by decide)
  · simpa using (hno hc).2

namespace Scan

theorem lexeme_name {c : Char} (hc : isNameStart c = true) (cs : List Char) :
    lexeme (c :: cs) = name (c :: cs) := by
  have hcont := isNameContinue_of_isNameStart hc
  have hdot : c ≠ '.' := by
    rintro rfl
    exact absurd hcont (by decide)
  have hquote : c ≠ '"' := by
    rintro rfl
    exact absurd hcont (by decide)
  rw [lexeme, Punctuator.ofChar?_eq_none (.inl hcont)]
  simp only [hdot, hquote, hc, if_true, if_false]

theorem lexeme_number {c : Char} (hc : c = '-' ∨ c.isDigit = true) (cs : List Char) :
    lexeme (c :: cs) = numberLexeme (c :: cs) := by
  have hdot : c ≠ '.' := by
    rintro rfl
    exact absurd hc (by decide)
  have hquote : c ≠ '"' := by
    rintro rfl
    exact absurd hc (by decide)
  have hstart : isNameStart c = false := by
    rcases hc with rfl | hc
    · decide
    · exact isNameStart_of_isDigit hc
  have hnone : Punctuator.ofChar? c = none :=
    Punctuator.ofChar?_eq_none (hc.elim .inr fun hd => .inl (isNameContinue_of_isDigit hd))
  rw [lexeme, hnone]
  simp only [hdot, hquote, hstart, hc, if_true, if_false]
  rfl

/-- The first character of a lexeme is not one of the ignored ones. -/
theorem lexeme_head {c : Char} {cs : List Char} {r : Reading Lexeme}
    (h : lexeme (c :: cs) = .ok r) : c ≠ '#' ∧ isIgnored c = false := by
  have hno {d : Char} (hd : c = d) (he : ∃ e, lexeme (d :: cs) = .error e) : False := by
    obtain ⟨e, he⟩ := he
    rw [hd, he] at h
    cases h
  -- Every ignored character is an error where a lexeme should start.
  refine ⟨fun hc => hno hc ⟨_, rfl⟩, ?_⟩
  rw [← Bool.not_eq_true]
  intro hc
  simp only [isIgnored, isLineBreak, Bool.or_eq_true, beq_iff_eq] at hc
  rcases hc with (((hc | hc) | hc | hc) | hc) | hc <;> exact hno hc ⟨_, rfl⟩

/-! ### Reading what was written -/

theorem lexeme_punctuator (p : Punctuator) (rest : List Char) :
    lexeme (p.text.toList ++ rest) = .ok ⟨.ofPunctuator p, p.text.toList, rest⟩ := by
  cases p <;> rfl

theorem lexeme_ofName {text : String} (h : IsName text) {rest : List Char}
    (hr : Stops isNameContinue rest) :
    lexeme (text.toList ++ rest) = .ok ⟨.ofName text, text.toList, rest⟩ := by
  obtain ⟨c, cs, ht, hc, hcs⟩ := h
  have hall : ∀ d ∈ text.toList, isNameContinue d = true := by
    rw [ht]
    intro d hd
    rcases List.mem_cons.1 hd with rfl | hd
    · exact isNameContinue_of_isNameStart hc
    · exact hcs d hd
  have hspan := takeWhile_append_of_stops hall hr
  have hname : lexeme (text.toList ++ rest) = name (text.toList ++ rest) := by
    rw [ht]
    exact lexeme_name hc (cs ++ rest)
  rw [hname, name, hspan.1, hspan.2, String.ofList_toList]

theorem lexeme_numeral {f e : Bool} {text : String} (h : Numeral f e text.toList)
    {rest : List Char} (hr : NumeralEnds f e rest) :
    lexeme (text.toList ++ rest) =
      .ok ⟨⟨if f || e then .float else .int, some text⟩, text.toList, rest⟩ := by
  have hnumber := number_append h hr
  obtain ⟨c, cs, ht, hc⟩ := h.opens
  have hlexeme : lexeme (text.toList ++ rest) = numberLexeme (text.toList ++ rest) := by
    rw [ht]
    exact lexeme_number hc (cs ++ rest)
  rw [hlexeme, numberLexeme, hnumber]
  simp only [String.ofList_toList]

theorem lexeme_string (contents : String) (rest : List Char) :
    lexeme (writtenString contents ++ rest) =
      .ok ⟨⟨.string, some contents⟩, writtenString contents, rest⟩ := by
  have hbody := stringBody_written contents.toList rest
  have hquote : lexeme (writtenString contents ++ rest) =
      stringLexeme (contents.toList.flatMap writtenChar ++ '"' :: rest) := by
    rw [writtenString, List.cons_append, List.cons_append, List.append_assoc]
    rfl
  rw [hquote, stringLexeme, hbody]
  simp only [String.ofList_toList]
  rfl

/-- A spellable lexeme is read from its spelling, if a word is not followed by
what would continue it. -/
theorem lexeme_written {x : Lexeme} (h : x.Spellable) {rest : List Char}
    (hr : x.isWord = true → Stops continuesWord rest) :
    lexeme (x.written ++ rest) = .ok ⟨x, x.written, rest⟩ := by
  cases h with
  | punctuator p => exact lexeme_punctuator p rest
  | name h => exact lexeme_ofName h (stops_isNameContinue (hr rfl))
  | int h => exact lexeme_numeral h (numeralEnds_of_stops (hr rfl) _ _)
  | float h =>
    obtain ⟨f, e, h, hfe⟩ := h
    have hread := lexeme_numeral h (numeralEnds_of_stops (hr rfl) f e)
    rw [hfe] at hread
    exact hread
  | string contents => exact lexeme_string contents rest

/-! ### What is read -/

theorem stands_of_numberLexeme {cs : List Char} {r : Reading Lexeme}
    (h : numberLexeme cs = .ok r) : r.value.Stands r.rest r.text := by
  rw [numberLexeme] at h
  split at h
  · cases h
  · next r' hn =>
    cases h
    obtain ⟨f, e, ht, hv, _⟩ := numeral_of_number hn
    rw [hv]
    by_cases hfe : (f || e) = true
    · rw [if_pos hfe]
      exact .float ⟨f, e, by rwa [String.toList_ofList], hfe⟩
    · rw [if_neg hfe]
      simp only [Bool.or_eq_true, not_or, Bool.not_eq_true] at hfe
      obtain ⟨rfl, rfl⟩ := hfe
      exact .int (by rwa [IsInteger, String.toList_ofList])

theorem isName_of_isNameStart {c : Char} (hc : isNameStart c = true) (cs : List Char) :
    IsName (String.ofList ((c :: cs).takeWhile isNameContinue)) := by
  rw [List.takeWhile_cons_of_pos (isNameContinue_of_isNameStart hc)]
  exact ⟨c, cs.takeWhile isNameContinue, String.toList_ofList, hc,
    List.all_eq_true.1 List.all_takeWhile⟩

/-- Whatever is read, except at the end of a text, looks as it should. -/
theorem stands_of_lexeme {cs : List Char} {r : Reading Lexeme} (hcs : cs ≠ [])
    (h : lexeme cs = .ok r) : r.value.Stands r.rest r.text := by
  cases cs with
  | nil => exact absurd rfl hcs
  | cons c cs =>
    rw [lexeme] at h
    split at h
    · next p hp =>
      cases h
      rw [← Punctuator.ofChar?_eq_some_iff.1 hp]
      exact .punctuator p
    · split at h
      · rw [spread] at h
        split at h
        · cases h
          exact .punctuator .ellipsis
        · split at h <;> cases h
      · split at h
        · rw [stringLexeme] at h
          split at h
          · cases h
          · next b hb =>
            cases h
            obtain ⟨inner, htext, hinner⟩ := stringBody_text hb
            rw [htext]
            exact .string hinner
        · split at h
          · next hc =>
            cases h
            exact .name (isName_of_isNameStart hc cs) (stops_dropWhile isNameContinue _)
          · split at h
            · exact stands_of_numberLexeme h
            · split at h <;> cases h

/-- Whatever is read, except at the end of a text, is spellable. -/
theorem spellable_of_lexeme {cs : List Char} {r : Reading Lexeme} (hcs : cs ≠ [])
    (h : lexeme cs = .ok r) : r.value.Spellable :=
  (stands_of_lexeme hcs h).spellable

end Scan

end GraphQL
