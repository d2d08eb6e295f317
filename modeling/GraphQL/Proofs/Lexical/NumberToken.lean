/-
Numbers as tokens, and where they break off.

* `NumeralAt` — a text starts with a numeral that ends there;
* `NumberFault` — what is wrong with a text that should start with a number: a
  digit behind a leading zero, or none where digits are due;
* `Scan.number_failsWith_iff` — reading a number fails for just this reason;
* `Lexer.nextToken_number` — where a number has to start, the lexer gives out
  the numeral that stands there, or says what is wrong.

Design notes: digits are due behind a sign, a point and an exponent mark with
its sign.  A mark that can be read is never left to what follows it, so a sign
that is missing is one that does not come next.
-/
import GraphQL.Proofs.Lexical.Facing
import GraphQL.Proofs.Lexical.Lexeme

namespace GraphQL

/-- A text starts with a numeral that what follows cannot continue. -/
def NumeralAt (text : List Char) (f e : Bool) (number : List Char) : Prop :=
  ∃ rest, text = number ++ rest ∧ Numeral f e number ∧ NumeralEnds f e rest

/-- The beginnings of a number behind which digits are due; `rest` follows. -/
inductive DigitsDue (rest : List Char) : List Char → Prop
  | integer : DigitsDue rest ['-']
  | fraction {number : List Char} (h : Numeral false false number) :
    DigitsDue rest (number ++ ['.'])
  | exponent {f : Bool} {number : List Char} {mark : Char} (h : Numeral f false number)
    (hm : mark ∈ ['e', 'E']) (hs : Stops ['+', '-'].contains rest) :
    DigitsDue rest (number ++ [mark])
  | signedExponent {f : Bool} {number : List Char} {mark sign : Char} (h : Numeral f false number)
    (hm : mark ∈ ['e', 'E']) (hs : sign ∈ ['+', '-']) : DigitsDue rest (number ++ [mark, sign])

/-- What is wrong with a text that should start with a number. -/
inductive NumberFault : List Char → LexicalCause → Prop
  | digitAfterZero {sign rest : List Char} {d : Char} (hs : sign = [] ∨ sign = ['-'])
    (hd : d.isDigit = true) : NumberFault (sign ++ '0' :: d :: rest) (.digitAfterZero d)
  | missingDigit {before rest : List Char} (h : DigitsDue rest before)
    (hr : Stops Char.isDigit rest) : NumberFault (before ++ rest) (.missingDigit rest.head?)

namespace Scan

/-! ### Why a scan fails -/

/-- A scan fails on a text for the given reason. -/
def FailsWith {α : Type} (s : Scan α) (cs : List Char) (cause : LexicalCause) : Prop :=
  ∃ e, s cs = .error e ∧ e.cause = cause

theorem bind_failsWith_iff {α β : Type} {s : Scan α} {f : α → Scan β} {cs : List Char}
    {cause : LexicalCause} :
    (s >>= f).FailsWith cs cause ↔
      s.FailsWith cs cause ∨ ∃ a, s cs = .ok a ∧ (f a.value).FailsWith a.rest cause := by
  constructor
  · rintro ⟨e, he, rfl⟩
    rcases bind_eq_error_iff.1 he with he | ⟨a, e', ha, he', rfl⟩
    · exact .inl ⟨e, he, rfl⟩
    · exact .inr ⟨a, ha, e', he', rfl⟩
  · rintro (⟨e, he, rfl⟩ | ⟨a, ha, e, he, rfl⟩)
    · exact ⟨e, bind_eq_error_iff.2 (.inl he), rfl⟩
    · exact ⟨e.after a.text, bind_eq_error_iff.2 (.inr ⟨a, e, ha, he, rfl⟩), rfl⟩

variable {cs : List Char} {cause : LexicalCause}

theorem not_optional_failsWith (marks : List Char) : ¬ (optional marks).FailsWith cs cause := by
  rintro ⟨e, he, -⟩
  cases cs with
  | nil => cases he
  | cons c cs =>
    rw [optional] at he
    split at he <;> cases he

/-- Behind a mark that may be missing, the scan that follows fails. -/
theorem optional_bind_failsWith_iff {marks : List Char} {α : Type} {f : Bool → Scan α} :
    (optional marks >>= f).FailsWith cs cause ↔
      (∃ c ∈ marks, ∃ rest, cs = c :: rest ∧ (f true).FailsWith rest cause) ∨
        (Stops marks.contains cs ∧ (f false).FailsWith cs cause) := by
  refine bind_failsWith_iff.trans ⟨?_, ?_⟩
  · rintro (h | ⟨⟨v, t, u⟩, ha, h⟩)
    · exact absurd h (not_optional_failsWith marks)
    · rcases optional_eq_ok_iff.1 ha with ⟨rfl, c, hc, -, rfl⟩ | ⟨rfl, -, rfl, hz⟩
      · exact .inl ⟨c, hc, u, rfl, h⟩
      · exact .inr ⟨hz, h⟩
  · rintro (⟨c, hc, rest, rfl, h⟩ | ⟨hz, h⟩)
    · exact .inr ⟨_, optional_present hc rest, h⟩
    · exact .inr ⟨_, optional_absent hz, h⟩

theorem not_pure_failsWith {α : Type} (a : α) : ¬ (pure a : Scan α).FailsWith cs cause := by
  rintro ⟨e, he, -⟩
  cases he

/-! ### Numbers -/

theorem digits_failsWith_iff :
    digits.FailsWith cs cause ↔ Stops Char.isDigit cs ∧ cause = .missingDigit cs.head? := by
  constructor
  · rintro ⟨e, he, rfl⟩
    cases cs with
    | nil =>
      cases he
      exact ⟨.nil _, rfl⟩
    | cons c cs =>
      rw [digits] at he
      split at he
      · cases he
      · next hc =>
        cases he
        exact ⟨stops_cons_iff.2 (by simpa using hc), rfl⟩
  · rintro ⟨hstops, rfl⟩
    cases cs with
    | nil => exact ⟨_, rfl, rfl⟩
    | cons c cs =>
      have hc := stops_cons_iff.1 hstops
      exact ⟨_, by rw [digits, hc]; rfl, rfl⟩

theorem noDigit_failsWith_iff :
    noDigit.FailsWith cs cause ↔
      ∃ d rest, cs = d :: rest ∧ d.isDigit = true ∧ cause = .digitAfterZero d := by
  constructor
  · rintro ⟨e, he, rfl⟩
    cases cs with
    | nil => cases he
    | cons c cs =>
      rw [noDigit] at he
      split at he
      · next hc =>
        cases he
        exact ⟨c, cs, rfl, hc, rfl⟩
      · cases he
  · rintro ⟨d, rest, rfl, hd, rfl⟩
    exact ⟨_, by rw [noDigit, if_pos hd], rfl⟩

theorem integerPart_failsWith_iff :
    integerPart.FailsWith cs cause ↔
      (∃ d rest, cs = '0' :: d :: rest ∧ d.isDigit = true ∧ cause = .digitAfterZero d) ∨
        (Stops Char.isDigit cs ∧ cause = .missingDigit cs.head?) := by
  refine optional_bind_failsWith_iff.trans ?_
  simp only [List.mem_singleton, exists_eq_left, if_true, Bool.false_eq_true, if_false,
    noDigit_failsWith_iff, digits_failsWith_iff]
  constructor
  · rintro (⟨rest, rfl, d, rest', rfl, hd, rfl⟩ | ⟨-, h⟩)
    · exact .inl ⟨d, rest', rfl, hd, rfl⟩
    · exact .inr h
  · rintro (⟨d, rest, rfl, hd, rfl⟩ | h)
    · exact .inl ⟨_, rfl, d, rest, rfl, hd, rfl⟩
    · -- Where no digit stands, no zero stands either.
      refine .inr ⟨h.1.mono fun c hc => ?_, h⟩
      rw [← Bool.not_eq_true] at hc ⊢
      intro hz
      obtain rfl : c = '0' := by simpa using hz
      exact hc (by decide)

theorem fraction_failsWith_iff :
    fraction.FailsWith cs cause ↔
      ∃ rest, cs = '.' :: rest ∧ Stops Char.isDigit rest ∧ cause = .missingDigit rest.head? := by
  refine optional_bind_failsWith_iff.trans ?_
  simp [bind_failsWith_iff, not_pure_failsWith, digits_failsWith_iff]

theorem exponent_failsWith_iff :
    exponent.FailsWith cs cause ↔
      ∃ mark ∈ ['e', 'E'], ∃ sign rest, cs = mark :: (sign ++ rest) ∧
        ((sign = [] ∧ Stops ['+', '-'].contains rest) ∨ ∃ c ∈ ['+', '-'], sign = [c]) ∧
        Stops Char.isDigit rest ∧ cause = .missingDigit rest.head? := by
  have hdigits {rest : List Char} :
      (digits >>= fun _ => pure true : Scan Bool).FailsWith rest cause ↔
        Stops Char.isDigit rest ∧ cause = .missingDigit rest.head? := by
    simp [bind_failsWith_iff, not_pure_failsWith, digits_failsWith_iff]
  refine optional_bind_failsWith_iff.trans ⟨?_, ?_⟩
  · rintro (⟨mark, hm, u, rfl, hu⟩ | ⟨-, h⟩)
    · rw [if_pos rfl] at hu
      rcases optional_bind_failsWith_iff.1 hu with ⟨c, hc, rest, rfl, h⟩ | ⟨hs, h⟩
      · exact ⟨mark, hm, [c], rest, rfl, .inr ⟨c, hc, rfl⟩, hdigits.1 h⟩
      · exact ⟨mark, hm, [], u, rfl, .inl ⟨rfl, hs⟩, hdigits.1 h⟩
    · exact absurd h (not_pure_failsWith false)
  · rintro ⟨mark, hm, sign, rest, rfl, ⟨rfl, hs⟩ | ⟨c, hc, rfl⟩, h⟩
    · exact .inl ⟨mark, hm, rest, rfl, optional_bind_failsWith_iff.2 (.inr ⟨hs, hdigits.2 h⟩)⟩
    · refine .inl ⟨mark, hm, c :: rest, rfl, optional_bind_failsWith_iff.2 ?_⟩
      exact .inl ⟨c, hc, rest, rfl, hdigits.2 h⟩

/-- A number without sign fails in its integer part, in its fraction or in its exponent. -/
def UnsignedFails (u : List Char) (cause : LexicalCause) : Prop :=
  integerPart.FailsWith u cause ∨ ∃ i v, u = i ++ v ∧ IntegerPart i ∧ Stops Char.isDigit v ∧
    (fraction.FailsWith v cause ∨ ∃ f fs w, v = fs ++ w ∧ FractionPart f fs ∧
      (f = true → Stops Char.isDigit w) ∧ (f = false → Stops ['.'].contains w) ∧
        exponent.FailsWith w cause)

theorem number_failsWith_iff_unsigned :
    number.FailsWith cs cause ↔
      (∃ rest, cs = '-' :: rest ∧ UnsignedFails rest cause) ∨
        (Stops ['-'].contains cs ∧ UnsignedFails cs cause) := by
  have hunsigned {u : List Char} : (do
      integerPart
      let fractional ← fraction
      let scaled ← exponent
      return fractional || scaled : Scan Bool).FailsWith u cause ↔ UnsignedFails u cause := by
    refine bind_failsWith_iff.trans (or_congr_right ⟨?_, ?_⟩)
    · rintro ⟨⟨_, i, v⟩, hir, hv⟩
      obtain ⟨hi, hiv, rfl⟩ := integerPart_eq_ok_iff.1 hir
      refine ⟨i, v, rfl, hi, hiv, ?_⟩
      rcases bind_failsWith_iff.1 hv with h | ⟨⟨f, fs, w⟩, hfr, hw⟩
      · exact .inl h
      · obtain ⟨hf, rfl, hd, hp⟩ := fraction_eq_ok_iff.1 hfr
        rcases bind_failsWith_iff.1 hw with h | ⟨_, -, h⟩
        · exact .inr ⟨f, fs, w, rfl, hf, hd, hp, h⟩
        · exact absurd h (not_pure_failsWith _)
    · rintro ⟨i, v, rfl, hi, hv, h⟩
      refine ⟨⟨(), i, v⟩, integerPart_eq_ok_iff.2 ⟨hi, hv, rfl⟩, bind_failsWith_iff.2 ?_⟩
      rcases h with h | ⟨f, fs, w, rfl, hf, hd, hp, h⟩
      · exact .inl h
      · exact .inr ⟨⟨f, fs, w⟩, fraction_eq_ok_iff.2 ⟨hf, rfl, hd, hp⟩,
          bind_failsWith_iff.2 (.inl h)⟩
  refine optional_bind_failsWith_iff.trans ?_
  simp only [List.mem_singleton, exists_eq_left, hunsigned]

/-- A number fails behind its sign as it does without one. -/
theorem number_failsWith_of_unsigned {sign u : List Char} (hs : sign = [] ∨ sign = ['-'])
    (hu : Stops ['-'].contains u) (h : UnsignedFails u cause) :
    number.FailsWith (sign ++ u) cause := by
  rw [number_failsWith_iff_unsigned]
  rcases hs with rfl | rfl
  · exact .inr ⟨hu, h⟩
  · exact .inl ⟨u, rfl, h⟩

/-- Where a number without sign fails, a digit stands behind a zero or none where
digits are due. -/
theorem UnsignedFails.fault {u sign : List Char} (h : UnsignedFails u cause)
    (hs : sign = [] ∨ sign = ['-']) :
    (Stops Char.isDigit u ∧ cause = .missingDigit u.head?) ∨ NumberFault (sign ++ u) cause := by
  have hsign : sign = [] ∨ ∃ c ∈ ['-'], sign = [c] := hs.imp_right fun h => ⟨'-', by simp, h⟩
  rcases h with h | ⟨i, v, rfl, hi, hv, h | ⟨f, fs, w, rfl, hf, hd, hp, h⟩⟩
  · rcases integerPart_failsWith_iff.1 h with ⟨d, rest, rfl, hdigit, rfl⟩ | h
    · exact .inr (.digitAfterZero hs hdigit)
    · exact .inl h
  · obtain ⟨rest, rfl, hr, rfl⟩ := fraction_failsWith_iff.1 h
    have hnumeral := Numeral.intro hsign hi .none .none
    exact .inr (by simpa using NumberFault.missingDigit (.fraction hnumeral) hr)
  · obtain ⟨mark, hm, s, rest, rfl, hsm, hr, rfl⟩ := exponent_failsWith_iff.1 h
    have hnumeral := Numeral.intro hsign hi hf .none
    rcases hsm with ⟨rfl, hstops⟩ | ⟨c, hc, rfl⟩
    · exact .inr (by simpa using NumberFault.missingDigit (.exponent hnumeral hm hstops) hr)
    · exact .inr (by simpa using NumberFault.missingDigit (.signedExponent hnumeral hm hc) hr)

/-- Where an exponent fails, so does the number in front of it. -/
theorem number_failsWith_of_exponent {f : Bool} {number rest : List Char}
    (h : Numeral f false number) (hr : exponent.FailsWith rest cause) :
    Scan.number.FailsWith (number ++ rest) cause := by
  obtain ⟨hs, hi, hf, he⟩ := h
  cases he
  obtain ⟨mark, hm, sign, rest, rfl, -, -, -⟩ := exponent_failsWith_iff.1 hr
  have hmark {p : Char → Bool} (he : p 'e' = false) (hE : p 'E' = false) :
      Stops p (mark :: (sign ++ rest)) := by
    simp only [List.mem_cons, List.not_mem_nil, or_false] at hm
    rcases hm with rfl | rfl
    · exact stops_cons_iff.2 he
    · exact stops_cons_iff.2 hE
  rw [List.append_assoc, List.append_assoc, List.append_assoc, List.nil_append]
  refine number_failsWith_of_unsigned (by simpa using hs) (hi.stops_minus _) (.inr ?_)
  -- A point or the mark ends the digits of the integer part, the mark those of the fraction.
  refine ⟨_, _, rfl, hi, ?_, .inr ⟨_, _, _, rfl, hf, fun _ => ?_, fun _ => ?_, hr⟩⟩
  · cases hf with
    | none => exact hmark rfl rfl
    | some _ => exact stops_cons_iff.2 rfl
  · exact hmark rfl rfl
  · exact hmark rfl rfl

/-- Reading a number fails for what is wrong with the text. -/
theorem number_failsWith_of_fault (h : NumberFault cs cause) : number.FailsWith cs cause := by
  cases h with
  | digitAfterZero hs hd =>
    refine number_failsWith_of_unsigned hs (stops_cons_iff.2 rfl) (.inl ?_)
    exact integerPart_failsWith_iff.2 (.inl ⟨_, _, rfl, hd, rfl⟩)
  | missingDigit h hr =>
    cases h with
    | integer =>
      refine number_failsWith_iff_unsigned.2 (.inl ⟨_, rfl, .inl ?_⟩)
      exact integerPart_failsWith_iff.2 (.inr ⟨hr, rfl⟩)
    | fraction h =>
      obtain ⟨hs, hi, hf, he⟩ := h
      cases hf
      cases he
      simp only [List.append_nil, List.append_assoc]
      refine number_failsWith_of_unsigned (by simpa using hs) (hi.stops_minus _) (.inr ?_)
      refine ⟨_, _, rfl, hi, stops_cons_iff.2 rfl, .inl ?_⟩
      exact fraction_failsWith_iff.2 ⟨_, rfl, hr, rfl⟩
    | exponent h hm hs =>
      rw [List.append_assoc]
      refine number_failsWith_of_exponent h (exponent_failsWith_iff.2 ?_)
      exact ⟨_, hm, [], _, rfl, .inl ⟨rfl, hs⟩, hr, rfl⟩
    | signedExponent h hm hs =>
      rw [List.append_assoc]
      refine number_failsWith_of_exponent h (exponent_failsWith_iff.2 ?_)
      exact ⟨_, hm, [_], _, rfl, .inr ⟨_, hs, rfl⟩, hr, rfl⟩

/-- Where a number has to start, reading it fails exactly for what is wrong with the text. -/
theorem number_failsWith_iff (hopens : ∃ c ∈ cs.head?, c = '-' ∨ c.isDigit = true) :
    number.FailsWith cs cause ↔ NumberFault cs cause := by
  refine ⟨fun h => ?_, number_failsWith_of_fault⟩
  obtain ⟨c, hc, hopens⟩ := hopens
  rcases number_failsWith_iff_unsigned.1 h with ⟨rest, rfl, hu⟩ | ⟨hminus, hu⟩
  · rcases hu.fault (.inr rfl) with ⟨hr, rfl⟩ | h
    · exact .missingDigit .integer hr
    · exact h
  · rcases hu.fault (.inl rfl) with ⟨hdigit, -⟩ | h
    · -- The text starts with a sign or a digit.
      rcases hopens with rfl | hopens
      · exact absurd (hminus _ hc) (by decide)
      · exact absurd (hdigit _ hc) (by simp [hopens])
    · exact h

end Scan

/-! ### Tokens -/

namespace NumeralAt

variable {text number : List Char} {f e : Bool} (h : NumeralAt text f e number)
include h

/-- A text starts with one numeral that ends there at most. -/
theorem unique {number' : List Char} {f' e' : Bool} (h' : NumeralAt text f' e' number') :
    number' = number ∧ (f' || e') = (f || e) := by
  obtain ⟨rest, htext, hn, hr⟩ := h
  obtain ⟨rest', htext', hn', hr'⟩ := h'
  have hread := Scan.number_append hn hr
  have hread' := Scan.number_append hn' hr'
  rw [← htext] at hread
  rw [← htext', hread, Except.ok.injEq, Reading.mk.injEq] at hread'
  exact ⟨hread'.2.1.symm, hread'.1.symm⟩

/-- The numeral is read as a number. -/
theorem lexeme_eq : ∃ rest, Scan.lexeme text =
    .ok ⟨⟨if f || e then .float else .int, some (String.ofList number)⟩, number, rest⟩ := by
  obtain ⟨rest, rfl, hn, hr⟩ := h
  rw [← String.toList_ofList (l := number)] at hn
  have hread := Scan.lexeme_numeral hn hr
  rw [String.toList_ofList] at hread
  exact ⟨rest, hread⟩

end NumeralAt

/-- Where a number has to start and no numeral ends, nothing can be read, and
there is one reason for it. -/
theorem Scan.lexeme_of_not_numeralAt {text : List Char}
    (hopens : ∃ c ∈ text.head?, c = '-' ∨ c.isDigit = true)
    (hno : ¬ ∃ f e number, NumeralAt text f e number) :
    ∃ e, lexeme text = .error e ∧ ∀ cause, NumberFault text cause ↔ e.cause = cause := by
  have hlexeme : lexeme text = numberLexeme text := by
    cases text with
    | nil => simp at hopens
    | cons c cs => exact lexeme_number (by simpa using hopens) cs
  cases hread : number text with
  | ok r =>
    obtain ⟨f, e, hn, -, hends, htext⟩ := number_eq_ok_iff.1 hread
    exact absurd ⟨f, e, r.text, r.rest, htext, hn, hends⟩ hno
  | error e =>
    rw [hlexeme, numberLexeme, hread]
    refine ⟨e, rfl, fun cause => ?_⟩
    rw [← number_failsWith_iff hopens, FailsWith, hread]
    simp

namespace Lexer

variable {source : String} {n : Nat} {text : List Char}

theorem Faces.number (h : Faces source n text) {f e : Bool} {number : List Char}
    (hnumber : NumeralAt text f e number) :
    ∃ t : Token, ((new source).after n).nextToken.1 = .ok t ∧
      t.kind = (if f || e then .float else .int) ∧ t.value = some (String.ofList number) ∧
      t.span.slice? source = some (String.ofList number) ∧
      dropBytes? t.span.start.byteOffset source.toList = some text := by
  obtain ⟨rest, hread⟩ := hnumber.lexeme_eq
  obtain ⟨t, ht, hvalue, hslice, hstart, -⟩ := h.token hread
  rw [Lexeme.mk.injEq] at hvalue
  exact ⟨t, ht, hvalue.1, hvalue.2, hslice, hstart⟩

theorem Faces.numberFault (h : Faces source n text)
    (hopens : ∃ c ∈ text.head?, c = '-' ∨ c.isDigit = true)
    (hno : ¬ ∃ f e number, NumeralAt text f e number) :
    ∃ e : LexicalError, ((new source).after n).nextToken.1 = .error e ∧
      ∀ cause, NumberFault text cause ↔ e.cause = cause := by
  obtain ⟨e, hread, hcause⟩ := Scan.lexeme_of_not_numeralAt hopens hno
  obtain ⟨e', he', heq⟩ := h.fault hread
  exact ⟨e', he', heq ▸ hcause⟩

/-- Where a number has to start, the lexer gives out a number exactly if the text
starts with a numeral that ends there.  There is one at most, the token is
written as it, and a fraction or an exponent makes it a float.  Otherwise the
lexer says what is wrong with the text. -/
theorem nextToken_number (h : Faces source n text)
    (hopens : ∃ c ∈ text.head?, c = '-' ∨ c.isDigit = true) :
    ((∃ t : Token, ((new source).after n).nextToken.1 = .ok t ∧
        (t.kind = .int ∨ t.kind = .float)) ↔ ∃ f e number, NumeralAt text f e number) ∧
    (∀ f e number, NumeralAt text f e number →
      (∀ f' e' number', NumeralAt text f' e' number' →
        number' = number ∧ (f' || e') = (f || e)) ∧
      ∃ t : Token, ((new source).after n).nextToken.1 = .ok t ∧
        t.kind = (if f || e then .float else .int) ∧ t.value = some (String.ofList number) ∧
        t.span.slice? source = some (String.ofList number) ∧
        dropBytes? t.span.start.byteOffset source.toList = some text) ∧
    ((¬ ∃ f e number, NumeralAt text f e number) →
      ∃ e : LexicalError, ((new source).after n).nextToken.1 = .error e ∧
        ∀ cause, NumberFault text cause ↔ e.cause = cause) := by
  refine ⟨⟨?_, ?_⟩, fun f e number hnumber => ⟨?_, h.number hnumber⟩, h.numberFault hopens⟩
  · rintro ⟨t, ht, -⟩
    refine Classical.byContradiction fun hno => ?_
    obtain ⟨e, he, -⟩ := h.numberFault hopens hno
    rw [ht] at he
    cases he
  · rintro ⟨f, e, number, hnumber⟩
    obtain ⟨t, ht, hkind, -⟩ := h.number hnumber
    refine ⟨t, ht, ?_⟩
    rw [hkind]
    cases f || e <;> simp
  · exact fun f' e' number' hnumber' => hnumber.unique hnumber'

theorem nextToken_number_float :
    Faces "[1 -0.5e+1x" 2 "-0.5e+1x".toList ∧
      (∃ c ∈ "-0.5e+1x".toList.head?, c = '-' ∨ c.isDigit = true) ∧
      NumeralAt "-0.5e+1x".toList true true "-0.5e+1".toList ∧
      ∃ t : Token, ((new "[1 -0.5e+1x").after 2).nextToken.1 = .ok t ∧ t.kind = .float ∧
        t.value = some "-0.5e+1" ∧ t.span.slice? "[1 -0.5e+1x" = some "-0.5e+1" := by
  have h : Faces "[1 -0.5e+1x" 2 "-0.5e+1x".toList := ⟨rfl, rfl⟩
  have hopens : ∃ c ∈ "-0.5e+1x".toList.head?, c = '-' ∨ c.isDigit = true :=
    ⟨'-', rfl, .inl rfl⟩
  have hexponent : ExponentPart true ['e', '+', '1'] :=
    @ExponentPart.some 'e' ['+'] ['1'] (by simp) (.inr ⟨'+', by simp, rfl⟩) ⟨by simp, by simp⟩
  have hn : Numeral true true "-0.5e+1".toList :=
    @Numeral.intro true true ['-'] ['0'] ['.', '5'] ['e', '+', '1'] (.inr ⟨'-', by simp, rfl⟩)
      .zero (.some ⟨by simp, by simp⟩) hexponent
  have hends : NumeralEnds true true ['x'] :=
    ⟨stops_cons_iff.2 rfl, (fun h => by cases h), (fun h => by cases h)⟩
  have hat : NumeralAt "-0.5e+1x".toList true true "-0.5e+1".toList := ⟨['x'], rfl, hn, hends⟩
  obtain ⟨t, ht, hkind, hvalue, hslice, -⟩ := ((nextToken_number h hopens).2.1 _ _ _ hat).2
  exact ⟨h, hopens, hat, t, ht, hkind, hvalue, hslice⟩

end Lexer

end GraphQL
