/-
Strings as tokens, and where they break off.

* `StringUnit` — a plain character or an escape sequence, and the character
  that it stands for;
* `UnitFault` — why a text starts neither with such a unit nor with a quote;
* `Scan.stringBody_units` — units in front of a text are read one by one,
  whatever follows them;
* `Lexer.nextToken_string` — behind an opening quote, the lexer gives out the
  string whose units run up to a closing quote, or says what is wrong with the
  first unit that fails.

Design notes: four digits stand for the character with that code point.  No
character has the code point of half a surrogate pair, so such digits stand for
nothing.
-/
import GraphQL.Proofs.Lexical.Facing
import GraphQL.Proofs.Lexical.Lexeme

namespace GraphQL

/-! ### Units -/

/-- The hexadecimal digits of both cases, each with its value. -/
def hexDigits : List (Char × Nat) :=
  "0123456789abcdef".toList.zipIdx ++ "0123456789ABCDEF".toList.zipIdx

/-- A backslash and one more character, and what they stand for. -/
def shortEscapes : List (Char × Char) :=
  [('"', '"'), ('/', '/'), ('\\', '\\'), ('n', '\n'), ('r', '\r'), ('t', '\t')]

/-- A unit of a string, and the character that it stands for. -/
inductive StringUnit : List Char → Char → Prop
  | plain {c : Char} (hc : c = '\t' ∨ ' ' ≤ c) (hquote : c ≠ '"') (hslash : c ≠ '\\') :
    StringUnit [c] c
  | short {c d : Char} (h : (c, d) ∈ shortEscapes) : StringUnit ['\\', c] d
  | unicode {a b c d ch : Char} {i j k l : Nat} (ha : (a, i) ∈ hexDigits) (hb : (b, j) ∈ hexDigits)
    (hc : (c, k) ∈ hexDigits) (hd : (d, l) ∈ hexDigits)
    (h : ch.toNat = ((i * 16 + j) * 16 + k) * 16 + l) : StringUnit ['\\', 'u', a, b, c, d] ch

/-- Units one behind the other, and the characters that they stand for. -/
inductive StringUnits : List Char → List Char → Prop
  | nil : StringUnits [] []
  | cons {text units : List Char} {c : Char} {cs : List Char} (h : StringUnit text c)
    (hs : StringUnits units cs) : StringUnits (text ++ units) (c :: cs)

/-- The characters that are taken for the digits of an escape sequence: the next
four, or fewer if a quote, a line break or the end comes first. -/
structure EscapeWindow (ds rest : List Char) : Prop where
  length : ds.length ≤ 4
  plain : ∀ c ∈ ds, c ≠ '"' ∧ isLineBreak c = false
  full : ds.length = 4 ∨ ∀ c ∈ rest.head?, c = '"' ∨ isLineBreak c = true

/-- Why a text starts neither with a unit nor with a quote. -/
inductive UnitFault : List Char → LexicalCause → Prop
  | lineEnd {rest : List Char} (h : ∀ c ∈ rest.head?, isLineBreak c = true) :
    UnitFault rest .unterminatedString
  | backslash : UnitFault ['\\'] .unterminatedString
  | control {c : Char} {rest : List Char} (hc : c < ' ') (htab : c ≠ '\t')
    (hbreak : isLineBreak c = false) : UnitFault (c :: rest) (.invalidCharacterInString c)
  | short {c : Char} {rest : List Char} (hu : c ≠ 'u') (h : ∀ d, (c, d) ∉ shortEscapes) :
    UnitFault ('\\' :: c :: rest) (.invalidEscape (String.ofList ['\\', c]))
  | unicode {ds rest : List Char} (hds : EscapeWindow ds rest)
    (h : ∀ ch, ¬ StringUnit ('\\' :: 'u' :: ds) ch) :
    UnitFault ('\\' :: 'u' :: (ds ++ rest)) (.invalidEscape (String.ofList ('\\' :: 'u' :: ds)))

/-- No unit fails at a quote. -/
theorem UnitFault.head_ne {cs : List Char} {cause : LexicalCause} (h : UnitFault cs cause) :
    cs.head? ≠ some '"' := by
  cases h with
  | lineEnd h =>
    intro hq
    exact absurd (h _ hq) (by decide)
  | control hc _ _ =>
    intro hq
    cases hq
    exact absurd hc (by decide)
  | _ => simp

/-! ### Digits -/

theorem toNat_lt_of_hexValue? {c : Char} {v : Nat} (h : hexValue? c = some v) : c.toNat < 103 := by
  have hle {a b : Char} (hab : a ≤ b) : a.toNat ≤ b.toNat := hab
  rw [hexValue?] at h
  split at h
  · next hc => exact Nat.lt_of_le_of_lt (hle hc.2) (by decide)
  · split at h
    · next hc => exact Nat.lt_of_le_of_lt (hle hc.2) (by decide)
    · split at h
      · next hc => exact Nat.lt_of_le_of_lt (hle hc.2) (by decide)
      · cases h

theorem hexValue?_eq_some_iff {c : Char} {v : Nat} : hexValue? c = some v ↔ (c, v) ∈ hexDigits := by
  constructor
  · intro h
    -- No digit comes behind `f`, so there are few characters to look at.
    have hall : ∀ n < 103, ∀ v ∈ hexValue? (Char.ofNat n), (Char.ofNat n, v) ∈ hexDigits := by
      decide
    have hc := hall c.toNat (toNat_lt_of_hexValue? h)
    rw [Char.ofNat_toNat] at hc
    exact hc v h
  · have hall : ∀ p ∈ hexDigits, hexValue? p.1 = some p.2 := by decide
    exact hall (c, v)

theorem lt_of_mem_hexDigits {c : Char} {v : Nat} (h : (c, v) ∈ hexDigits) : v < 16 := by
  have hall : ∀ p ∈ hexDigits, p.2 < 16 := by decide
  exact hall _ h

theorem fourHexValue?_eq_some_iff {a b c d : Char} {n : Nat} :
    fourHexValue? a b c d = some n ↔ ∃ i j k l, (a, i) ∈ hexDigits ∧ (b, j) ∈ hexDigits ∧
      (c, k) ∈ hexDigits ∧ (d, l) ∈ hexDigits ∧ n = ((i * 16 + j) * 16 + k) * 16 + l := by
  simp only [fourHexValue?, Option.bind_eq_bind, Option.bind_eq_some_iff, Option.pure_def,
    Option.some.injEq, hexValue?_eq_some_iff]
  constructor
  · rintro ⟨i, hi, j, hj, k, hk, l, hl, rfl⟩
    exact ⟨i, j, k, l, hi, hj, hk, hl, rfl⟩
  · rintro ⟨i, j, k, l, hi, hj, hk, hl, rfl⟩
    exact ⟨i, hi, j, hj, k, hk, l, hl, rfl⟩

namespace Scan

theorem shortEscape?_eq_some_iff {c d : Char} :
    shortEscape? c = some d ↔ (c, d) ∈ shortEscapes := by
  constructor
  · intro h
    unfold shortEscape? at h
    split at h <;> cases h <;> simp [shortEscapes]
  · have hall : ∀ p ∈ shortEscapes, shortEscape? p.1 = some p.2 := by decide
    exact hall (c, d)

/-- Four digits stand for the character with that code point, and other
characters behind `u` for nothing. -/
theorem unicodeEscape?_eq_some_iff {ds : List Char} {ch : Char} :
    unicodeEscape? ds = some ch ↔ StringUnit ('\\' :: 'u' :: ds) ch := by
  constructor
  · intro h
    rw [unicodeEscape?.eq_def] at h
    split at h
    · next a b c d =>
      obtain ⟨n, hn, h⟩ := Option.bind_eq_some_iff.1 h
      obtain ⟨i, j, k, l, ha, hb, hc, hd, rfl⟩ := fourHexValue?_eq_some_iff.1 hn
      have hi := lt_of_mem_hexDigits ha
      have hj := lt_of_mem_hexDigits hb
      have hk := lt_of_mem_hexDigits hc
      have hl := lt_of_mem_hexDigits hd
      split at h
      · cases h
      · next hsurrogate =>
        cases h
        refine .unicode ha hb hc hd ?_
        have hvalid : (((i * 16 + j) * 16 + k) * 16 + l).isValidChar := by
          simp only [Nat.isValidChar]
          omega
        rw [Char.ofNat, dif_pos hvalid]
        rfl
    · cases h
  · intro h
    cases h with
    | short h => simp [shortEscapes] at h
    | @unicode a b c d ch i j k l ha hb hc hd h =>
      have hn := fourHexValue?_eq_some_iff.2 ⟨i, j, k, l, ha, hb, hc, hd, rfl⟩
      have hvalid := ch.valid
      rw [unicodeEscape?, hn, Option.bind_eq_bind, Option.bind_some, ← h, if_neg, Char.ofNat_toNat]
      rintro ⟨hlow, hhigh⟩
      simp only [UInt32.isValidChar, Nat.isValidChar] at hvalid
      have : ch.val.toNat = ch.toNat := rfl
      omega

/-- Characters of a class are taken until there are `n`, or until there are no more. -/
theorem length_takeWhile_take (p : Char → Bool) (n : Nat) (cs : List Char) :
    ((cs.take n).takeWhile p).length = n ∨ Stops p (cs.drop ((cs.take n).takeWhile p).length) := by
  induction n generalizing cs with
  | zero => exact .inl rfl
  | succ n ih =>
    cases cs with
    | nil => exact .inr (.nil p)
    | cons c cs =>
      by_cases hc : p c = true
      · simpa [hc] using ih cs
      · rw [Bool.not_eq_true] at hc
        refine .inr ?_
        simpa [hc] using stops_cons_iff.2 hc

/-- What is taken for digits is the window in front of the rest. -/
theorem escapeWindow_unicodeDigits (cs : List Char) :
    EscapeWindow (unicodeDigits cs) (cs.drop (unicodeDigits cs).length) := by
  refine ⟨?_, fun c hc => ?_, ?_⟩
  · exact Nat.le_trans (List.takeWhile_prefix _).length_le (List.length_take_le 4 cs)
  · simpa using List.all_eq_true.1 List.all_takeWhile c hc
  · refine (length_takeWhile_take _ 4 cs).imp_right fun h c hc => ?_
    have hstop := h c hc
    cases hb : isLineBreak c <;> simp_all

theorem unicodeDigits_sameLine (cs : List Char) : ∀ c ∈ unicodeDigits cs, isLineBreak c = false :=
  fun c hc => ((escapeWindow_unicodeDigits cs).plain c hc).2

theorem unicodeDigits_of_escapeWindow {ds rest : List Char} (h : EscapeWindow ds rest) :
    unicodeDigits (ds ++ rest) = ds := by
  have hplain : ∀ c ∈ ds, (c != '"' && !isLineBreak c) = true := by simpa using h.plain
  have hstops : Stops (fun c => c != '"' && !isLineBreak c) (rest.take (4 - ds.length)) := by
    rcases h.full with hfull | hend
    · simp [hfull, Stops.nil]
    · intro c hc
      have hhead : c ∈ rest.head? := by
        rw [List.head?_take] at hc
        split at hc
        · cases hc
        · exact hc
      rcases hend c hhead with rfl | hbreak
      · rfl
      · simp [hbreak]
  rw [unicodeDigits, List.take_append, List.take_of_length_le h.length]
  exact (takeWhile_append_of_stops hplain hstops).1

/-! ### One unit -/

theorem plain_of_mem_hexDigits {c : Char} {v : Nat} (h : (c, v) ∈ hexDigits) :
    c ≠ '"' ∧ isLineBreak c = false := by
  have hall : ∀ p ∈ hexDigits, p.1 ≠ '"' ∧ isLineBreak p.1 = false := by decide
  exact hall _ h

/-- A unit is read, whatever follows it. -/
theorem stringUnit_append_of_unit {text : List Char} {ch : Char} (h : StringUnit text ch)
    (rest : List Char) : stringUnit (text ++ rest) = .ok ⟨ch, text, rest⟩ := by
  cases h with
  | plain hc hquote hslash =>
    have hbreak : isLineBreak ch = false := by
      rw [isLineBreak_eq_false_iff]
      constructor <;> (rintro rfl; exact absurd hc (by decide))
    have hcontrol : ¬ (ch < ' ' ∧ ch ≠ '\t') := fun ⟨hlt, htab⟩ =>
      Char.not_lt.2 (hc.resolve_left htab) hlt
    rw [List.singleton_append, stringUnit, if_neg hslash, hbreak, if_neg (by simp),
      if_neg hcontrol]
  | @short c _ h =>
    have hu : c ≠ 'u' := by
      rintro rfl
      simp [shortEscapes] at h
    show escape (c :: rest) = _
    rw [escape, if_neg hu, shortEscape?_eq_some_iff.2 h]
  | @unicode a b c d ch i j k l ha hb hc hd h =>
    have hwindow : EscapeWindow [a, b, c, d] rest := by
      refine ⟨Nat.le_refl 4, ?_, .inl rfl⟩
      simp only [List.forall_mem_cons]
      exact ⟨plain_of_mem_hexDigits ha, plain_of_mem_hexDigits hb, plain_of_mem_hexDigits hc,
        plain_of_mem_hexDigits hd, by simp⟩
    have hdigits := unicodeDigits_of_escapeWindow hwindow
    have hchar := unicodeEscape?_eq_some_iff.2 (.unicode ha hb hc hd h)
    show escape ('u' :: ([a, b, c, d] ++ rest)) = _
    rw [escape, if_pos rfl, hdigits, hchar]
    rfl

/-- What is read as a unit is one, unless it is a quote. -/
theorem unit_of_stringUnit {cs : List Char} {r : Reading Char} (hq : cs.head? ≠ some '"')
    (h : stringUnit cs = .ok r) : StringUnit r.text r.value := by
  cases cs with
  | nil => cases h
  | cons c cs =>
    rw [stringUnit] at h
    split at h
    · cases cs with
      | nil => cases h
      | cons d cs =>
        rw [escape] at h
        split at h
        · split at h
          · next hvalue =>
            cases h
            exact unicodeEscape?_eq_some_iff.1 hvalue
          · cases h
        · split at h
          · next hvalue =>
            cases h
            exact .short (shortEscape?_eq_some_iff.1 hvalue)
          · cases h
    · next hslash =>
      split at h
      · cases h
      · split at h
        · cases h
        · next hcontrol =>
          cases h
          refine .plain ?_ (by simpa using hq) hslash
          by_cases htab : c = '\t'
          · exact .inl htab
          · exact .inr (Char.not_lt.1 fun hlt => hcontrol ⟨hlt, htab⟩)

/-- Why no unit can be read is what is wrong with the text. -/
theorem fault_of_stringUnit {cs : List Char} {e : Misreading} (h : stringUnit cs = .error e) :
    UnitFault cs e.cause := by
  cases cs with
  | nil =>
    cases h
    exact .lineEnd (by simp)
  | cons c cs =>
    rw [stringUnit] at h
    split at h
    · next hc =>
      subst hc
      cases cs with
      | nil =>
        cases h
        exact .backslash
      | cons d cs =>
        rw [escape] at h
        split at h
        · next hu =>
          subst hu
          split at h
          · cases h
          · next hno =>
            cases h
            have hfault := UnitFault.unicode (escapeWindow_unicodeDigits cs) fun ch hch => by
              rw [unicodeEscape?_eq_some_iff.2 hch] at hno
              cases hno
            rwa [unicodeDigits_append] at hfault
        · next hu =>
          split at h
          · cases h
          · next hno =>
            cases h
            refine .short hu fun d' hd => ?_
            rw [shortEscape?_eq_some_iff.2 hd] at hno
            cases hno
    · split at h
      · next hbreak =>
        cases h
        exact .lineEnd (by simpa using hbreak)
      · next hbreak =>
        split at h
        · next hcontrol =>
          cases h
          exact .control hcontrol.1 hcontrol.2 (by simpa using hbreak)
        · cases h

/-- Where something is wrong, no unit can be read, for just this reason. -/
theorem stringUnit_of_fault {cs : List Char} {cause : LexicalCause} (h : UnitFault cs cause) :
    ∃ e, stringUnit cs = .error e ∧ e.cause = cause := by
  cases h with
  | lineEnd h =>
    cases cs with
    | nil => exact ⟨_, rfl, rfl⟩
    | cons c cs =>
      have hbreak : isLineBreak c = true := h c rfl
      have hslash : c ≠ '\\' := by
        rintro rfl
        cases hbreak
      exact ⟨_, by rw [stringUnit, if_neg hslash, if_pos hbreak], rfl⟩
  | backslash => exact ⟨_, rfl, rfl⟩
  | @control c rest hc htab hbreak =>
    have hslash : c ≠ '\\' := by
      rintro rfl
      exact absurd hc (by decide)
    exact ⟨_, by rw [stringUnit, if_neg hslash, hbreak, if_neg (by simp), if_pos ⟨hc, htab⟩], rfl⟩
  | @short c rest hu h =>
    refine ⟨invalidEscape ['\\', c], ?_, rfl⟩
    show escape (c :: rest) = _
    rw [escape, if_neg hu]
    cases hd : shortEscape? c with
    | none => rfl
    | some d => exact absurd (shortEscape?_eq_some_iff.1 hd) (h d)
  | @unicode ds rest hds h =>
    refine ⟨invalidEscape ('\\' :: 'u' :: ds), ?_, rfl⟩
    show escape ('u' :: (ds ++ rest)) = _
    rw [escape, if_pos rfl, unicodeDigits_of_escapeWindow hds]
    cases hch : unicodeEscape? ds with
    | none => rfl
    | some ch => exact absurd (unicodeEscape?_eq_some_iff.1 hch) (h ch)

/-! ### The body of a string -/

/-- Units in front of a text are read one by one, whatever follows them. -/
theorem stringBody_units {units contents : List Char} (h : StringUnits units contents)
    (rest : List Char) :
    stringBody (units ++ rest) = match stringBody rest with
      | .error e => .error (e.after units)
      | .ok r => .ok ⟨contents ++ r.value, units ++ r.text, r.rest⟩ := by
  induction h with
  | nil =>
    cases hrest : stringBody rest with
    | error e => simpa [Misreading.after] using hrest
    | ok r => simpa using hrest
  | @cons text units c cs h hs ih =>
    have hunit := stringUnit_append_of_unit h (units ++ rest)
    have hfirst : (text ++ (units ++ rest)).head? ≠ some '"' := by
      cases h with
      | plain _ hquote _ => simpa using hquote
      | _ => simp
    rw [List.append_assoc, stringBody_of_unit hfirst hunit]
    simp only [ih]
    cases stringBody rest with
    | error e => simp [Misreading.after]
    | ok r => simp

/-- The units of a string run up to its closing quote. -/
theorem units_of_stringBody {cs : List Char} {r : Reading (List Char)} (h : stringBody cs = .ok r) :
    ∃ units, StringUnits units r.value ∧ r.text = units ++ ['"'] := by
  fun_induction stringBody cs generalizing r with
  | case1 =>
    cases h
    exact ⟨[], .nil, rfl⟩
  | case2 => cases h
  | case3 => cases h
  | case4 cs hq u hu b hb ih =>
    cases h
    obtain ⟨units, hunits, htext⟩ := ih hb
    exact ⟨u.text ++ units, .cons (unit_of_stringUnit hq hu) hunits, by simp [htext]⟩

/-- A string breaks off at the first unit that fails. -/
theorem fault_of_stringBody {cs : List Char} {e : Misreading} (h : stringBody cs = .error e) :
    ∃ units contents rest, cs = units ++ rest ∧ StringUnits units contents ∧
      UnitFault rest e.cause := by
  fun_induction stringBody cs generalizing e with
  | case1 => cases h
  | case2 cs hq e' hu =>
    cases h
    exact ⟨[], [], cs, rfl, .nil, fault_of_stringUnit hu⟩
  | case3 cs hq u hu e' he ih =>
    cases h
    obtain ⟨units, contents, rest, hrest, hunits, hfault⟩ := ih he
    refine ⟨u.text ++ units, u.value :: contents, rest, ?_,
      .cons (unit_of_stringUnit hq hu) hunits, hfault⟩
    rw [List.append_assoc, ← hrest, stringUnit_append hu]
  | case4 => cases h

end Scan

/-- A text starts with units and then a quote; `rest` follows. -/
def StringAt (text units contents rest : List Char) : Prop :=
  text = units ++ '"' :: rest ∧ StringUnits units contents

/-- A text starts with units and then something that is wrong. -/
def StringFault (text : List Char) (cause : LexicalCause) : Prop :=
  ∃ units contents rest, text = units ++ rest ∧ StringUnits units contents ∧ UnitFault rest cause

namespace Scan

/-- Behind an opening quote, units up to a closing quote are read as a string. -/
theorem lexeme_of_stringAt {text units contents rest : List Char}
    (h : StringAt text units contents rest) :
    lexeme ('"' :: text) =
      .ok ⟨⟨.string, some (String.ofList contents)⟩, '"' :: (units ++ ['"']), rest⟩ := by
  obtain ⟨rfl, hunits⟩ := h
  have hclose : stringBody ('"' :: rest) = .ok ⟨[], ['"'], rest⟩ := by
    rw [stringBody]
    rfl
  show stringLexeme (units ++ '"' :: rest) = _
  rw [stringLexeme, stringBody_units hunits, hclose]
  simp

/-- Behind an opening quote and without a closing one, nothing can be read, and
there is one reason for it. -/
theorem lexeme_of_not_stringAt {text : List Char}
    (hno : ¬ ∃ units contents rest, StringAt text units contents rest) :
    ∃ e, lexeme ('"' :: text) = .error e ∧ ∀ cause, StringFault text cause ↔ e.cause = cause := by
  cases hread : stringBody text with
  | ok r =>
    obtain ⟨units, hunits, htext⟩ := units_of_stringBody hread
    -- What was read ends with a quote, behind the units.
    have happend := stringBody_append hread
    rw [htext, List.append_assoc] at happend
    exact absurd ⟨units, r.value, r.rest, happend.symm, hunits⟩ hno
  | error e =>
    refine ⟨e.after ['"'], ?_, fun cause => ⟨?_, ?_⟩⟩
    · show stringLexeme text = _
      rw [stringLexeme, hread]
    · rintro ⟨units, contents, rest, rfl, hunits, hfault⟩
      obtain ⟨e', he', rfl⟩ := stringUnit_of_fault hfault
      have hrest : stringBody rest = .error e' := stringBody_of_error hfault.head_ne he'
      rw [stringBody_units hunits, hrest] at hread
      cases hread
      rfl
    · rintro rfl
      have hfault := fault_of_stringBody hread
      exact hfault

end Scan

/-! ### Tokens -/

namespace Lexer

variable {source : String} {n : Nat} {text : List Char}

theorem Faces.string (h : Faces source n ('"' :: text)) {units contents rest : List Char}
    (hstring : StringAt text units contents rest) :
    ∃ t : Token, ((new source).after n).nextToken.1 = .ok t ∧ t.kind = .string ∧
      t.value = some (String.ofList contents) ∧
      t.span.slice? source = some (String.ofList ('"' :: (units ++ ['"']))) ∧
      dropBytes? t.span.stop.byteOffset source.toList = some rest := by
  obtain ⟨t, ht, hvalue, hslice, -, hstop⟩ := h.token (Scan.lexeme_of_stringAt hstring)
  rw [Lexeme.mk.injEq] at hvalue
  exact ⟨t, ht, hvalue.1, hvalue.2, hslice, hstop⟩

theorem Faces.stringFault (h : Faces source n ('"' :: text))
    (hno : ¬ ∃ units contents rest, StringAt text units contents rest) :
    ∃ e : LexicalError, ((new source).after n).nextToken.1 = .error e ∧
      ∀ cause, StringFault text cause ↔ e.cause = cause := by
  obtain ⟨e, hread, hcause⟩ := Scan.lexeme_of_not_stringAt hno
  obtain ⟨e', he', heq⟩ := h.fault hread
  exact ⟨e', he', heq ▸ hcause⟩

/-- Behind an opening quote the lexer gives out a string exactly if the text goes
on with units and a closing quote.  The token ends with that quote, and its
value is what the units stand for.  Otherwise the lexer says what is wrong with
the first unit that fails. -/
theorem nextToken_string (h : Faces source n ('"' :: text)) :
    ((∃ t : Token, ((new source).after n).nextToken.1 = .ok t ∧ t.kind = .string) ↔
      ∃ units contents rest, StringAt text units contents rest) ∧
    (∀ units contents rest, StringAt text units contents rest →
      ∃ t : Token, ((new source).after n).nextToken.1 = .ok t ∧ t.kind = .string ∧
        t.value = some (String.ofList contents) ∧
        t.span.slice? source = some (String.ofList ('"' :: (units ++ ['"']))) ∧
        dropBytes? t.span.stop.byteOffset source.toList = some rest) ∧
    ((¬ ∃ units contents rest, StringAt text units contents rest) →
      ∃ e : LexicalError, ((new source).after n).nextToken.1 = .error e ∧
        ∀ cause, StringFault text cause ↔ e.cause = cause) := by
  refine ⟨⟨?_, ?_⟩, fun units contents rest hstring => h.string hstring, h.stringFault⟩
  · rintro ⟨t, ht, -⟩
    refine Classical.byContradiction fun hno => ?_
    obtain ⟨e, he, -⟩ := h.stringFault hno
    rw [ht] at he
    cases he
  · rintro ⟨units, contents, rest, hstring⟩
    obtain ⟨t, ht, hkind, -⟩ := h.string hstring
    exact ⟨t, ht, hkind⟩

theorem nextToken_string_escapes :
    Faces "(s: \"t\\u00E9\\n\"" 3 ('"' :: "t\\u00E9\\n\"".toList) ∧
      StringAt "t\\u00E9\\n\"".toList "t\\u00E9\\n".toList "té\n".toList [] ∧
      ∃ t : Token, ((new "(s: \"t\\u00E9\\n\"").after 3).nextToken.1 = .ok t ∧ t.kind = .string ∧
        t.value = some "té\n" ∧
        t.span.slice? "(s: \"t\\u00E9\\n\"" = some "\"t\\u00E9\\n\"" := by
  have h : Faces "(s: \"t\\u00E9\\n\"" 3 ('"' :: "t\\u00E9\\n\"".toList) := ⟨rfl, rfl⟩
  have hplain : StringUnit ['t'] 't' := .plain (.inr (by decide)) (by decide) (by decide)
  have hcode : StringUnit ['\\', 'u', '0', '0', 'E', '9'] 'é' :=
    @StringUnit.unicode '0' '0' 'E' '9' 'é' 0 0 14 9 (by decide) (by decide) (by decide)
      (by decide) rfl
  have hline : StringUnit ['\\', 'n'] '\n' := .short (by decide)
  have hat : StringAt "t\\u00E9\\n\"".toList "t\\u00E9\\n".toList "té\n".toList [] :=
    ⟨rfl, .cons hplain (.cons hcode (.cons hline .nil))⟩
  obtain ⟨t, ht, hkind, hvalue, hslice, -⟩ := (nextToken_string h).2.1 _ _ _ hat
  exact ⟨h, hat, t, ht, hkind, hvalue, hslice⟩

end Lexer

end GraphQL
