/-
Reports in one line.

* `SameLine` lemmas for whatever a message is made of: numbers, named
  characters, quoted texts and lexemes;
* `LexicalCause.EscapesLineBreak` — the one cause whose wording holds a line
  break, a backslash in front of one;
* `reported_in_one_line_iff` — the faults and errors of a source are told in one
  line, but for those of that cause.

Design notes: a message spells out a line break wherever it shows a single
character or quotes a text.  Names, numbers and the digits of an escape are
shown as they are written, and can hold none.  Only the character behind a
backslash may be any, and is shown as it is written, too.
-/
import GraphQL.Journal
import GraphQL.Proofs.Grammar.Blame
import GraphQL.Proofs.Grammar.LexicalFault
import GraphQL.Proofs.Lexical.FaultText

namespace GraphQL

theorem SameLine.of_all {text : List Char} (h : text.all (!isLineBreak ·) = true) :
    SameLine text := by
  simpa [SameLine] using h

theorem SameLine.stringAppend {s t : String} (hs : SameLine s.toList) (ht : SameLine t.toList) :
    SameLine (s ++ t).toList := by
  rw [String.toList_append]
  exact hs.append ht

/-! ### Numbers -/

theorem digitChar_not_lineBreak (n : Nat) : isLineBreak n.digitChar = false := by
  simp only [Nat.digitChar, apply_ite isLineBreak]
  simp [isLineBreak]

theorem toDigitsCore_sameLine (base fuel n : Nat) {ds : List Char} (hds : SameLine ds) :
    SameLine (Nat.toDigitsCore base fuel n ds) := by
  induction fuel generalizing n ds with
  | zero => exact hds
  | succ fuel ih =>
    have hcons : SameLine ((n % base).digitChar :: ds) :=
      List.forall_mem_cons.2 ⟨digitChar_not_lineBreak _, hds⟩
    rw [Nat.toDigitsCore]
    split
    · exact hcons
    · exact ih _ hcons

theorem toDigits_sameLine (base n : Nat) : SameLine (Nat.toDigits base n) :=
  toDigitsCore_sameLine base (n + 1) n sameLine_nil

theorem toString_sameLine (n : Nat) : SameLine (toString n).toList := by
  rw [Nat.toString_eq_ofList_toDigits, String.toList_ofList]
  exact toDigits_sameLine 10 n

theorem hexDigit_not_lineBreak {n : Nat} (h : n < 16) : isLineBreak (hexDigit n) = false := by
  revert n
  decide

theorem fourHexDigits_sameLine (n : Nat) : SameLine (fourHexDigits n) := by
  have hdigit (m : Nat) : isLineBreak (hexDigit (m % 16)) = false :=
    hexDigit_not_lineBreak (Nat.mod_lt m (by decide))
  simp [SameLine, fourHexDigits, hdigit]

/-! ### Characters and quoted texts -/

namespace Character

theorem invisibleName?_sameLine {c : Char} : ∀ name ∈ invisibleName? c, SameLine name.toList := by
  intro name h
  unfold invisibleName? at h
  split at h <;> cases h <;> simp [SameLine, isLineBreak]

/-- A character that is shown as it is does not end a line. -/
theorem not_lineBreak_of_visible {c : Char} (h : isInvisible c = false) :
    isLineBreak c = false := by
  rw [isLineBreak_eq_false_iff]
  constructor <;> (rintro rfl; exact absurd h (by decide))

theorem describe_sameLine (c : Char) : SameLine (describe c).toList := by
  have hpoint : SameLine (codePoint c).toList := by
    rw [codePoint]
    refine .stringAppend (.of_all rfl) ?_
    rw [String.toList_ofList]
    exact fourHexDigits_sameLine _
  rw [describe]
  split
  · split
    · next name hname =>
      have hname := invisibleName?_sameLine name hname
      exact .stringAppend (.stringAppend (.stringAppend hpoint (.of_all rfl)) hname) (.of_all rfl)
    · exact hpoint
  · next hvisible =>
    have hc := not_lineBreak_of_visible (Bool.eq_false_iff.2 hvisible)
    have hshown : SameLine c.toString.toList := by
      rw [Char.toString, String.toList_singleton]
      exact sameLine_singleton.2 hc
    exact .stringAppend (.stringAppend (.of_all rfl) hshown) (.of_all rfl)

theorem describeNext_sameLine (found : Option Char) : SameLine (describeNext found).toList := by
  cases found with
  | none => exact .of_all rfl
  | some c => exact describe_sameLine c

end Character

theorem quoteChar_sameLine (c : Char) : SameLine (quoteChar c) := by
  unfold quoteChar
  split
  any_goals exact .of_all rfl
  split
  · exact .append (.append (.of_all rfl) (toDigits_sameLine 16 _)) (.of_all rfl)
  · next hn hr _ => exact sameLine_singleton.2 (isLineBreak_eq_false_iff.2 ⟨hn, hr⟩)

theorem quote_sameLine (text : String) : SameLine (quote text).toList := by
  rw [quote, String.toList_ofList]
  have hbody : SameLine (text.toList.flatMap quoteChar) := by
    intro c hc
    obtain ⟨d, -, hd⟩ := List.mem_flatMap.1 hc
    exact quoteChar_sameLine d c hd
  exact List.forall_mem_cons.2 ⟨rfl, hbody.append (.of_all rfl)⟩

/-! ### Lexemes -/

theorem TokenKind.describe_sameLine (k : TokenKind) : SameLine k.describe.toList := by
  cases k with
  | punctuator p => cases p <;> exact .of_all rfl
  | _ => exact .of_all rfl

namespace Lexeme

/-- The lexemes of a source: the spellable ones, and the end of the input. -/
def Sourced (x : Lexeme) : Prop := x.Spellable ∨ x = ⟨.endOfInput, none⟩

theorem describe_sameLine {x : Lexeme} (h : x.Sourced) : SameLine x.describe.toList := by
  have hshown {label : String} {text : String} (hlabel : SameLine label.toList)
      (htext : SameLine text.toList) : SameLine (label ++ text ++ "`").toList :=
    .stringAppend (.stringAppend hlabel htext) (.of_all rfl)
  rcases h with h | rfl
  · cases h with
    | punctuator p => exact TokenKind.describe_sameLine (.punctuator p)
    | name h => exact hshown (.of_all rfl) h.sameLine
    | int h => exact hshown (.of_all rfl) (Numeral.sameLine h)
    | float h =>
      obtain ⟨_, _, h, _⟩ := h
      exact hshown (.of_all rfl) h.sameLine
    | string contents =>
      exact .stringAppend (.of_all rfl) (quote_sameLine contents)
  · exact TokenKind.describe_sameLine .endOfInput

end Lexeme

/-- The tokens of a source are spellable, or end the input. -/
theorem sourced_of_mem_tokenize {source : String} {t : Token} (h : .ok t ∈ tokenize source) :
    t.toLexeme.Sourced := by
  obtain ⟨before, rest, -, -, hread⟩ := read_of_mem_tokenize h
  by_cases hrest : rest = []
  · rw [hrest, Item.readAt_nil] at hread
    cases hread
    exact .inr rfl
  · cases hr : Scan.lexeme rest with
    | ok r =>
      rw [Item.readAt_of_ok hr] at hread
      cases hread
      exact .inl (Scan.spellable_of_lexeme hrest hr)
    | error e =>
      rw [Item.readAt_of_error hr] at hread
      cases hread

theorem InView.sourced {source : String} {t : Token} (h : InView (tokenize source) t) :
    t.toLexeme.Sourced := by
  cases h with
  | start => exact .inr rfl
  | item h => exact sourced_of_mem_tokenize h
  | stop _ => exact .inr rfl

/-! ### Messages -/

/-- A backslash in front of a line break. -/
def LexicalCause.EscapesLineBreak (cause : LexicalCause) : Prop :=
  ∃ c, isLineBreak c = true ∧ cause = .invalidEscape (String.ofList ['\\', c])

/-- An escape sequence is shown as it is written. -/
theorem LexicalCause.invalidEscape_message (text : List Char) :
    SameLine (invalidEscape (String.ofList text)).message.toList ↔ SameLine text := by
  have hbefore : SameLine "invalid escape sequence `".toList := .of_all rfl
  have hmessage : (invalidEscape (String.ofList text)).message.toList =
      "invalid escape sequence `".toList ++ text ++ "`".toList := by
    show ("invalid escape sequence `" ++ String.ofList text ++ "`").toList = _
    rw [String.toList_append, String.toList_append, String.toList_ofList (l := text)]
  rw [hmessage]
  constructor
  · intro h c hc
    exact h c (by simp [hc])
  · intro h
    exact (hbefore.append h).append (.of_all rfl)

/-- The wording of a cause that is found in a source is one line, unless it is
that a line break is escaped. -/
theorem PointsAt.message_sameLine_iff {text rest : List Char} {cause : LexicalCause}
    {notes : List Note} (h : PointsAt text rest cause notes) :
    SameLine cause.message.toList ↔ ¬cause.EscapesLineBreak := by
  have hother (hsame : SameLine cause.message.toList)
      (hcause : ∀ s, cause ≠ .invalidEscape s) :
      SameLine cause.message.toList ↔ ¬cause.EscapesLineBreak :=
    ⟨fun _ ⟨_, _, hc⟩ => hcause _ hc, fun _ => hsame⟩
  cases h with
  | unexpected _ | dot _ | twoDots _ | control | controlInString =>
    exact hother (.stringAppend (.of_all rfl) (Character.describe_sameLine _)) nofun
  | @shortEscape c _ =>
    rw [LexicalCause.invalidEscape_message]
    constructor
    · rintro hline ⟨d, hd, hcause⟩
      have htext : ['\\', c] = ['\\', d] := String.ofList_injective (LexicalCause.invalidEscape.inj hcause)
      cases htext
      rw [hline c (by simp)] at hd
      cases hd
    · intro hescapes
      refine List.forall_mem_cons.2 ⟨rfl, sameLine_singleton.2 ?_⟩
      exact Bool.eq_false_iff.2 fun hc => hescapes ⟨c, hc, rfl⟩
  | @unicodeEscape ds _ hds =>
    rw [LexicalCause.invalidEscape_message]
    refine ⟨?_, fun _ => List.forall_mem_cons.2 ⟨rfl, List.forall_mem_cons.2 ⟨rfl, hds⟩⟩⟩
    rintro - ⟨d, hd, hcause⟩
    have htext : '\\' :: 'u' :: ds = ['\\', d] :=
      String.ofList_injective (LexicalCause.invalidEscape.inj hcause)
    cases htext
    cases hd
  | lineEnd _ => exact hother (.of_all rfl) nofun
  | @digitAfterZero c _ hc =>
    refine hother (.stringAppend (.stringAppend (.of_all rfl) ?_) (.of_all rfl)) nofun
    rw [Char.toString, String.toList_singleton]
    exact sameLine_of_isNameContinue
      (List.forall_mem_singleton.2 (isNameContinue_of_isDigit hc))
  | missingDigit _ | missingDigitAtEnd =>
    exact hother (.stringAppend (.of_all rfl) (Character.describeNext_sameLine _)) nofun

theorem Keyword.text_sameLine (k : Keyword) : SameLine k.text.toList := by
  cases k <;> exact .of_all rfl

/-- What is held against a token of a source is told in one line. -/
theorem Refusal.message_sameLine (r : Refusal) {t : Token} (ht : t.toLexeme.Sourced) :
    SameLine (r.error t).cause.message.toList := by
  have hfound := Lexeme.describe_sameLine ht
  cases r with
  | unexpected notes => exact .stringAppend (.of_all rfl) hfound
  | wrongKind expected =>
    have hexpected := TokenKind.describe_sameLine expected
    have hbefore : SameLine ("expected " ++ expected.describe ++ ", found ").toList :=
      .stringAppend (.stringAppend (.of_all rfl) hexpected) (.of_all rfl)
    exact hbefore.stringAppend (TokenKind.describe_sameLine t.kind)
  | wrongKeyword expected =>
    have hexpected := expected.text_sameLine
    have hbefore : SameLine ("expected keyword `" ++ expected.text ++ "`, found ").toList :=
      .stringAppend (.stringAppend (.of_all rfl) hexpected) (.of_all rfl)
    exact hbefore.stringAppend hfound

theorem SyntaxCause.tooDeep_message_sameLine (limit : Nat) :
    SameLine (tooDeep limit).message.toList :=
  .stringAppend (.stringAppend (.of_all rfl) (toString_sameLine limit)) (.of_all rfl)

/-! ### Reports -/

/-- The place in front of a message is on one line, so all depends on the message. -/
theorem Report.oneLine_sameLine (r : Report) :
    SameLine r.oneLine.toList ↔ SameLine r.message.toList := by
  have hplace : SameLine (place r.span ++ ": error: ").toList :=
    .stringAppend (.stringAppend (.stringAppend (.stringAppend (.of_all rfl)
      (toString_sameLine _)) (.of_all rfl)) (toString_sameLine _)) (.of_all rfl)
  rw [oneLine, String.toList_append (t := r.message)]
  exact ⟨fun h => (List.forall_mem_append.1 h).2, hplace.append⟩

theorem fault_oneLine_sameLine {source : String} {f : LexicalError}
    (h : .error f ∈ tokenize source) :
    SameLine f.report.oneLine.toList ↔ ¬f.cause.EscapesLineBreak := by
  obtain ⟨_, _, _, -, -, hpoints⟩ := pointsAt_of_mem_tokenize h
  exact f.report.oneLine_sameLine.trans hpoints.message_sameLine_iff

/-- A lexical fault that is a backslash in front of a line break. -/
def SyntaxCause.EscapesLineBreak (cause : SyntaxCause) : Prop :=
  ∃ f : LexicalError, cause = .lexical f ∧ f.cause.EscapesLineBreak

theorem error_oneLine_sameLine {options : ParseOptions} {source : String} {e : SyntaxError}
    (h : Document.ofSource options source = .error e) :
    SameLine e.report.oneLine.toList ↔ ¬e.cause.EscapesLineBreak := by
  have hother (hsame : SameLine e.cause.message.toList)
      (hcause : ∀ f, e.cause ≠ .lexical f) :
      SameLine e.report.oneLine.toList ↔ ¬e.cause.EscapesLineBreak :=
    ⟨fun _ ⟨f, hf, _⟩ => hcause f hf, fun _ => e.report.oneLine_sameLine.2 hsame⟩
  rcases Document.ofItems_error_cases h with ⟨f, hf, rfl⟩ | ⟨t, ht, ⟨r, rfl⟩ | rfl⟩
  · refine (fault_oneLine_sameLine hf).trans (not_congr ⟨fun hescapes => ⟨f, rfl, hescapes⟩, ?_⟩)
    rintro ⟨f', hcause, hescapes⟩
    cases hcause
    exact hescapes
  · exact hother (r.message_sameLine ht.sourced) (r.error_cause_ne t)
  · exact hother (SyntaxCause.tooDeep_message_sameLine _) nofun

/-- What is noted down about an error is in one line if its report is. -/
theorem journal_sameLine (e : SyntaxError) :
    (∀ entry ∈ journal (.error e), SameLine entry.message.toList) ↔
      SameLine e.report.oneLine.toList := by
  have hbefore : SameLine "failed to parse GraphQL document: ".toList := .of_all rfl
  rw [journal, List.forall_mem_cons, List.forall_mem_singleton, String.toList_append]
  constructor
  · rintro ⟨-, h⟩
    exact (List.forall_mem_append.1 h).2
  · intro h
    exact ⟨.of_all rfl, hbefore.append h⟩

/-- The faults of a source and the errors for which it is not read are told in
one line, and so is what is noted down about them.  The exception is a backslash
in front of a line break: the break is part of the report then. -/
theorem reported_in_one_line_iff (source : String) :
    (∀ f, .error f ∈ tokenize source →
      (SameLine f.report.oneLine.toList ↔ ¬f.cause.EscapesLineBreak)) ∧
    ∀ options e, Document.ofSource options source = .error e →
      (SameLine e.report.oneLine.toList ↔ ¬e.cause.EscapesLineBreak) ∧
      ((∀ entry ∈ journal (.error e), SameLine entry.message.toList) ↔
        ¬e.cause.EscapesLineBreak) := by
  refine ⟨fun f hf => fault_oneLine_sameLine hf, fun options e he => ?_⟩
  have hreport := error_oneLine_sameLine he
  exact ⟨hreport, (journal_sameLine e).trans hreport⟩

/-- The fault of the text `{`, CR LF, LINE SEPARATOR. -/
def lineSeparator : LexicalError :=
  .of (.unexpectedCharacter '\u2028') ⟨⟨3, 1, 0, 3⟩, ⟨4, 1, 1, 6⟩⟩

theorem reported_in_one_line_iff_lineSeparator :
    .error lineSeparator ∈ tokenize "\x7b\r\n\u2028" ∧
      Document.ofSource ⟨64⟩ "\x7b\r\n\u2028" = .error (.ofLexical lineSeparator) ∧
      SameLine lineSeparator.report.oneLine.toList ∧
      ∀ entry ∈ journal (.error (.ofLexical lineSeparator)), SameLine entry.message.toList := by
  obtain ⟨hfaults, herrors⟩ := reported_in_one_line_iff "\x7b\r\n\u2028"
  have htokens : tokenize "\x7b\r\n\u2028" =
      [.ok ⟨.ofPunctuator .braceOpen, ⟨0, 0, 0, 0⟩, ⟨1, 0, 1, 1⟩⟩, .error lineSeparator] := by
    rw [tokenize_eq_firstItems]
    rfl
  have hfault : .error lineSeparator ∈ tokenize "\x7b\r\n\u2028" := by
    rw [htokens]
    exact List.mem_cons_of_mem _ (List.mem_singleton_self _)
  have herror : Document.ofSource ⟨64⟩ "\x7b\r\n\u2028" = .error (.ofLexical lineSeparator) := by
    rw [Document.ofSource, htokens]
    rfl
  have hcause : ¬lineSeparator.cause.EscapesLineBreak := by
    rintro ⟨_, _, hcause⟩
    cases hcause
  have hcause' : ¬(SyntaxError.ofLexical lineSeparator).cause.EscapesLineBreak := by
    rintro ⟨f, hf, hescapes⟩
    cases hf
    exact hcause hescapes
  exact ⟨hfault, herror, (hfaults _ hfault).2 hcause, (herrors _ _ herror).2.2 hcause'⟩

/-- The fault of a string that starts with a backslash at the end of its line. -/
def escapedLineFeed : LexicalError :=
  ⟨.invalidEscape "\\\n", ⟨⟨1, 0, 1, 1⟩, ⟨3, 1, 0, 3⟩⟩, [Scan.stringNote]⟩

theorem tokenize_escapedLineFeed : tokenize "\"\\\n" = [.error escapedLineFeed] := by
  let fault : Misreading :=
    ⟨[], ['\\', '\n'], .invalidEscape "\\\n", [Scan.stringNote]⟩
  have hbody : Scan.stringBody ['\\', '\n'] = .error fault := by
    rw [Scan.stringBody]
    rfl
  have hread : Scan.lexeme (splitIgnored false (Lexer.new "\"\\\n").rest).2 =
      .error (fault.after ['"']) := by
    show Scan.stringLexeme ['\\', '\n'] = _
    rw [Scan.stringLexeme, hbody]
  exact Lexer.items_of_error (Lexer.new_running _) hread

/-- The line feed behind a backslash is part of the report. -/
theorem escapedLineFeed_reported_in_two_lines :
    .error escapedLineFeed ∈ tokenize "\"\\\n" ∧
      Document.ofSource ⟨64⟩ "\"\\\n" = .error (.ofLexical escapedLineFeed) ∧
      ¬SameLine escapedLineFeed.report.oneLine.toList ∧
      ¬SameLine (SyntaxError.ofLexical escapedLineFeed).report.oneLine.toList ∧
      ¬∀ entry ∈ journal (.error (.ofLexical escapedLineFeed)), SameLine entry.message.toList := by
  have hmessage : ¬SameLine escapedLineFeed.cause.message.toList := by
    rw [show escapedLineFeed.cause = .invalidEscape (String.ofList ['\\', '\n']) from rfl,
      LexicalCause.invalidEscape_message]
    exact fun h => absurd (h '\n' (by simp)) (by decide)
  have hreport (r : Report) (hr : r.message = escapedLineFeed.cause.message) :
      ¬SameLine r.oneLine.toList := by
    rw [r.oneLine_sameLine, hr]
    exact hmessage
  refine ⟨tokenize_escapedLineFeed ▸ List.mem_singleton_self _, ?_, hreport _ rfl,
    hreport _ rfl, ?_⟩
  · rw [Document.ofSource, tokenize_escapedLineFeed]
    rfl
  · rw [journal_sameLine]
    exact hreport _ rfl

end GraphQL
