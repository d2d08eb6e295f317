/-
Excerpts of the source in reports.

* `Span.Within` — a span that covers a part of a source and does not start inside
  of a line break;
* `Document.error_within` — the errors for which a source is not read have such
  spans;
* `Report.excerpt_behind` — the excerpt under such a report;
* `Document.error_underlines` — so a report in full shows the line on which the
  error starts, and its carets stand under the text that the error covers.

Design notes: tokens and faults start with a character that is not ignored, or on
the line of one, so none of them starts at an LF.  The end of the input may be
reported behind a CR, but there no LF follows.
-/
import GraphQL.Proofs.Grammar.Blame
import GraphQL.Proofs.Grammar.CorrectPrefix
import GraphQL.Proofs.Lexical.FaultText

namespace GraphQL

/-! ### Where errors stand -/

/-- The span of a part of a source that does not start inside of a line break. -/
def Span.Within (source : String) (s : Span) : Prop :=
  ∃ before text rest, before ++ text ++ rest = source.toList ∧ s = .behind before text ∧
    ¬CutsBreak before (text ++ rest)

theorem not_cutsBreak_of_not_ignored {rest : List Char}
    (h : ∀ c ∈ rest.head?, isIgnored c = false) (before : List Char) : ¬CutsBreak before rest :=
  fun hcut => absurd (h '\n' hcut.2) (by decide)

theorem Span.behind_nil (before : List Char) : behind before [] = .emptyAt (.behind before) := by
  rw [behind, List.append_nil]
  rfl

theorem fault_within {source : String} {f : LexicalError} (h : .error f ∈ tokenize source) :
    f.span.Within source := by
  obtain ⟨before, rest, hsource, hhead, hread⟩ := read_of_mem_tokenize h
  cases hr : Scan.lexeme rest with
  | ok r =>
    rw [Item.readAt_of_ok hr] at hread
    cases hread
  | error e =>
    rw [Item.readAt_of_error hr, Except.error.injEq] at hread
    subst hread
    have hexact := Scan.lexeme_exact hr
    obtain ⟨more, hrest, -⟩ := hexact.text
    rw [Misreading.consumed, List.append_assoc] at hrest
    have hcut : ¬CutsBreak before (e.before ++ (e.text ++ more)) :=
      hrest ▸ not_cutsBreak_of_not_ignored hhead before
    refine ⟨before ++ e.before, e.text, more, ?_, ?_, not_cutsBreak_append hcut hexact.before⟩
    · rw [← hsource, ← hrest]
      simp only [List.append_assoc]
    · rw [Misreading.locate, Cursor.behind_past, Cursor.spanOf_behind]

/-- A token and the place behind it are parts of the source. -/
theorem token_within {source : String} {t : Token} (h : .ok t ∈ tokenize source) :
    t.span.Within source ∧ (Token.endAt t.span.stop).span.Within source := by
  obtain ⟨before, rest, hsource, hhead, hread⟩ := read_of_mem_tokenize h
  by_cases hrest : rest = []
  · rw [hrest, Item.readAt_nil] at hread
    cases hread
    have hend : (Token.endAt (.behind before)).span.Within source :=
      ⟨before, [], [], by rw [← hsource, hrest, List.append_nil],
        (Span.behind_nil before).symm, not_cutsBreak_nil before⟩
    exact ⟨hend, hend⟩
  · cases hr : Scan.lexeme rest with
    | error e =>
      rw [Item.readAt_of_error hr] at hread
      cases hread
    | ok r =>
      rw [Item.readAt_of_ok hr] at hread
      cases hread
      have hcut := not_cutsBreak_of_not_ignored hhead before
      have hsplit : r.text ++ r.rest = rest := Scan.Faithful.lexeme hr
      rw [← hsplit, ← List.append_assoc] at hsource
      rw [← hsplit] at hcut
      have hafter := not_cutsBreak_append hcut (Scan.stands_of_lexeme hrest hr).sameLine
      exact ⟨⟨before, r.text, r.rest, hsource, rfl, hcut⟩, before ++ r.text, [], r.rest,
        by rw [List.append_nil, hsource], (Span.behind_nil _).symm, hafter⟩

theorem InView.within {source : String} {t : Token} (h : InView (tokenize source) t) :
    t.span.Within source := by
  cases h with
  | start => exact ⟨[], [], source.toList, rfl, rfl, nofun⟩
  | item h => exact (token_within h).1
  | stop h => exact (token_within h).2

/-- An error covers a part of the source and does not start inside of a line break. -/
theorem Document.error_within {options : ParseOptions} {source : String} {e : SyntaxError}
    (h : ofSource options source = .error e) : e.span.Within source := by
  rcases ofItems_error_cases h with ⟨f, hf, rfl⟩ | ⟨t, ht, ⟨r, rfl⟩ | rfl⟩
  · exact fault_within hf
  · exact r.error_span t ▸ ht.within
  · exact ht.within

/-! ### Excerpts -/

namespace Report

/-- One caret stands under each character of the first line that a span covers,
and there is always one. -/
theorem caretCount_behind {before text rest : List Char} (h : ¬CutsBreak before (text ++ rest)) :
    caretCount (.behind before text) (lastLine before ++ lineRest (text ++ rest)) =
      max 1 (lineRest text).length := by
  have hcolumn : (Span.behind before text).start.column = (lastLine before).length := rfl
  have hstart : (Span.behind before text).start.line = lineBreaks before := rfl
  have hstop : (Span.behind before text).stop.line = lineBreaks (before ++ text) := rfl
  have hlast : (Span.behind before text).stop.column = (lastLine (before ++ text)).length := rfl
  rw [caretCount, hcolumn, hstart, hstop, hlast]
  have hlines := lineBreaks_append (not_cutsBreak_left h)
  by_cases htext : SameLine text
  · have hsame : lineRest text = text := by
      have hnil := lineRest_of_sameLine htext []
      rwa [List.append_nil, show lineRest [] = [] from rfl, List.append_nil] at hnil
    rw [lineBreaks_eq_zero_iff.2 htext, Nat.add_zero] at hlines
    rw [if_pos hlines, lastLine_append_of_sameLine htext, List.length_append,
      Nat.add_sub_cancel_left, hsame]
  · have hbreak : lineBreaks text ≠ 0 := mt lineBreaks_eq_zero_iff.1 htext
    rw [if_neg (by omega), lineRest_of_not_sameLine htext, List.length_append,
      Nat.add_sub_cancel_left]

/-- The excerpt under a report shows the line on which the span starts, with the
carets under what it covers of that line. -/
theorem excerpt_behind {source : String} {before text rest : List Char}
    (hsource : before ++ text ++ rest = source.toList) (h : ¬CutsBreak before (text ++ rest)) :
    excerpt source (.behind before text) =
      [blanks (gutterWidth (lineBreaks before)) ++ " |",
       numberedGutter (lineBreaks before) ++
         String.ofList (lastLine before ++ lineRest (text ++ rest)),
       blankGutter (lineBreaks before) ++ blanks (lastLine before).length ++
         String.ofList (List.replicate (max 1 (lineRest text).length) '^')] := by
  have hline := line_behind h
  rw [← List.append_assoc, hsource] at hline
  have hstart : (Span.behind before text).start = .behind before := rfl
  rw [excerpt, hstart, hline]
  simp only [caretCount_behind h]
  rfl

/-- Both gutters of an excerpt are equally wide. -/
theorem length_numberedGutter (line : Nat) :
    (numberedGutter line).length = (blankGutter line).length := by
  have hwidth : (lineNumber line).length ≤ gutterWidth line := Nat.le_max_right _ _
  simp only [numberedGutter, blankGutter, blanks, String.length_append, String.length_ofList,
    List.length_replicate]
  omega

/-- A report in full, with the excerpt that belongs to it. -/
theorem render_behind {r : Report} {source : String} {before text rest : List Char}
    (hsource : before ++ text ++ rest = source.toList) (h : ¬CutsBreak before (text ++ rest))
    (hspan : r.span = .behind before text) :
    r.render (some source) =
      "error: " ++ r.message ++ "\n" ++ ("  --> " ++ place r.span ++ "\n" ++
        (blanks (gutterWidth (lineBreaks before)) ++ " |" ++ "\n" ++
          (numberedGutter (lineBreaks before) ++
              String.ofList (lastLine before ++ lineRest (text ++ rest)) ++ "\n" ++
            (blankGutter (lineBreaks before) ++ blanks (lastLine before).length ++
                String.ofList (List.replicate (max 1 (lineRest text).length) '^') ++ "\n" ++
              String.join ((r.notes.flatMap (noteLines (some source))).map (· ++ "\n")))))) := by
  have hlines : r.lines (some source) =
      ["error: " ++ r.message, "  --> " ++ place r.span] ++ excerpt source r.span ++
        r.notes.flatMap (noteLines (some source)) := rfl
  rw [render, hlines, hspan, excerpt_behind hsource h]
  simp only [List.cons_append, List.nil_append, List.map_cons, String.join_cons]

end Report

/-- A report in full shows the line of the source on which it starts, and marks
what it covers of that line.  The source is `before ++ text ++ rest`, and the
report covers `text`. -/
structure Report.Underlines (r : Report) (source : String) (before text rest : List Char)
    (content : List Char) : Prop where
  source_eq : before ++ text ++ rest = source.toList
  span_eq : r.span = ⟨.behind before, .behind (before ++ text)⟩
  slice_eq : r.span.slice? source = some (String.ofList text)
  /-- From the byte on at which the span starts, the source reads so. -/
  drop_eq : dropBytes? r.span.start.byteOffset source.toList = some (text ++ rest)
  /-- The line of the excerpt is the one that the span names. -/
  line_eq : (GraphQL.lines source.toList)[r.span.start.line]? = some content
  column_le : r.span.start.column ≤ content.length
  /-- From the column on at which the span starts, the line reads as the source
  does from the start of the span up to the next line break. -/
  content_eq : content.drop r.span.start.column = lineRest (text ++ rest)
  gutters_eq : (numberedGutter r.span.start.line).length = (blankGutter r.span.start.line).length
  /-- The excerpt stands between the head of the report and its notes. -/
  render_eq : r.render (some source) =
    "error: " ++ r.message ++ "\n" ++ ("  --> " ++ place r.span ++ "\n" ++
      (blanks (gutterWidth r.span.start.line) ++ " |" ++ "\n" ++
        (numberedGutter r.span.start.line ++ String.ofList content ++ "\n" ++
          (blankGutter r.span.start.line ++ blanks r.span.start.column ++
              String.ofList (List.replicate (max 1 (lineRest text).length) '^') ++ "\n" ++
            String.join ((r.notes.flatMap (noteLines (some source))).map (· ++ "\n"))))))

/-- The excerpt under an error shows the line on which the error starts, with the
carets below the first characters that the error covers. -/
theorem Document.error_underlines {options : ParseOptions} {source : String} {e : SyntaxError}
    (h : ofSource options source = .error e) :
    ∃ before text rest content, e.report.Underlines source before text rest content := by
  obtain ⟨before, text, rest, hsource, hspan, hcut⟩ := error_within h
  have hstart : e.report.span.start = .behind before := by
    rw [show e.report.span = .behind before text from hspan]
    rfl
  have hcolumn : e.report.span.start.column = (lastLine before).length := by
    rw [hstart]
    rfl
  have hline := line_behind hcut
  rw [← List.append_assoc, hsource, ← hstart] at hline
  refine ⟨before, text, rest, lastLine before ++ lineRest (text ++ rest), ?_⟩
  refine { source_eq := hsource, span_eq := hspan, slice_eq := ?_, drop_eq := ?_, line_eq := hline,
           column_le := ?_, content_eq := ?_, gutters_eq := Report.length_numberedGutter _,
           render_eq := ?_ }
  · rw [show e.report.span = .behind before text from hspan, Span.slice?_behind hsource]
  · rw [hstart, ← hsource, List.append_assoc]
    exact dropBytes?_append before _
  · rw [hcolumn, List.length_append]
    exact Nat.le_add_right _ _
  · rw [hcolumn, List.drop_left]
  · rw [Report.render_behind hsource hcut hspan, hcolumn, hstart]
    rfl

/-- The fault of the text `#ä`, CR, CR LF, `"\`, CR LF: the backslash and the CR behind it. -/
def escapedReturn : LexicalError :=
  ⟨.invalidEscape "\\\r", ⟨⟨6, 2, 1, 7⟩, ⟨8, 3, 0, 9⟩⟩, [Scan.stringNote]⟩

theorem Document.ofSource_escapedReturn :
    ofSource ⟨64⟩ "#ä\r\r\n\"\\\r\n" = .error (.ofLexical escapedReturn) := by
  let fault : Misreading := ⟨[], ['\\', '\r'], .invalidEscape "\\\r", [Scan.stringNote]⟩
  have hbody : Scan.stringBody ['\\', '\r', '\n'] = .error fault := by
    rw [Scan.stringBody]
    rfl
  have hread : Scan.lexeme (splitIgnored false (Lexer.new "#ä\r\r\n\"\\\r\n").rest).2 =
      .error (fault.after ['"']) := by
    show Scan.stringLexeme ['\\', '\r', '\n'] = _
    rw [Scan.stringLexeme, hbody]
  have htokens : tokenize "#ä\r\r\n\"\\\r\n" = [.error escapedReturn] :=
    Lexer.items_of_error (Lexer.new_running _) hread
  rw [ofSource, htokens]
  rfl

theorem Document.error_underlines_escapedReturn :
    ofSource ⟨64⟩ "#ä\r\r\n\"\\\r\n" = .error (.ofLexical escapedReturn) ∧
      ∃ before text rest content, (SyntaxError.ofLexical escapedReturn).report.Underlines
        "#ä\r\r\n\"\\\r\n" before text rest content :=
  ⟨ofSource_escapedReturn, error_underlines ofSource_escapedReturn⟩

end GraphQL
