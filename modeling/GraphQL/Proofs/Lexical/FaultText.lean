/-
The text that a lexical fault points at.

* `PointsAt` — what each cause says of the text under the fault, of the text
  behind it and of the notes that come with it;
* `Scan.Exact` — a scan stays on its line, and its faults point at their text;
  reading in sequence keeps this;
* `Lexer.read_of_mem_items` — every item of a lexer is what can be read where it
  starts, or why nothing can;
* `tokenize_fault_pointsAt` — so the faults of a source point at their text.

Design notes: a fault is found while its lexeme is read, and moves to the right
with every piece that was read before.  Only `before` grows then; the text of a
fault, what follows it and its cause stay as they were where it was found.
-/
import GraphQL.Proofs.Lexical.NumberToken
import GraphQL.Proofs.Lexical.StringToken
import GraphQL.Proofs.Lexical.Tiling
import GraphQL.Proofs.Text.Line

namespace GraphQL

/-- How to mend two dots. -/
def spreadNote : Note := .help "Add one more `.` to form the spread operator `...`"

/-- How to mend a string that is not closed. -/
def closingNote : Note := .help "Add closing `\"`"

/-- What the cause and the notes of a fault say of the text that the fault points
at, and of the text behind it. -/
inductive PointsAt : (text rest : List Char) → LexicalCause → List Note → Prop
  | unexpected {c : Char} {rest : List Char} (hc : c ≠ '.') :
    PointsAt [c] rest (.unexpectedCharacter c) []
  | dot {rest : List Char} (h : rest.head? ≠ some '.') :
    PointsAt ['.'] rest (.unexpectedCharacter '.') []
  | twoDots {rest : List Char} (h : rest.head? ≠ some '.') :
    PointsAt ['.', '.'] rest (.unexpectedCharacter '.') [spreadNote]
  | control {c : Char} {rest : List Char} : PointsAt [c] rest (.invalidCharacter c) []
  | controlInString {c : Char} {rest : List Char} :
    PointsAt [c] rest (.invalidCharacterInString c) []
  | shortEscape {c : Char} {rest : List Char} :
    PointsAt ['\\', c] rest (.invalidEscape (String.ofList ['\\', c])) [Scan.stringNote]
  | unicodeEscape {ds rest : List Char} (h : SameLine ds) :
    PointsAt ('\\' :: 'u' :: ds) rest (.invalidEscape (String.ofList ('\\' :: 'u' :: ds)))
      [Scan.stringNote]
  | lineEnd {rest : List Char} (h : ∀ c ∈ rest.head?, isLineBreak c = true) :
    PointsAt [] rest .unterminatedString [closingNote]
  | digitAfterZero {c : Char} {rest : List Char} (hc : c.isDigit = true) :
    PointsAt [c] rest (.digitAfterZero c) [Scan.integerNote]
  | missingDigit {c : Char} {rest : List Char} (hc : c.isDigit = false) :
    PointsAt [c] rest (.missingDigit (some c)) []
  | missingDigitAtEnd : PointsAt [] [] (.missingDigit none) []

/-- The text that a cause carries. -/
def LexicalCause.payload : LexicalCause → List Char
  | unexpectedCharacter c | invalidCharacter c | invalidCharacterInString c | digitAfterZero c =>
    [c]
  | invalidEscape text => text.toList
  | unterminatedString => []
  | missingDigit found => found.toList

namespace PointsAt

variable {text rest : List Char} {cause : LexicalCause} {notes : List Note}
  (h : PointsAt text rest cause notes)
include h

/-- A fault points at the text that its cause carries, but for two dots. -/
theorem text_eq : text = cause.payload ∨ text = ['.', '.'] := by
  cases h with
  | twoDots _ => exact .inr rfl
  | shortEscape => exact .inl String.toList_ofList.symm
  | unicodeEscape _ => exact .inl String.toList_ofList.symm
  | _ => exact .inl rfl

/-- Only two dots come with the advice to add a third. -/
theorem spreadNote_mem_iff : spreadNote ∈ notes ↔ text = ['.', '.'] := by
  cases h <;> simp [spreadNote, closingNote, Scan.stringNote, Scan.integerNote, Note.help, Note.spec]

end PointsAt

/-- A fault of a text stands on the line on which its lexeme starts, and points
at its own text. -/
structure Misreading.Exact (e : Misreading) (cs : List Char) : Prop where
  before : SameLine e.before
  text : ∃ rest, e.consumed ++ rest = cs ∧ PointsAt e.text rest e.cause e.notes

/-- A fault stays exact when it is seen from further left. -/
theorem Misreading.Exact.after {e : Misreading} {cs text : List Char} (h : e.Exact cs)
    (ht : SameLine text) : (e.after text).Exact (text ++ cs) := by
  obtain ⟨rest, hcs, hpoints⟩ := h.text
  refine ⟨ht.append h.before, rest, ?_, hpoints⟩
  rw [consumed_after, List.append_assoc, hcs]

/-- A fault with no text in front of it. -/
theorem Misreading.Exact.start {text rest : List Char} {cause : LexicalCause} {notes : List Note}
    (h : PointsAt text rest cause notes) : Exact ⟨[], text, cause, notes⟩ (text ++ rest) :=
  ⟨sameLine_nil, rest, rfl, h⟩

namespace Scan

/-- A scan is exact if no line ends inside what it reads, and its faults are exact. -/
structure Exact {α : Type} (s : Scan α) : Prop where
  text : ∀ ⦃cs r⦄, s cs = .ok r → r.text ++ r.rest = cs ∧ SameLine r.text
  fault : ∀ ⦃cs e⦄, s cs = .error e → e.Exact cs

theorem Exact.pure {α : Type} (a : α) : Exact (Pure.pure a : Scan α) where
  text := by
    intro cs r h
    rw [pure_eq_ok_iff.1 h]
    exact ⟨rfl, sameLine_nil⟩
  fault := by
    intro cs e h
    cases h

theorem Exact.bind {α β : Type} {s : Scan α} {f : α → Scan β} (hs : Exact s)
    (hf : ∀ a, Exact (f a)) : Exact (s >>= f) where
  text := by
    intro cs r h
    obtain ⟨a, b, ha, hb, rfl⟩ := bind_eq_ok_iff.1 h
    obtain ⟨hcs, hline⟩ := hs.text ha
    obtain ⟨hrest, hline'⟩ := (hf _).text hb
    exact ⟨by rw [List.append_assoc, hrest, hcs], hline.append hline'⟩
  fault := by
    intro cs e h
    rcases bind_eq_error_iff.1 h with h | ⟨a, e', ha, he, rfl⟩
    · exact hs.fault h
    · obtain ⟨rfl, hline⟩ := hs.text ha
      exact ((hf _).fault he).after hline

theorem Exact.ite {α : Type} {p : Prop} [Decidable p] {s t : Scan α} (hs : Exact s)
    (ht : Exact t) : Exact (if p then s else t) := by
  split <;> assumption

theorem Exact.optional {marks : List Char} (hmarks : SameLine marks) : Exact (optional marks) where
  text := by
    intro cs r h
    refine ⟨Faithful.optional marks h, ?_⟩
    rcases optional_eq_ok_iff.1 h with ⟨-, c, hc, htext, -⟩ | ⟨-, htext, -⟩
    · rw [htext]
      exact sameLine_singleton.2 (hmarks c hc)
    · rw [htext]
      exact sameLine_nil
  fault := fun cs e h => absurd ⟨e, h, rfl⟩ (not_optional_failsWith marks)

/-! ### Numbers -/

theorem Exact.digits : Exact digits where
  text := fun cs r h => ⟨Faithful.digits h, (digits_eq_ok_iff.1 h).1.sameLine⟩
  fault := by
    intro cs e h
    cases cs with
    | nil =>
      cases h
      exact .start .missingDigitAtEnd
    | cons c cs =>
      rw [Scan.digits] at h
      split at h
      · cases h
      · next hc =>
        cases h
        exact .start (.missingDigit (by simpa using hc))

theorem Exact.noDigit : Exact noDigit where
  text := by
    intro cs r h
    refine ⟨Faithful.noDigit h, ?_⟩
    rw [(noDigit_eq_ok_iff.1 h).1]
    exact sameLine_nil
  fault := by
    intro cs e h
    cases cs with
    | nil => cases h
    | cons c cs =>
      rw [Scan.noDigit] at h
      split at h
      · next hc =>
        cases h
        exact .start (.digitAfterZero hc)
      · cases h

theorem Exact.number : Exact number := by
  have hmark {marks : List Char} (h : marks.all (!isLineBreak ·) = true) :
      Exact (Scan.optional marks) := .optional fun c hc => by simpa using List.all_eq_true.1 h c hc
  have hinteger : Exact integerPart := .bind (hmark rfl) fun _ => .ite .noDigit .digits
  have hfraction : Exact fraction :=
    .bind (hmark rfl) fun _ => .ite (.bind .digits fun _ => .pure _) (.pure _)
  have hexponent : Exact exponent :=
    .bind (hmark rfl) fun _ =>
      .ite (.bind (hmark rfl) fun _ => .bind .digits fun _ => .pure _) (.pure _)
  exact .bind (hmark rfl) fun _ => .bind hinteger fun _ => .bind hfraction fun _ =>
    .bind hexponent fun _ => .pure _

/-! ### Strings -/

theorem escape_exact {cs : List Char} {e : Misreading} (h : escape cs = .error e) :
    e.Exact ('\\' :: cs) := by
  cases cs with
  | nil =>
    cases h
    exact ⟨by simp [SameLine, isLineBreak, unterminated], [], rfl, .lineEnd (by simp)⟩
  | cons c cs =>
    rw [escape] at h
    split at h
    · next hc =>
      subst hc
      split at h
      · cases h
      · cases h
        have hpoints : PointsAt ('\\' :: 'u' :: unicodeDigits cs)
            (cs.drop (unicodeDigits cs).length) _ _ := .unicodeEscape (unicodeDigits_sameLine cs)
        have hexact := Misreading.Exact.start hpoints
        rwa [List.cons_append, List.cons_append, unicodeDigits_append] at hexact
    · split at h
      · cases h
      · cases h
        exact .start .shortEscape

theorem Exact.stringUnit : Exact stringUnit where
  text := fun cs r h => ⟨stringUnit_append h, stringUnit_sameLine h⟩
  fault := by
    intro cs e h
    cases cs with
    | nil =>
      cases h
      exact .start (.lineEnd (by simp))
    | cons c cs =>
      rw [Scan.stringUnit] at h
      split at h
      · next hc => exact hc ▸ escape_exact h
      · split at h
        · next hbreak =>
          cases h
          have hpoints : PointsAt [] (c :: cs) .unterminatedString [closingNote] :=
            .lineEnd (by simpa using hbreak)
          exact .start hpoints
        · split at h
          · cases h
            exact .start .controlInString
          · cases h

theorem stringBody_exact {cs : List Char} {e : Misreading} (h : stringBody cs = .error e) :
    e.Exact cs := by
  fun_induction stringBody cs generalizing e with
  | case1 => cases h
  | case2 cs hq e' hu =>
    cases h
    exact Exact.stringUnit.fault hu
  | case3 cs hq u hu e' he ih =>
    cases h
    obtain ⟨hcs, hline⟩ := Exact.stringUnit.text hu
    exact hcs ▸ (ih he).after hline
  | case4 => cases h

/-! ### Lexemes -/

theorem spread_exact {cs : List Char} {e : Misreading} (h : spread ('.' :: cs) = .error e) :
    e.Exact ('.' :: cs) := by
  rw [spread] at h
  split at h
  · cases h
  · next hthree =>
    split at h
    · next htwo =>
      cases h
      obtain ⟨rest, hrest⟩ := htwo
      cases hrest
      refine .start (.twoDots fun hhead => hthree ?_)
      obtain ⟨more, rfl⟩ := List.head?_eq_some_iff.1 hhead
      exact ⟨more, rfl⟩
    · next htwo =>
      cases h
      refine .start (.dot fun hhead => htwo ?_)
      obtain ⟨more, rfl⟩ := List.head?_eq_some_iff.1 hhead
      exact ⟨more, rfl⟩

/-- The fault for which no lexeme can be read is exact. -/
theorem lexeme_exact {cs : List Char} {e : Misreading} (h : lexeme cs = .error e) : e.Exact cs := by
  cases cs with
  | nil => cases h
  | cons c cs =>
    rw [lexeme] at h
    split at h
    · cases h
    · split at h
      · next hc => exact hc ▸ spread_exact (hc ▸ h)
      · next hdot =>
        split at h
        · next hc =>
          rw [stringLexeme] at h
          split at h
          · next he =>
            cases h
            subst hc
            exact (stringBody_exact he).after (sameLine_singleton.2 rfl)
          · cases h
        · split at h
          · cases h
          · split at h
            · rw [numberLexeme] at h
              split at h
              · next he =>
                cases h
                exact Exact.number.fault he
              · cases h
            · split at h <;> cases h
              · exact .start .control
              · exact .start (.unexpected hdot)

end Scan

/-! ### Items -/

/-- The item of a source that starts behind a text, where `rest` comes next: the
token that can be read there, or why there is none. -/
def Item.readAt (before rest : List Char) : Item :=
  match Scan.lexeme rest with
  | .ok r => .ok ⟨r.value, .behind before r.text⟩
  | .error e => .error (e.locate (.behind before))

theorem Item.readAt_nil (before : List Char) :
    Item.readAt before [] = .ok (.endAt (.behind before)) := by
  show Except.ok (Token.mk _ ⟨.behind before, .behind (before ++ [])⟩) = _
  rw [List.append_nil]
  rfl

theorem Item.readAt_of_ok {rest : List Char} {r : Reading Lexeme} (h : Scan.lexeme rest = .ok r)
    (before : List Char) : Item.readAt before rest = .ok ⟨r.value, .behind before r.text⟩ := by
  rw [readAt, h]

theorem Item.readAt_of_error {rest : List Char} {e : Misreading}
    (h : Scan.lexeme rest = .error e) (before : List Char) :
    Item.readAt before rest = .error (e.locate (.behind before)) := by
  rw [readAt, h]

/-- Every item of a lexer is read where it starts, behind all ignored text. -/
theorem Lexer.read_of_mem_items {l : Lexer} {source : String} {front : List Char} (hl : l.Running)
    (h : l.Behind source front) {item : Item} (hi : item ∈ l.items) :
    ∃ before rest, before ++ rest = source.toList ∧ (∀ c ∈ rest.head?, isIgnored c = false) ∧
      item = .readAt before rest := by
  induction hn : l.rest.length using Nat.strongRecOn generalizing l front with
  | _ n ih =>
    obtain ⟨gap, text, hs⟩ : ∃ gap text, splitIgnored false l.rest = (gap, text) := ⟨_, _, rfl⟩
    have hhead : ∀ c ∈ text.head?, isIgnored c = false := by
      intro c hc
      obtain ⟨more, rfl⟩ := List.head?_eq_some_iff.1 hc
      exact (splitIgnored_rest (congrArg Prod.snd hs)).2
    have hhere (heq : item = .readAt (front ++ gap) text) :
        ∃ before rest, before ++ rest = source.toList ∧
          (∀ c ∈ rest.head?, isIgnored c = false) ∧ item = .readAt before rest :=
      ⟨front ++ gap, text, h.append_gap hs, hhead, heq⟩
    by_cases hnil : text = []
    · subst hnil
      rw [items_of_stop hl (by rw [hs]), hs, h.past] at hi
      exact hhere ((List.mem_singleton.1 hi).trans (Item.readAt_nil _).symm)
    · cases hr : Scan.lexeme text with
      | error e =>
        rw [items_of_error hl (by rw [hs]; exact hr), hs, h.past] at hi
        exact hhere ((List.mem_singleton.1 hi).trans (Item.readAt_of_error hr _).symm)
      | ok r =>
        obtain ⟨t, l', hitems, ht, hspan, hl', hrest, h', hlt⟩ := h.items_of_step hl hs hnil hr
        rw [hitems] at hi
        rcases List.mem_cons.1 hi with rfl | hi
        · rw [h.past, Cursor.spanOf_behind] at hspan
          exact hhere (by rw [Item.readAt_of_ok hr, ← ht, ← hspan])
        · exact ih _ (hn ▸ hlt) hl' h' hi rfl

theorem read_of_mem_tokenize {source : String} {item : Item} (hi : item ∈ tokenize source) :
    ∃ before rest, before ++ rest = source.toList ∧ (∀ c ∈ rest.head?, isIgnored c = false) ∧
      item = .readAt before rest :=
  Lexer.read_of_mem_items (Lexer.new_running source) (Lexer.new_behind source) hi

/-- The span of a fault of a source is that of the text that the fault points at. -/
theorem pointsAt_of_mem_tokenize {source : String} {e : LexicalError}
    (h : .error e ∈ tokenize source) :
    ∃ before text rest, before ++ text ++ rest = source.toList ∧
      e.span = .behind before text ∧ PointsAt text rest e.cause e.notes := by
  obtain ⟨before, rest, hsource, -, hread⟩ := read_of_mem_tokenize h
  cases hr : Scan.lexeme rest with
  | ok r =>
    rw [Item.readAt_of_ok hr] at hread
    cases hread
  | error e' =>
    rw [Item.readAt_of_error hr, Except.error.injEq] at hread
    subst hread
    obtain ⟨more, hrest, hpoints⟩ := (Scan.lexeme_exact hr).text
    refine ⟨before ++ e'.before, e'.text, more, ?_, ?_, hpoints⟩
    · rw [← hsource, ← hrest, Misreading.consumed]
      simp only [List.append_assoc]
    · rw [Misreading.locate, Cursor.behind_past, Cursor.spanOf_behind]

/-- A fault of a source covers the text that its cause carries, and what follows
that text is as the cause says.  Two dots in the place of an ellipsis are the one
text of more than its cause, and the one with the advice to add a dot. -/
theorem tokenize_fault_pointsAt {source : String} {e : LexicalError}
    (h : .error e ∈ tokenize source) :
    ∃ before text rest, before ++ text ++ rest = source.toList ∧
      e.span = ⟨.behind before, .behind (before ++ text)⟩ ∧
      e.span.slice? source = some (String.ofList text) ∧
      PointsAt text rest e.cause e.notes ∧
      (text = e.cause.payload ∨ text = ['.', '.']) ∧
      (spreadNote ∈ e.notes ↔ text = ['.', '.']) ∧
      (e.span.isEmpty = true ↔ text = []) := by
  obtain ⟨before, text, rest, hsource, hspan, hpoints⟩ := pointsAt_of_mem_tokenize h
  refine ⟨before, text, rest, hsource, hspan, ?_, hpoints, hpoints.text_eq,
    hpoints.spreadNote_mem_iff, ?_⟩
  · rw [hspan, Span.slice?_behind hsource]
  · rw [hspan]
    constructor
    · intro hempty
      refine Classical.byContradiction fun hne => ?_
      rw [Span.isEmpty_behind hne] at hempty
      cases hempty
    · intro hnil
      rw [hnil, Span.behind, List.append_nil]
      exact beq_iff_eq.2 (Nat.sub_self _)

/-- The fault of the text `#é`, CR LF, `{ ..b`. -/
def twoDots : LexicalError :=
  ⟨.unexpectedCharacter '.', ⟨⟨6, 1, 2, 7⟩, ⟨8, 1, 4, 9⟩⟩, [spreadNote]⟩

theorem tokenize_fault_pointsAt_twoDots :
    .error twoDots ∈ tokenize "#é\r\n\x7b ..b" ∧
      ∃ before text rest, before ++ text ++ rest = "#é\r\n\x7b ..b".toList ∧
        twoDots.span = ⟨.behind before, .behind (before ++ text)⟩ ∧
        twoDots.span.slice? "#é\r\n\x7b ..b" = some (String.ofList text) ∧
        PointsAt text rest twoDots.cause twoDots.notes ∧
        (text = twoDots.cause.payload ∨ text = ['.', '.']) ∧
        (spreadNote ∈ twoDots.notes ↔ text = ['.', '.']) ∧
        (twoDots.span.isEmpty = true ↔ text = []) := by
  have h : .error twoDots ∈ tokenize "#é\r\n\x7b ..b" := by
    have hsecond : (tokenize "#é\r\n\x7b ..b")[1]? = some (.error twoDots) := by
      rw [tokenize_eq_firstItems]
      rfl
    exact List.mem_of_getElem? hsecond
  exact ⟨h, tokenize_fault_pointsAt h⟩

end GraphQL
