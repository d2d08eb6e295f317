/-
Reading without places.

* `SyntaxError.unplaced` — a syntax error, all places in it left aside;
* `Document.ofItems_unplaced` — places decide nothing: reading items without
  their places leads to the same, but for the places in errors;
* `Document.ofSource_insert` — so ignored text between tokens means nothing.

Design notes: messages do not speak of places, so an error without its places
still has its message and its notes.
-/
import GraphQL.Proofs.Grammar.Stream
import GraphQL.Proofs.Lexical.Insertion

namespace GraphQL

/-- The cause of an error, all places in it left aside. -/
def SyntaxCause.unplaced : SyntaxCause → SyntaxCause
  | unexpectedToken found => unexpectedToken found.unplaced
  | wrongKind expected found => wrongKind expected found
  | wrongKeyword expected found => wrongKeyword expected found.unplaced
  | tooDeep limit => tooDeep limit
  | lexical error => lexical error.unplaced

/-- A syntax error, all places in it left aside. -/
def SyntaxError.unplaced (e : SyntaxError) : SyntaxError :=
  ⟨e.cause.unplaced, .emptyAt .zero, e.notes⟩

theorem SyntaxCause.message_unplaced (c : SyntaxCause) : c.unplaced.message = c.message := by
  cases c <;> rfl

/-- Errors that differ in places only say the same. -/
theorem SyntaxError.message_notes_of_unplaced {e e' : SyntaxError}
    (h : e'.unplaced = e.unplaced) : e'.cause.message = e.cause.message ∧ e'.notes = e.notes := by
  constructor
  · calc e'.cause.message = e'.unplaced.cause.message := e'.cause.message_unplaced.symm
      _ = e.unplaced.cause.message := by rw [h]
      _ = e.cause.message := e.cause.message_unplaced
  · show e'.unplaced.notes = e.unplaced.notes
    rw [h]

theorem Refusal.error_unplaced (r : Refusal) (t : Token) :
    (r.error t.unplaced).unplaced = (r.error t).unplaced := by
  cases r <;> rfl

theorem viewed_map_unplaced (all us : List Token) :
    (viewed (all.map Token.unplaced) (us.map Token.unplaced)).unplaced =
      (viewed all us).unplaced := by
  cases us <;> rfl

/-- Whether tokens have places does not matter for which one is in view. -/
theorem blamed_map_unplaced (all : List Token) (rest : List Lexeme) :
    (blamed (all.map Token.unplaced) rest).unplaced = (blamed all rest).unplaced := by
  rw [blamed, List.length_map, ← List.map_drop, viewed_map_unplaced, blamed]

/-- Outcomes that one verdict foretells, with places and without, differ in
places only. -/
theorem Verdict.Describes.unplaced {limit : Nat} {all : List Token} {tail : List Item} {α : Type}
    {v : Verdict α} {o o' : Outcome α} (h : v.Describes limit all tail o)
    (h' : v.Describes limit (all.map Token.unplaced) (tail.map Item.unplaced) o') :
    o'.toExcept.mapError SyntaxError.unplaced = o.toExcept.mapError SyntaxError.unplaced := by
  cases v with
  | accept a rest =>
    obtain ⟨s, us, rfl, _, _⟩ := h
    obtain ⟨s', us', rfl, _, _⟩ := h'
    rfl
  | refuse r rest =>
    obtain ⟨s, rfl⟩ := h
    obtain ⟨s', rfl⟩ := h'
    have herror : (r.error (blamed (all.map Token.unplaced) rest)).unplaced =
        (r.error (blamed all rest)).unplaced := by
      rw [← r.error_unplaced, blamed_map_unplaced, r.error_unplaced]
    exact congrArg Except.error herror
  | tooDeep rest =>
    obtain ⟨s, rfl⟩ := h
    obtain ⟨s', rfl⟩ := h'
    rfl
  | broken =>
    obtain ⟨e, more, s, rfl, rfl⟩ := h
    obtain ⟨e', more', s', htail, rfl⟩ := h'
    cases htail
    rfl

namespace Document

/-- Places decide nothing: without them, items are read as the same document,
or refused for the same reason. -/
theorem ofItems_unplaced (options : ParseOptions) (items : List Item) :
    (ofItems options (items.map Item.unplaced)).mapError SyntaxError.unplaced =
      (ofItems options items).mapError SyntaxError.unplaced := by
  rcases items_cases items with ⟨e, more, rfl⟩ | ⟨ts, tail, rfl, htail, hne⟩
  · rfl
  · have htail' : IsTail (tail.map Item.unplaced) := by
      rcases htail with rfl | ⟨e, more, rfl⟩
      · exact .inl rfl
      · exact .inr ⟨_, _, rfl⟩
    have hne' : ts.map Token.unplaced ≠ [] ∨ tail.map Item.unplaced = [] := by simpa using hne
    have hd := document_describes ts htail hne options
    have hd' := document_describes (ts.map Token.unplaced) htail' hne' options
    have hlexemes : (ts.map Token.unplaced).map Token.toLexeme = ts.map Token.toLexeme := by
      simp [Token.unplaced]
    have hitems : (ts.map Except.ok ++ tail).map Item.unplaced =
        (ts.map Token.unplaced).map Except.ok ++ tail.map Item.unplaced := by
      simp [Item.unplaced]
    rw [hlexemes, List.isEmpty_map] at hd'
    rw [hitems]
    exact hd.unplaced hd'

/-- Results that differ in places only are the same document, or two errors. -/
theorem agree_of_mapError_eq {x x' : Except SyntaxError Document}
    (h : x'.mapError SyntaxError.unplaced = x.mapError SyntaxError.unplaced) :
    (∃ d, x = .ok d ∧ x' = .ok d) ∨
      ∃ e e', x = .error e ∧ x' = .error e' ∧ e'.unplaced = e.unplaced := by
  cases x with
  | ok d =>
    cases x' with
    | ok d' =>
      cases h
      exact .inl ⟨d, rfl, rfl⟩
    | error e' => cases h
  | error e =>
    cases x' with
    | ok d' => cases h
    | error e' => exact .inr ⟨e, e', rfl, rfl, Except.error.inj h⟩

/-- Items that differ in places only are read as the same document, or refused
for the same reason. -/
theorem ofItems_congr_unplaced (options : ParseOptions) {items items' : List Item}
    (h : items'.map Item.unplaced = items.map Item.unplaced) :
    (ofItems options items').mapError SyntaxError.unplaced =
      (ofItems options items).mapError SyntaxError.unplaced := by
  rw [← ofItems_unplaced, h, ofItems_unplaced]

/-- Ignored text that is put in at the start or the end of a token means
nothing: the same document is read, or the source is refused with an error that
differs in its places only. -/
theorem ofSource_insert (options : ParseOptions) {p w q : String} {t : Token}
    (ht : .ok t ∈ tokenize (p ++ q)) (hcut : t.span.HasEnd p.utf8ByteSize)
    (hw : IsIgnoredText w.toList) :
    (∃ d, ofSource options (p ++ q) = .ok d ∧ ofSource options (p ++ w ++ q) = .ok d) ∨
      ∃ e e', ofSource options (p ++ q) = .error e ∧ ofSource options (p ++ w ++ q) = .error e' ∧
        e'.unplaced = e.unplaced ∧ e'.cause.message = e.cause.message ∧ e'.notes = e.notes := by
  have hsame := ofItems_congr_unplaced options (tokenize_insert ht hcut hw)
  rcases agree_of_mapError_eq hsame with hok | ⟨e, e', he, he', h⟩
  · exact .inl hok
  · exact .inr ⟨e, e', he, he', h, SyntaxError.message_notes_of_unplaced h⟩

/-- The number of `{a(b:0x:?`. -/
def zeroArgument : Token := ⟨⟨.int, some "0"⟩, ⟨5, 0, 5, 5⟩, ⟨6, 0, 6, 6⟩⟩

theorem zeroArgument_mem : .ok zeroArgument ∈ tokenize ("\x7ba(b:0" ++ "x:?") := by
  have hfifth : (tokenize ("\x7ba(b:0" ++ "x:?"))[5]? = some (.ok zeroArgument) := by
    rw [tokenize_eq_firstItems]
    rfl
  exact List.mem_of_getElem? hfifth

/-- A comment between a number and the name that follows it directly. -/
theorem ofSource_insert_zeroArgument :
    .ok zeroArgument ∈ tokenize ("\x7ba(b:0" ++ "x:?") ∧
      zeroArgument.span.HasEnd "\x7ba(b:0".utf8ByteSize ∧ IsIgnoredText "#0\r\n,".toList ∧
      ((∃ d, ofSource ⟨9⟩ ("\x7ba(b:0" ++ "x:?") = .ok d ∧
          ofSource ⟨9⟩ ("\x7ba(b:0" ++ "#0\r\n," ++ "x:?") = .ok d) ∨
        ∃ e e', ofSource ⟨9⟩ ("\x7ba(b:0" ++ "x:?") = .error e ∧
          ofSource ⟨9⟩ ("\x7ba(b:0" ++ "#0\r\n," ++ "x:?") = .error e' ∧
          e'.unplaced = e.unplaced ∧ e'.cause.message = e.cause.message ∧ e'.notes = e.notes) := by
  have hcut : zeroArgument.span.HasEnd "\x7ba(b:0".utf8ByteSize := .inr rfl
  have hw : IsIgnoredText ('#' :: (['0'] ++ '\r' :: ['\n', ','])) :=
    .comment (by simp [isLineBreak]) rfl (.ignored rfl (.ignored rfl .nil))
  exact ⟨zeroArgument_mem, hcut, hw, ofSource_insert ⟨9⟩ zeroArgument_mem hcut hw⟩

end Document

end GraphQL
