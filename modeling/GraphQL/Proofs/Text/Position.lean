/-
The position behind a piece of text.

A cursor counts while it moves.  Here the position behind a text is said
without moving at all.

* `Position.behind`, `Cursor.behind` — where one stands after reading a text;
* `Cursor.behind_past` — moving over more text leads behind both texts;
* `Span.behind` — the span of a text behind another;
* `Span.slice?_behind` — such a span can be cut out of the source, and covers
  the text that it is the span of;
* `Cursor.along`, `Cursor.past_of_sameLine` — text without line breaks can be
  moved over in one step.
-/
import GraphQL.Text.Line
import GraphQL.Text.Position

namespace GraphQL

/-- How many line breaks a text has: the LFs, and the CRs that no LF follows. -/
def lineBreaks : List Char → Nat
  | [] => 0
  | c :: cs =>
    if c = '\n' ∨ (c = '\r' ∧ cs.head? ≠ some '\n') then lineBreaks cs + 1 else lineBreaks cs

/-- The end of a text, from its last LF or CR on. -/
def lastLine (text : List Char) : List Char :=
  (text.reverse.takeWhile fun c => !isLineBreak c).reverse

/-- How many bytes a text takes in UTF-8. -/
def byteLength (text : List Char) : Nat := (String.ofList text).utf8ByteSize

/-- The position behind a text. -/
def Position.behind (text : List Char) : Position :=
  ⟨text.length, lineBreaks text, (lastLine text).length, byteLength text⟩

/-- The cursor behind a text. -/
def Cursor.behind (text : List Char) : Cursor := ⟨.behind text, text.getLast? == some '\r'⟩

/-- The span of a text that stands behind another. -/
def Span.behind (before text : List Char) : Span := ⟨.behind before, .behind (before ++ text)⟩

/-! ### One more character -/

theorem lineBreaks_concat (text : List Char) (c : Char) :
    lineBreaks (text ++ [c]) =
      if c = '\r' ∨ (c = '\n' ∧ text.getLast? ≠ some '\r') then lineBreaks text + 1
      else lineBreaks text := by
  induction text with
  | nil => simp [lineBreaks, or_comm]
  | cons d text ih =>
    cases text with
    | nil =>
      simp only [List.cons_append, List.nil_append, lineBreaks, List.head?_cons, List.head?_nil,
        List.getLast?_singleton]
      grind
    | cons e text =>
      have hfirst (cs : List Char) : lineBreaks (d :: e :: cs) =
          if d = '\n' ∨ (d = '\r' ∧ some e ≠ some '\n') then lineBreaks (e :: cs) + 1
          else lineBreaks (e :: cs) := rfl
      rw [List.cons_append, List.cons_append, hfirst, hfirst, ← List.cons_append, ih,
        List.getLast?_cons_cons]
      split <;> split <;> rfl

theorem lastLine_concat (text : List Char) (c : Char) :
    lastLine (text ++ [c]) = if isLineBreak c then [] else lastLine text ++ [c] := by
  rw [lastLine, List.reverse_append, List.reverse_singleton, List.singleton_append,
    List.takeWhile_cons]
  cases isLineBreak c <;> simp [lastLine]

theorem byteLength_append (as bs : List Char) :
    byteLength (as ++ bs) = byteLength as + byteLength bs := by
  rw [byteLength, String.ofList_append, String.utf8ByteSize_append, byteLength, byteLength]

theorem byteLength_singleton (c : Char) : byteLength [c] = c.utf8Size :=
  String.utf8ByteSize_singleton

theorem byteLength_cons (c : Char) (cs : List Char) :
    byteLength (c :: cs) = c.utf8Size + byteLength cs := by
  rw [← List.singleton_append, byteLength_append, byteLength_singleton]

theorem byteLength_toList (source : String) : byteLength source.toList = source.utf8ByteSize := by
  rw [byteLength, String.ofList_toList]

namespace Cursor

theorem behind_nil : behind [] = start := rfl

/-- Moving over one character leads behind it. -/
theorem behind_advance (text : List Char) (c : Char) :
    (behind text).advance c = behind (text ++ [c]) := by
  have hlast : ((text ++ [c]).getLast? == some '\r') = (c == '\r') := by simp
  simp only [behind, advance, Position.behind, lineBreaks_concat, lastLine_concat, hlast,
    byteLength_append, byteLength_singleton, List.length_append, List.length_singleton]
  by_cases hr : c = '\r'
  · subst hr
    simp [isLineBreak]
  · by_cases hn : c = '\n'
    · subst hn
      by_cases hafter : text.getLast? = some '\r'
      · -- The line has ended at the CR already, and nothing stands on the new one.
        obtain ⟨init, rfl⟩ := List.getLast?_eq_some_iff.1 hafter
        simp [isLineBreak, lastLine_concat]
      · simp [isLineBreak, hafter]
    · simp [isLineBreak, hr, hn]

/-- Moving over more text leads behind both texts. -/
theorem behind_past (before text : List Char) :
    (behind before).past text = behind (before ++ text) := by
  induction text generalizing before with
  | nil => simp
  | cons c text ih =>
    rw [past_cons, behind_advance, ih, List.append_assoc, List.singleton_append]

theorem spanOf_behind (before text : List Char) :
    (behind before).spanOf text = .behind before text := by
  rw [spanOf, behind_past]
  rfl

end Cursor

/-! ### Cutting a span out of a source -/

theorem dropBytes?_append (before rest : List Char) :
    dropBytes? (byteLength before) (before ++ rest) = some rest := by
  induction before with
  | nil => cases rest <;> rfl
  | cons c before ih =>
    have hpos := c.utf8Size_pos
    obtain ⟨n, hn⟩ : ∃ n, byteLength (c :: before) = n + 1 :=
      ⟨byteLength (c :: before) - 1, by rw [byteLength_cons]; omega⟩
    have hsize := hn
    rw [byteLength_cons] at hsize
    rw [hn, List.cons_append, dropBytes?, if_pos (by omega), ← ih]
    congr 1
    omega

theorem takeBytes?_append (text rest : List Char) :
    takeBytes? (byteLength text) (text ++ rest) = some text := by
  induction text with
  | nil => cases rest <;> rfl
  | cons c text ih =>
    have hpos := c.utf8Size_pos
    obtain ⟨n, hn⟩ : ∃ n, byteLength (c :: text) = n + 1 :=
      ⟨byteLength (c :: text) - 1, by rw [byteLength_cons]; omega⟩
    have hsize := hn
    rw [byteLength_cons] at hsize
    have hrest : n + 1 - c.utf8Size = byteLength text := by omega
    rw [hn, List.cons_append, takeBytes?, if_pos (by omega), hrest, ih]
    rfl

/-- The place behind a part of a source is a boundary between its characters. -/
theorem isValid_byteLength {source : String} {before rest : List Char}
    (h : before ++ rest = source.toList) :
    String.Pos.Raw.IsValid source ⟨byteLength before⟩ := by
  refine String.Pos.Raw.isValid_iff_exists_append.2
    ⟨String.ofList before, String.ofList rest, ?_, rfl⟩
  rw [← String.ofList_append, h, String.ofList_toList]

/-- The span of a part of a source covers that part. -/
theorem Span.slice?_behind {source : String} {before text rest : List Char}
    (h : before ++ text ++ rest = source.toList) :
    (Span.behind before text).slice? source = some (String.ofList text) := by
  have hstart : (behind before text).start.byteOffset = byteLength before := rfl
  have hstop : (behind before text).stop.byteOffset = byteLength before + byteLength text :=
    byteLength_append before text
  rw [slice?, hstart, hstop, if_pos (Nat.le_add_right _ _), Nat.add_sub_cancel_left, ← h,
    List.append_assoc]
  simp only [dropBytes?_append, takeBytes?_append, Option.bind_eq_bind, Option.bind_some]
  rfl

/-! ### Text on one line -/

/-- Moves over a piece of text in one step, as if no line ended in it. -/
def Cursor.along (k : Cursor) (text : List Char) : Cursor :=
  ⟨⟨k.position.offset + text.length, k.position.line, k.position.column + text.length,
    k.position.byteOffset + byteLength text⟩, false⟩

theorem Cursor.along_along (k : Cursor) (as bs : List Char) :
    (k.along as).along bs = k.along (as ++ bs) := by
  simp only [along, List.length_append, byteLength_append, Nat.add_assoc]

theorem Cursor.advance_of_not_lineBreak {c : Char} (hc : isLineBreak c = false) (k : Cursor) :
    k.advance c = k.along [c] := by
  simp [advance, along, isLineBreak_eq_false_iff.1 hc, byteLength_singleton]

/-- Over text without line breaks a cursor can move in one step. -/
theorem Cursor.past_of_sameLine {k : Cursor} {text : List Char}
    (h : ∀ c ∈ text, isLineBreak c = false) (hne : text ≠ [] ∨ k.afterReturn = false) :
    k.past text = k.along text := by
  induction text generalizing k with
  | nil =>
    obtain ⟨p, afterReturn⟩ := k
    obtain rfl : afterReturn = false := hne.resolve_left (fun hne => hne rfl)
    rfl
  | cons c text ih =>
    obtain ⟨hc, htext⟩ := List.forall_mem_cons.1 h
    rw [past_cons, advance_of_not_lineBreak hc, ih htext (.inr rfl), along_along,
      List.singleton_append]

/-- The span of text without line breaks ends on the line it starts on. -/
theorem Span.line_behind {before text : List Char} (h : ∀ c ∈ text, isLineBreak c = false) :
    (behind before text).start.line = (behind before text).stop.line := by
  by_cases hne : text = []
  · simp [behind, hne]
  · have hpast := congrArg (·.position.line) (Cursor.behind_past before text)
    rw [Cursor.past_of_sameLine h (.inl hne)] at hpast
    exact hpast

end GraphQL
