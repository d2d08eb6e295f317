/-
Moving in strides.

A lexer need not move character by character.  A comment, a name, a run of
digits, dots, and what is taken for the digits of a unicode escape stand on one
line, and each of them may be passed in one stride.

* `Move`, `Cursor.follow` — characters and strides, and where they lead;
* `Reaches` — moves that lead any cursor over a text; they can be put together;
* `Passes`, `Scan.Gait` — moves over what a scan reads, or has read when it fails;
* `Lexer.moves`, `Lexer.follow_moves` — the moves of a lexer for its next token,
  and that they lead where it stands after it;
* `Lexer.span_eq_follow` — the token or the fault stands between two places on
  that way;
* `Lexer.follow_route` — the moves for any number of tokens lead where the lexer
  stands after them.

Design notes: a stride forgets a CR in front of it, even if it is over no text at
all.  It therefore has to be over some text, or behind a character that is no CR;
the digits of a unicode escape are the only stride that may be empty.
-/
import GraphQL.Proofs.Lexical.Ignored
import GraphQL.Proofs.Lexical.StringToken
import GraphQL.Proofs.Lexical.Tiling
import GraphQL.Proofs.Text.Line

namespace GraphQL

/-- One move of a cursor. -/
inductive Move
  /-- Over one character, whatever it is. -/
  | one (c : Char)
  /-- Over a piece of a line. -/
  | stride (text : List Char)

namespace Cursor

/-- Makes one move. -/
def move (k : Cursor) : Move → Cursor
  | .one c => k.advance c
  | .stride text => k.along text

/-- Makes one move after the other. -/
def follow (k : Cursor) (ms : List Move) : Cursor := ms.foldl move k

@[simp] theorem follow_nil (k : Cursor) : k.follow [] = k := rfl

@[simp] theorem follow_append (k : Cursor) (ms ms' : List Move) :
    k.follow (ms ++ ms') = (k.follow ms).follow ms' := List.foldl_append

end Cursor

/-- Moves that lead from the start of a text to its end. -/
def Reaches (ms : List Move) (text : List Char) : Prop := ∀ k : Cursor, k.follow ms = k.past text

namespace Reaches

theorem nil : Reaches [] [] := fun _ => rfl

theorem append {ms ms' : List Move} {as bs : List Char} (h : Reaches ms as) (h' : Reaches ms' bs) :
    Reaches (ms ++ ms') (as ++ bs) := by
  intro k
  rw [Cursor.follow_append, h k, h' (k.past as), Cursor.past_append]

theorem one (c : Char) : Reaches [.one c] [c] := fun _ => rfl

theorem cons {ms : List Move} {text : List Char} (c : Char) (h : Reaches ms text) :
    Reaches (.one c :: ms) (c :: text) := (one c).append h

/-- Every character of a text by itself. -/
theorem singly (text : List Char) : Reaches (text.map .one) text := by
  induction text with
  | nil => exact nil
  | cons c text ih => exact ih.cons c

theorem stride {text : List Char} (h : SameLine text) (hne : text ≠ []) :
    Reaches [.stride text] text := fun _ => (Cursor.past_of_sameLine h (.inl hne)).symm

/-- Behind a character that ends no line, a stride may be over no text at all. -/
theorem one_stride {c : Char} {text : List Char} (hc : isLineBreak c = false) (h : SameLine text) :
    Reaches [.one c, .stride text] (c :: text) := by
  intro k
  -- The character in front has made the cursor forget a CR already.
  have hafter : (k.advance c).afterReturn = false := by
    rw [Cursor.advance_of_not_lineBreak hc]
    rfl
  exact (Cursor.past_of_sameLine h (.inr hafter)).symm

end Reaches

/-! ### Ignored text -/

/-- Inside a comment, the rest of the line is ignored, and then what is ignored
behind it. -/
theorem splitIgnored_true (cs : List Char) :
    (splitIgnored true cs).1 =
      lineRest cs ++ (splitIgnored false (cs.dropWhile (!isLineBreak ·))).1 := by
  induction cs with
  | nil => rfl
  | cons c cs ih =>
    cases hc : isLineBreak c with
    | true =>
      -- The break ends the comment, and outside of it the break is ignored too.
      have hskipped : IsSkipped false c := .inr (.inr (by simp [isIgnored, hc]))
      rw [lineRest, List.takeWhile_cons_of_neg (by simp [hc]),
        List.dropWhile_cons_of_neg (by simp [hc]), splitIgnored_cons_of_skipped (.inl rfl),
        splitIgnored_cons_of_skipped hskipped, inCommentAfter_of_lineBreak hc,
        inCommentAfter_of_lineBreak hc, List.nil_append]
    | false =>
      rw [lineRest, List.takeWhile_cons_of_pos (by simp [hc]),
        List.dropWhile_cons_of_pos (by simp [hc]), splitIgnored_cons_of_skipped (.inl rfl),
        inCommentAfter_of_not_lineBreak hc, ih]
      rfl

/-- The moves over the ignored text in front of a text: a comment is one stride. -/
def ignoredMoves : List Char → List Move
  | [] => []
  | c :: cs =>
    if c = '#' then .stride (c :: lineRest cs) :: ignoredMoves (cs.dropWhile (!isLineBreak ·))
    else if isIgnored c then .one c :: ignoredMoves cs
    else []
termination_by cs => cs.length
decreasing_by
  · exact Nat.lt_succ_of_le (List.dropWhile_suffix _).length_le
  · exact Nat.lt_succ_self _

theorem reaches_ignoredMoves (cs : List Char) :
    Reaches (ignoredMoves cs) (splitIgnored false cs).1 := by
  fun_induction ignoredMoves cs with
  | case1 => exact .nil
  | case2 cs ih =>
    have hcomment : SameLine ('#' :: lineRest cs) := sameLine_cons.2 ⟨rfl, sameLine_lineRest cs⟩
    rw [splitIgnored_cons_of_skipped (.inr (.inl rfl))]
    show Reaches _ ('#' :: (splitIgnored true cs).1)
    rw [splitIgnored_true]
    exact (Reaches.stride hcomment (List.cons_ne_nil _ _)).append ih
  | case3 c cs hc hi ih =>
    rw [splitIgnored_cons_of_skipped (.inr (.inr hi)), inCommentAfter_of_ignored hi]
    exact ih.cons c
  | case4 c cs hc hi =>
    rw [splitIgnored_cons_of_not_skipped (by simp [IsSkipped, hc, hi])]
    exact .nil

/-! ### What a scan reads -/

/-- Moves that lead over what was read before a fault, and then over its text. -/
def Misreading.ReachedBy (e : Misreading) (ms : List Move) : Prop :=
  ∃ before text, ms = before ++ text ∧ Reaches before e.before ∧ Reaches text e.text

namespace Misreading.ReachedBy

variable {e : Misreading} {ms : List Move}

theorem consumed (h : e.ReachedBy ms) : Reaches ms e.consumed := by
  obtain ⟨before, text, rfl, hbefore, htext⟩ := h
  exact hbefore.append htext

theorem after {ms' : List Move} {text : List Char} (h : e.ReachedBy ms) (h' : Reaches ms' text) :
    (e.after text).ReachedBy (ms' ++ ms) := by
  obtain ⟨before, text, rfl, hbefore, htext⟩ := h
  exact ⟨ms' ++ before, text, (List.append_assoc _ _ _).symm, h'.append hbefore, htext⟩

/-- A fault with no text in front of it. -/
theorem start {text : List Char} {cause : LexicalCause} {notes : List Note} (h : Reaches ms text) :
    ReachedBy ⟨[], text, cause, notes⟩ ms := ⟨[], ms, rfl, .nil, h⟩

theorem singly (e : Misreading) : e.ReachedBy (e.consumed.map .one) :=
  ⟨_, _, List.map_append, .singly _, .singly _⟩

end Misreading.ReachedBy

/-- Moves over the text that was read, or over the text up to the end of a fault. -/
def Passes {α : Type} (ms : List Move) : Except Misreading (Reading α) → Prop
  | .ok r => Reaches ms r.text
  | .error e => e.ReachedBy ms

namespace Passes

variable {α : Type} {ms ms' : List Move} {x y : Except Misreading (Reading α)}

theorem reaches {r : Reading α} (h : Passes ms x) (hr : x = .ok r) : Reaches ms r.text := by
  rwa [hr] at h

theorem reachedBy {e : Misreading} (h : Passes ms x) (he : x = .error e) : e.ReachedBy ms := by
  rwa [he] at h

theorem ite {p : Prop} [Decidable p] (h : p → Passes ms x) (h' : ¬p → Passes ms' y) :
    Passes (if p then ms else ms') (if p then x else y) := by
  split
  · next hp => exact h hp
  · next hp => exact h' hp

end Passes

namespace Scan

/-- A way to move over what a scan reads, or has read when it fails. -/
structure Gait {α : Type} (s : Scan α) where
  moves : List Char → List Move
  passes : ∀ cs, Passes (moves cs) (s cs)

namespace Gait

variable {α β : Type}

/-- Every character by itself. -/
def singly (s : Scan α) : Gait s where
  moves cs :=
    match s cs with
    | .ok r => r.text.map .one
    | .error e => e.consumed.map .one
  passes cs := by
    cases s cs with
    | ok r => exact .singly r.text
    | error e => exact .singly e

/-- One scan after the other. -/
def bind {s : Scan α} {f : α → Scan β} (g : Gait s) (gs : ∀ a, Gait (f a)) : Gait (s >>= f) where
  moves cs :=
    match s cs with
    | .ok r => g.moves cs ++ (gs r.value).moves r.rest
    | .error _ => g.moves cs
  passes cs := by
    show Passes _ (Scan.bind s f cs)
    have hg := g.passes cs
    unfold Scan.bind
    cases hs : s cs with
    | error e => exact hg.reachedBy hs
    | ok r =>
      have hf := (gs r.value).passes r.rest
      dsimp only
      cases hr : f r.value r.rest with
      | error e => exact (hf.reachedBy hr).after (hg.reaches hs)
      | ok r' => exact (hg.reaches hs).append (hf.reaches hr)

/-- One of two scans. -/
def ite {p : Prop} [Decidable p] {s t : Scan α} (g : Gait s) (g' : Gait t) :
    Gait (if p then s else t) where
  moves cs := if p then g.moves cs else g'.moves cs
  passes cs := by
    split
    · exact g.passes cs
    · exact g'.passes cs

/-! ### Numbers -/

/-- A run of digits is one stride. -/
def digits : Gait Scan.digits where
  moves cs :=
    match Scan.digits cs with
    | .ok r => [.stride r.text]
    | .error e => e.consumed.map .one
  passes cs := by
    cases hr : Scan.digits cs with
    | ok r => exact .stride (digits_eq_ok_iff.1 hr).1.sameLine (digits_ne_nil hr)
    | error e => exact .singly e

def integerPart : Gait Scan.integerPart :=
  .bind (.singly _) fun _ => .ite (.singly _) .digits

def fraction : Gait Scan.fraction :=
  .bind (.singly _) fun _ => .ite (.bind .digits fun _ => .singly _) (.singly _)

def exponent : Gait Scan.exponent :=
  .bind (.singly _) fun _ =>
    .ite (.bind (.singly _) fun _ => .bind .digits fun _ => .singly _) (.singly _)

/-- Signs, points, exponent marks and a leading zero are passed by themselves. -/
def number : Gait Scan.number :=
  .bind (.singly _) fun _ => .bind .integerPart fun _ => .bind .fraction fun _ =>
    .bind .exponent fun _ => .singly _

def numberLexeme : Gait Scan.numberLexeme where
  moves := number.moves
  passes cs := by
    have hnumber := number.passes cs
    rw [Scan.numberLexeme]
    cases hr : Scan.number cs with
    | ok r => exact hnumber.reaches hr
    | error e => exact hnumber.reachedBy hr

/-! ### Strings -/

/-- What is taken for the digits of a unicode escape is one stride. -/
def stringUnit : Gait Scan.stringUnit where
  moves cs :=
    if ['\\', 'u'] <+: cs then [.one '\\', .one 'u', .stride (unicodeDigits (cs.drop 2))]
    else (singly Scan.stringUnit).moves cs
  passes cs := by
    split
    · next hescape =>
      obtain ⟨cs, rfl⟩ := hescape
      have hreaches := (Reaches.one_stride (c := 'u') rfl (unicodeDigits_sameLine cs)).cons '\\'
      show Passes _ (escape ('u' :: cs))
      rw [escape, if_pos rfl]
      cases unicodeEscape? (unicodeDigits cs) with
      | some c => exact hreaches
      | none => exact .start hreaches
    · exact (singly _).passes cs

/-- The moves over the units of a string and its closing quote. -/
def bodyMoves (cs : List Char) : List Move :=
  if cs.head? = some '"' then [.one '"']
  else
    match _h : Scan.stringUnit cs with
    | .error _ => stringUnit.moves cs
    | .ok u => stringUnit.moves cs ++ bodyMoves u.rest
termination_by cs.length
decreasing_by exact length_rest_lt_of_stringUnit _h

def stringBody : Gait Scan.stringBody where
  moves := bodyMoves
  passes cs := by
    fun_induction bodyMoves cs with
    | case1 cs hq =>
      rw [Scan.stringBody, if_pos hq]
      exact .one '"'
    | case2 cs hq e hu =>
      rw [stringBody_of_error hq hu]
      exact (stringUnit.passes cs).reachedBy hu
    | case3 cs hq u hu ih =>
      have hunit := (stringUnit.passes cs).reaches hu
      rw [stringBody_of_unit hq hu]
      cases hr : Scan.stringBody u.rest with
      | ok r => exact hunit.append (ih.reaches hr)
      | error e => exact (ih.reachedBy hr).after hunit

theorem passes_stringLexeme (cs : List Char) :
    Passes (.one '"' :: stringBody.moves cs) (stringLexeme cs) := by
  have hbody := stringBody.passes cs
  rw [stringLexeme]
  cases hr : Scan.stringBody cs with
  | ok r => exact (hbody.reaches hr).cons '"'
  | error e => exact (hbody.reachedBy hr).after (.one '"')

/-! ### Lexemes -/

/-- Two dots, and three, are one stride. -/
def spread : Gait Scan.spread where
  moves cs :=
    if ['.', '.', '.'] <+: cs then [.stride ['.', '.', '.']]
    else if ['.', '.'] <+: cs then [.stride ['.', '.']]
    else [.one '.']
  passes cs := by
    have htwo : SameLine ['.', '.'] := by simp [SameLine, isLineBreak]
    have hthree : SameLine ['.', '.', '.'] := sameLine_cons.2 ⟨rfl, htwo⟩
    rw [Scan.spread]
    refine .ite (fun _ => .stride hthree (List.cons_ne_nil _ _)) fun _ => ?_
    refine .ite (fun _ => .start (.stride htwo (List.cons_ne_nil _ _))) fun _ => ?_
    exact .start (.one '.')

theorem passes_name {c : Char} (hc : isNameStart c = true) (cs : List Char) :
    Passes [.stride ((c :: cs).takeWhile isNameContinue)] (name (c :: cs)) := by
  refine .stride (sameLine_of_isNameContinue (List.all_eq_true.1 List.all_takeWhile)) ?_
  rw [List.takeWhile_cons_of_pos (isNameContinue_of_isNameStart hc)]
  exact List.cons_ne_nil _ _

/-- The moves over a lexeme.  A name is one stride; a punctuator, and a character
that starts no lexeme, is passed by itself. -/
def lexemeMoves : List Char → List Move
  | [] => []
  | c :: cs =>
    match Punctuator.ofChar? c with
    | some _ => [.one c]
    | none =>
      if c = '.' then spread.moves (c :: cs)
      else if c = '"' then .one '"' :: stringBody.moves cs
      else if isNameStart c then [.stride ((c :: cs).takeWhile isNameContinue)]
      else if c = '-' ∨ c.isDigit then numberLexeme.moves (c :: cs)
      else [.one c]

def lexeme : Gait Scan.lexeme where
  moves := lexemeMoves
  passes cs := by
    cases cs with
    | nil => exact .nil
    | cons c cs =>
      rw [lexemeMoves, Scan.lexeme]
      cases Punctuator.ofChar? c with
      | some p => exact .one c
      | none =>
        refine .ite (fun _ => spread.passes _) fun _ => ?_
        refine .ite (fun _ => passes_stringLexeme cs) fun _ => ?_
        refine .ite (fun hstart => passes_name hstart cs) fun _ => ?_
        refine .ite (fun _ => numberLexeme.passes _) fun _ => ?_
        split
        · exact .start (.one c)
        · exact .start (.one c)

end Gait

end Scan

/-! ### Lexers -/

namespace Lexer

variable {l : Lexer}

/-- The moves of a lexer for its next token: over the ignored text in front of a
lexeme, and then over the lexeme, as far as it can be read. -/
def moves (l : Lexer) : List Move :=
  match l.failure? with
  | some _ => []
  | none => ignoredMoves l.rest ++ Scan.Gait.lexeme.moves (splitIgnored false l.rest).2

theorem moves_of_none (hl : l.failure? = none) :
    l.moves = ignoredMoves l.rest ++ Scan.Gait.lexeme.moves (splitIgnored false l.rest).2 := by
  rw [moves, hl]

/-- The moves of a lexer for its next token lead where it stands after it. -/
theorem follow_moves (l : Lexer) : l.cursor.follow l.moves = l.nextToken.2.cursor := by
  cases hl : l.failure? with
  | some e => rw [moves, hl, nextToken_of_failure hl, Cursor.follow_nil]
  | none =>
    have hlexeme := Scan.Gait.lexeme.passes (splitIgnored false l.rest).2
    rw [moves_of_none hl, Cursor.follow_append, reaches_ignoredMoves]
    cases hr : Scan.lexeme (splitIgnored false l.rest).2 with
    | ok r => rw [nextToken_of_ok hl hr, hlexeme.reaches hr]
    | error e => rw [nextToken_of_error hl hr, (hlexeme.reachedBy hr).consumed]

/-- On its way a lexer passes the place where the next token, or the next fault,
starts, and it stops where that ends. -/
theorem span_eq_follow (hl : l.failure? = none) :
    ∃ before text, l.moves = before ++ text ∧
      l.nextToken.1.span =
        ⟨(l.cursor.follow before).position, (l.cursor.follow l.moves).position⟩ := by
  cases hr : Scan.lexeme (splitIgnored false l.rest).2 with
  | ok r =>
    refine ⟨_, _, moves_of_none hl, ?_⟩
    rw [follow_moves, reaches_ignoredMoves, nextToken_of_ok hl hr]
    rfl
  | error e =>
    -- A fault may stand in the middle of its lexeme, at a place between two moves.
    obtain ⟨before, text, hmoves, hbefore, _⟩ := (Scan.Gait.lexeme.passes _).reachedBy hr
    refine ⟨ignoredMoves l.rest ++ before, text, ?_, ?_⟩
    · rw [moves_of_none hl, hmoves, List.append_assoc]
    · rw [follow_moves, Cursor.follow_append, reaches_ignoredMoves, hbefore,
        nextToken_of_error hl hr, Misreading.consumed, Cursor.past_append]
      rfl

/-- The moves of a lexer for a number of tokens. -/
def route (l : Lexer) : Nat → List Move
  | 0 => []
  | n + 1 => l.route n ++ (l.after n).moves

/-- However many tokens are asked for, the moves of a lexer lead where it stands. -/
theorem follow_route (l : Lexer) (n : Nat) : l.cursor.follow (l.route n) = (l.after n).cursor := by
  induction n with
  | zero => rfl
  | succ n ih => rw [route, Cursor.follow_append, ih, follow_moves, after]

end Lexer

end GraphQL
