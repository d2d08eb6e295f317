/-
The tokens of a written text.

Pieces are written one behind the other, so what stands in front of a lexeme says
where it is read again.

* `placed` — the lexemes of a sequence of pieces, each where it is written;
* `tokenize_render` — they are the tokens of the text of the sequence;
* `OnRows` — the tokens of a layout, line by line;
* `OnRows.column`, `OnRows.places` — the first token of each line is indented by
  the braces in front of it, and the nodes that start lines start with such tokens;
* `Outlined` — both of this, said of tokens alone.

Design notes: a line of the layout is a line of the text because no lexeme has a
line break in it.  `OnRows` keeps of the places only the lines, and the columns of
the tokens that are first on them.
-/
import GraphQL.Proofs.Layout.Outline
import GraphQL.Proofs.Lexical.Tiling
import GraphQL.Proofs.Text.Line

namespace GraphQL

/-! ### The text of a piece -/

namespace Lexeme.Spellable

variable {x : Lexeme}

theorem stands_written (h : x.Spellable) : x.Stands [] x.written := by
  have hread := Scan.lexeme_written h fun _ => .nil _
  rw [List.append_nil] at hread
  refine Scan.stands_of_lexeme (fun hnil => ?_) hread
  rw [hnil] at hread
  cases hread
  exact h.kind_ne rfl

theorem written_ne_nil (h : x.Spellable) : x.written ≠ [] := h.stands_written.ne_nil

theorem written_sameLine (h : x.Spellable) : SameLine x.written := h.stands_written.sameLine

end Lexeme.Spellable

theorem render_append (level : Nat) (as bs : List Piece) :
    render level (as ++ bs) = render level as ++ render level bs := List.flatMap_append

/-- What is written between lexemes is ignored. -/
theorem Piece.isIgnored_render {p : Piece} (h : p.lexeme? = none) (level : Nat) :
    ∀ c ∈ p.render level, isIgnored c = true := by
  cases p with
  | lexeme x => cases h
  | comma | space | lineFeed => exact List.forall_mem_singleton.2 (by decide)
  | newLine depth =>
    refine List.forall_mem_cons.2 ⟨by decide, fun c hc => ?_⟩
    rw [(List.mem_replicate.1 hc).2]
    decide

theorem Piece.render_break {p : Piece} (h : p.isFlat = false) :
    p.render 0 = '\n' :: List.replicate (2 * p.depth) ' ' := by
  cases p with
  | newLine depth => rw [render, Nat.zero_add, Piece.depth]
  | lineFeed => rfl
  | _ => cases h

theorem Piece.lexeme?_of_break {p : Piece} (h : p.isFlat = false) : p.lexeme? = none := by
  cases p <;> first | rfl | cases h

/-- Pieces on one line are written on one line. -/
theorem render_sameLine {ps : List Piece} (h : ∀ p ∈ ps, p.isFlat = true)
    (hs : ∀ x ∈ lexemesOf ps, SameLine x.written) (level : Nat) : SameLine (render level ps) := by
  induction ps with
  | nil => exact sameLine_nil
  | cons p ps ih =>
    obtain ⟨hp, hps⟩ := List.forall_mem_cons.1 h
    rw [← List.singleton_append, lexemesOf_append, List.forall_mem_append] at hs
    refine SameLine.append ?_ (ih hps hs.2)
    cases p with
    | lexeme x => exact hs.1 x (List.mem_singleton_self x)
    | comma | space => exact sameLine_singleton.2 rfl
    | newLine _ | lineFeed => cases hp

/-! ### Reading what was written -/

/-- The lexemes of some pieces as tokens, if the pieces are written behind a text. -/
def placed (level : Nat) (front : List Char) : List Piece → List Token
  | [] => []
  | p :: ps =>
    (p.lexeme?.map fun x => ⟨x, .behind front x.written⟩).toList
      ++ placed level (front ++ p.render level) ps

theorem placed_lexeme (level : Nat) (front : List Char) (x : Lexeme) (ps : List Piece) :
    placed level front (.lexeme x :: ps) =
      ⟨x, .behind front x.written⟩ :: placed level (front ++ x.written) ps := rfl

theorem placed_cons_of_none {p : Piece} (h : p.lexeme? = none) (level : Nat) (front : List Char)
    (ps : List Piece) :
    placed level front (p :: ps) = placed level (front ++ p.render level) ps := by
  rw [placed, h]
  rfl

theorem placed_append (level : Nat) (front : List Char) (as bs : List Piece) :
    placed level front (as ++ bs) =
      placed level front as ++ placed level (front ++ render level as) bs := by
  induction as generalizing front with
  | nil => simp [placed, render]
  | cons p as ih =>
    have hfront : front ++ render level (p :: as) = front ++ p.render level ++ render level as := by
      rw [render, List.flatMap_cons, List.append_assoc, render]
    rw [List.cons_append, placed, placed, ih, ← hfront, List.append_assoc]

theorem toLexeme_placed (level : Nat) (front : List Char) (ps : List Piece) :
    (placed level front ps).map Token.toLexeme = lexemesOf ps := by
  induction ps generalizing front with
  | nil => rfl
  | cons p ps ih =>
    rw [placed, List.map_append, ih]
    cases p <;> rfl

/-- In front of each token is what was written before it. -/
theorem exists_of_mem_placed {level : Nat} {front : List Char} {ps : List Piece} {t : Token}
    (h : t ∈ placed level front ps) :
    ∃ as x bs, ps = as ++ .lexeme x :: bs ∧ t.span = .behind (front ++ render level as) x.written := by
  induction ps generalizing front with
  | nil => cases h
  | cons p ps ih =>
    rw [placed, List.mem_append] at h
    rcases h with h | h
    · cases p with
      | lexeme x =>
        obtain rfl := List.mem_singleton.1 h
        exact ⟨[], x, ps, rfl, by rw [render, List.flatMap_nil, List.append_nil]⟩
      | _ => cases h
    · obtain ⟨as, x, bs, rfl, hspan⟩ := ih h
      refine ⟨p :: as, x, bs, rfl, ?_⟩
      rw [hspan, render, render, List.flatMap_cons, List.append_assoc]

theorem splitIgnored_gap {gap cs : List Char} (hgap : ∀ c ∈ gap, isIgnored c = true)
    (hcs : (splitIgnored false cs).2 = cs) : splitIgnored false (gap ++ cs) = (gap, cs) := by
  have hback : (splitIgnored false (gap ++ cs)).2 = cs :=
    (splitIgnored_of_ignored hgap cs).trans hcs
  have hall := splitIgnored_append false (gap ++ cs)
  rw [hback] at hall
  exact Prod.ext (List.append_cancel_right hall) hback

/-- A lexer that stands in front of the text of some pieces gives out their lexemes
where they are written, and then the end of the input. -/
theorem Lexer.Behind.items_of_pieces {level : Nat} {ps : List Piece}
    (hs : Spelled (lexemesOf ps)) (hloose : loose ps = true) {l : Lexer} {source : String}
    {front gap : List Char} (hl : l.Running) (h : l.Behind source front)
    (hgap : ∀ c ∈ gap, isIgnored c = true) (hrest : l.rest = gap ++ render level ps) :
    l.items = (placed level (front ++ gap) (ps ++ [.endOfInput])).map .ok := by
  -- Between the lexemes, `gap` collects what is ignored in front of the next one.
  induction ps generalizing l front gap with
  | nil =>
    have hsplit : splitIgnored false l.rest = (gap, []) := by
      rw [hrest]
      exact splitIgnored_gap hgap rfl
    rw [items_of_stop hl (by rw [hsplit]), hsplit, h.past]
    have hend : Token.endAt (.behind (front ++ gap)) =
        ⟨⟨.endOfInput, none⟩, .behind (front ++ gap) []⟩ := by
      rw [Token.endAt, Span.behind, List.append_nil]
      rfl
    exact congrArg (fun t => [Except.ok t]) hend
  | cons p ps ih =>
    rw [loose, Bool.and_eq_true, Bool.or_eq_true, Bool.not_eq_true'] at hloose
    rw [render, List.flatMap_cons, ← render] at hrest
    cases hp : p.lexeme? with
    | none =>
      have hgap' := List.forall_mem_append.2 ⟨hgap, Piece.isIgnored_render hp level⟩
      have hs' : Spelled (lexemesOf ps) := by
        rwa [lexemesOf, List.filterMap_cons_none hp] at hs
      rw [List.cons_append, placed_cons_of_none hp, List.append_assoc]
      exact ih hs' hloose.2 hl h hgap' (by rw [hrest, List.append_assoc])
    | some x =>
      obtain ⟨y, rfl⟩ : ∃ y, p = .lexeme y := by
        cases p with
        | lexeme y => exact ⟨y, rfl⟩
        | _ => cases hp
      have hx : y.Spellable := hs y (by simp)
      have hread : Scan.lexeme (y.written ++ render level ps) =
          .ok ⟨y, y.written, render level ps⟩ := by
        refine Scan.lexeme_written hx fun hword => ?_
        exact stops_render (hloose.1.resolve_left (by simpa [Piece.isWord] using hword)) level
      have hne : y.written ++ render level ps ≠ [] :=
        List.append_ne_nil_of_left_ne_nil hx.written_ne_nil _
      have hsplit : splitIgnored false l.rest = (gap, y.written ++ render level ps) := by
        rw [hrest]
        exact splitIgnored_gap hgap (splitIgnored_of_lexeme hne hread)
      obtain ⟨t, l', hitems, ht, hspan, hl', hrest', h', -⟩ := h.items_of_step hl hsplit hne hread
      rw [(h.token hsplit hread).1] at hspan
      have htoken : t = ⟨y, .behind (front ++ gap) y.written⟩ := by
        obtain ⟨z, span⟩ := t
        exact Token.mk.injEq .. ▸ ⟨ht, hspan⟩
      have hmore := ih (fun z hz => hs z (by simp [hz])) hloose.2 hl' h'
        (fun _ hc => absurd hc List.not_mem_nil) hrest'
      rw [List.append_nil] at hmore
      rw [hitems, htoken, hmore, List.cons_append, placed_lexeme, List.map_cons]

/-- The tokens of a text that was written are the lexemes where they were written,
and the end of the input. -/
theorem tokenize_render {source : String} {level : Nat} {ps : List Piece}
    (hs : Spelled (lexemesOf ps)) (hloose : loose ps = true)
    (h : source.toList = render level ps) :
    tokenize source = (placed level [] (ps ++ [.endOfInput])).map .ok :=
  (Lexer.new_behind source).items_of_pieces hs hloose (Lexer.new_running source)
    (fun _ hc => absurd hc List.not_mem_nil) h

/-! ### Lines of tokens -/

/-- The place behind a text is in front of the first lexeme on a line. -/
structure LineStart (front : List Char) (line depth : Nat) : Prop where
  breaks : lineBreaks front = line
  indent : (lastLine front).length = 2 * depth
  ended : front.getLast? ≠ some '\r'

theorem lineStart_nil : LineStart [] 0 0 := ⟨rfl, rfl, fun h => by cases h⟩

namespace LineStart

variable {front text : List Char} {line depth : Nat} (h : LineStart front line depth)
  (ht : SameLine text)
include h ht

theorem lineBreaks_append : lineBreaks (front ++ text) = line := by
  rw [GraphQL.lineBreaks_append (not_cutsBreak_of_sameLine ht front), h.breaks,
    lineBreaks_eq_zero_iff.2 ht, Nat.add_zero]

/-- Behind the break that ends a line starts the next one. -/
theorem next (depth' : Nat) :
    LineStart (front ++ text ++ '\n' :: List.replicate (2 * depth') ' ') (line + 1) depth' := by
  have hended : (front ++ text).getLast? ≠ some '\r' := ht.getLast?_append_ne h.ended
  have hblanks : SameLine (List.replicate (2 * depth') ' ') := by
    intro c hc
    rw [(List.mem_replicate.1 hc).2]
    rfl
  have hsplit : front ++ text ++ '\n' :: List.replicate (2 * depth') ' ' =
      front ++ text ++ ['\n'] ++ List.replicate (2 * depth') ' ' := by simp
  have hbreaks : lineBreaks (front ++ text ++ ['\n']) = line + 1 := by
    rw [lineBreaks_concat, if_pos (.inr ⟨rfl, hended⟩), h.lineBreaks_append ht]
  have hlast : lastLine (front ++ text ++ ['\n']) = [] := by
    rw [lastLine_concat]
    rfl
  rw [hsplit]
  refine ⟨?_, ?_, ?_⟩
  · rw [GraphQL.lineBreaks_append (not_cutsBreak_of_sameLine hblanks _), hbreaks,
      lineBreaks_eq_zero_iff.2 hblanks, Nat.add_zero]
  · rw [lastLine_append_of_sameLine hblanks, hlast, List.nil_append, List.length_replicate]
  · exact hblanks.getLast?_append_ne (by simp)

end LineStart

/-- Tokens stand on lines, those of the first one on the line with a given number:
they are the lexemes on the lines, and the first on each is indented as the break
in front of it says. -/
inductive OnRows : Nat → List Row → List Token → Prop
  | nil (line : Nat) : OnRows line [] []
  | cons {line : Nat} {r : Row} {rows : List Row} {own ts : List Token}
    (hlexemes : own.map Token.toLexeme = lexemesOf r.pieces)
    (hline : ∀ t ∈ own, t.span.start.line = line)
    (hcolumn : ∀ t ∈ own.head?, t.span.start.column = 2 * r.opening.depth)
    (h : OnRows (line + 1) rows ts) : OnRows line (r :: rows) (own ++ ts)

/-- What is written on a line stands on it, and the first lexeme at its start. -/
theorem Row.Plain.placed_pieces {r : Row} (hr : r.Plain)
    (hs : ∀ x ∈ lexemesOf r.pieces, SameLine x.written) {front : List Char} {line : Nat}
    (h : LineStart front line r.opening.depth) :
    (∀ t ∈ placed 0 front r.pieces, t.span.start.line = line) ∧
      ∀ t ∈ (placed 0 front r.pieces).head?, t.span.start.column = 2 * r.opening.depth := by
  constructor
  · intro t ht
    obtain ⟨as, x, bs, hpieces, hspan⟩ := exists_of_mem_placed ht
    have hsame : SameLine (render 0 as) := by
      rw [hpieces] at hs
      refine render_sameLine (fun p hp => hr.flat p ?_) (fun y hy => hs y ?_) 0
      · rw [hpieces]
        exact List.mem_append_left _ hp
      · rw [lexemesOf_append]
        exact List.mem_append_left _ hy
    rw [hspan]
    exact h.lineBreaks_append hsame
  · cases hpieces : r.pieces with
    | nil => exact fun _ ht => by cases ht
    | cons p ps =>
      obtain ⟨x, rfl⟩ := hr.first p (by rw [hpieces]; rfl)
      rintro t ⟨⟩
      exact h.indent

/-- Behind what is written on a line are the lines that follow it. -/
theorem onRows_placed {r : Row} {rows : List Row} (hplain : ∀ q ∈ r :: rows, q.Plain)
    (hs : ∀ x ∈ rowLexemes (r :: rows), SameLine x.written) {front : List Char} {line : Nat}
    (h : LineStart front line r.opening.depth) :
    OnRows line (r :: rows) (placed 0 front (r.pieces ++ rows.flatMap Row.layout)) := by
  induction rows generalizing r front line with
  | nil =>
    obtain ⟨hr, -⟩ := List.forall_mem_cons.1 hplain
    rw [rowLexemes_cons, List.forall_mem_append] at hs
    obtain ⟨hline, hcolumn⟩ := hr.placed_pieces hs.1 h
    rw [placed_append]
    exact .cons (toLexeme_placed _ _ _) hline hcolumn (.nil _)
  | cons q rows ih =>
    obtain ⟨hr, hrows⟩ := List.forall_mem_cons.1 hplain
    rw [rowLexemes_cons, List.forall_mem_append] at hs
    obtain ⟨hline, hcolumn⟩ := hr.placed_pieces hs.1 h
    -- The break in front of the next line has no lexeme, and its text leads to that line.
    have hbreak := (hrows q List.mem_cons_self).breaks
    rw [placed_append, List.flatMap_cons, Row.layout, List.cons_append,
      placed_cons_of_none (Piece.lexeme?_of_break hbreak), Piece.render_break hbreak]
    have hnext := h.next (render_sameLine hr.flat hs.1 0) q.opening.depth
    exact .cons (toLexeme_placed _ _ _) hline hcolumn (ih hrows hs.2 hnext)

/-! ### The first token on a line -/

/-- A token is the first of its line. -/
structure OpensLine (ts : List Token) (i : Nat) (t : Token) : Prop where
  token : ts[i]? = some t
  first : ∀ u ∈ ts.take i, u.span.start.line ≠ t.span.start.line

namespace OpensLine

variable {own ts : List Token} {i : Nat} {t : Token}

/-- More tokens in front, if they are on other lines. -/
theorem behind (h : OpensLine ts i t) (hown : ∀ u ∈ own, u.span.start.line ≠ t.span.start.line) :
    OpensLine (own ++ ts) (own.length + i) t where
  token := by rw [List.getElem?_append_right (Nat.le_add_right _ _), Nat.add_sub_cancel_left, h.token]
  first := by
    rw [List.take_length_add_append]
    exact List.forall_mem_append.2 ⟨hown, h.first⟩

/-- The first token of its line is the first of those in front, if they are all on
one line, or comes behind them. -/
theorem cases {line : Nat} (h : OpensLine (own ++ ts) i t)
    (hline : ∀ u ∈ own, u.span.start.line = line) :
    (i = 0 ∧ own.head? = some t) ∨ ∃ j, i = own.length + j ∧ OpensLine ts j t := by
  by_cases hi : i < own.length
  · have htoken := h.token
    rw [List.getElem?_append_left hi] at htoken
    cases own with
    | nil => cases htoken
    | cons u own =>
      cases i with
      | zero => exact .inl ⟨rfl, htoken⟩
      | succ i =>
        -- The first of the tokens in front is on the same line.
        have hu := h.first u (by simp)
        rw [hline u List.mem_cons_self, hline t (List.mem_of_getElem? htoken)] at hu
        exact absurd rfl hu
  · obtain ⟨j, rfl⟩ := Nat.exists_eq_add_of_le (Nat.le_of_not_lt hi)
    have htoken := h.token
    have hfirst := h.first
    rw [List.getElem?_append_right (Nat.le_add_right _ _), Nat.add_sub_cancel_left] at htoken
    rw [List.take_length_add_append] at hfirst
    exact .inr ⟨j, rfl, htoken, (List.forall_mem_append.1 hfirst).2⟩

end OpensLine

/-- A node starts a line: its lexemes are what the tokens go on with from a place on,
and that place is the start of a line. -/
structure Node.StartsLineAt (n : Node) (ts : List Token) (i : Nat) : Prop where
  opens : ∃ t, OpensLine ts i t
  lexemes : lexemesOf n.layout <+: (ts.map Token.toLexeme).drop i

/-- More tokens in front, all of them on other lines. -/
theorem Node.StartsLineAt.behind {n : Node} {own ts : List Token} {i : Nat}
    (h : n.StartsLineAt ts i)
    (hown : ∀ u ∈ own, ∀ t ∈ ts, u.span.start.line ≠ t.span.start.line) :
    n.StartsLineAt (own ++ ts) (own.length + i) where
  opens := by
    obtain ⟨t, ht⟩ := h.opens
    exact ⟨t, ht.behind fun u hu => hown u hu t (List.mem_of_getElem? ht.token)⟩
  lexemes := by
    rw [List.map_append, ← List.length_map Token.toLexeme, List.drop_length_add_append]
    exact h.lexemes

theorem Node.startsLineAt_zero {n : Node} {ts : List Token} (hne : ts ≠ [])
    (h : lexemesOf n.layout <+: ts.map Token.toLexeme) : n.StartsLineAt ts 0 := by
  obtain ⟨t, ts, rfl⟩ := List.exists_cons_of_ne_nil hne
  exact ⟨⟨t, rfl, fun _ hu => by cases hu⟩, h⟩

/-- The lines of some tokens are indented by the braces that are open in front of them,
and some nodes start lines, one behind the other. -/
structure Outlined (ts : List Token) (nodes : List Node) : Prop where
  column : ∀ i t, OpensLine ts i t → (t.span.start.column : Int) =
    2 * indentation (nesting ((ts.take i).map Token.toLexeme)) t.toLexeme
  places : ∃ places : List (Nat × Node), places.map Prod.snd = nodes ∧
    places.Pairwise (·.1 < ·.1) ∧ ∀ p ∈ places, p.2.StartsLineAt ts p.1

/-- The first lexeme on a line is the first of its pieces. -/
theorem head?_lexemesOf {ps : List Piece} (h : ∀ p ∈ ps.head?, ∃ x, p = .lexeme x) {x : Lexeme} :
    (lexemesOf ps).head? = some x ↔ ps.head? = some (.lexeme x) := by
  cases ps with
  | nil => exact iff_of_false (fun h => by cases h) (fun h => by cases h)
  | cons p ps =>
    obtain ⟨y, rfl⟩ := h p rfl
    simp

namespace OnRows

variable {line : Nat} {rows : List Row} {ts : List Token}

theorem map_toLexeme (h : OnRows line rows ts) : ts.map Token.toLexeme = rowLexemes rows := by
  induction h with
  | nil _ => rfl
  | cons hlexemes _ _ _ ih => rw [List.map_append, hlexemes, ih, rowLexemes_cons]

theorem le_line (h : OnRows line rows ts) : ∀ t ∈ ts, line ≤ t.span.start.line := by
  induction h with
  | nil _ => exact fun _ ht => by cases ht
  | cons _ hline _ _ ih =>
    refine List.forall_mem_append.2 ⟨fun t ht => Nat.le_of_eq (hline t ht).symm, fun t ht => ?_⟩
    exact Nat.le_of_succ_le (ih t ht)

/-- The first token of a line is indented by the braces that are open in front of it. -/
theorem column (h : OnRows line rows ts) {b b' : Int} (hb : Indented b rows b')
    (hfirst : ∀ r ∈ rows, ∀ p ∈ r.pieces.head?, ∃ x, p = .lexeme x) {i : Nat} {t : Token}
    (ht : OpensLine ts i t) :
    (t.span.start.column : Int) =
      2 * indentation (b + nesting ((ts.take i).map Token.toLexeme)) t.toLexeme := by
  induction h generalizing b i with
  | nil _ =>
    have htoken := ht.token
    cases htoken
  | @cons line r rows own ts hlexemes hline hcolumn h ih =>
    cases hb with
    | cons hr hb =>
      -- It is the first of this line, whose depth is known, or of one that follows.
      rcases ht.cases hline with ⟨rfl, hhead⟩ | ⟨j, rfl, hj⟩
      · have hlexeme : (lexemesOf r.pieces).head? = some t.toLexeme := by
          rw [← hlexemes, List.head?_map, hhead]
          rfl
        rw [head?_lexemesOf (hfirst r List.mem_cons_self)] at hlexeme
        rw [List.take_zero, List.map_nil, nesting_nil, Int.add_zero, hcolumn t hhead,
          ← hr _ hlexeme]
        exact Int.natCast_mul 2 _
      · rw [List.take_length_add_append, List.map_append, nesting_append, hlexemes, ← Int.add_assoc]
        exact ih hb (fun q hq => hfirst q (List.mem_cons_of_mem r hq)) hj

/-- The nodes that start on the lines start lines of the tokens, one behind the other. -/
theorem places (h : OnRows line rows ts) (hs : Starts rows)
    (hfirst : ∀ r ∈ rows, ∀ p ∈ r.pieces.head?, ∃ x, p = .lexeme x) :
    ∃ places : List (Nat × Node), places.map Prod.snd = rows.filterMap Row.node? ∧
      places.Pairwise (·.1 < ·.1) ∧ ∀ p ∈ places, p.2.StartsLineAt ts p.1 := by
  induction h with
  | nil _ => exact ⟨[], rfl, .nil, fun _ hp => by cases hp⟩
  | @cons line r rows own ts hlexemes hline hcolumn h ih =>
    cases hs with
    | cons hr hs =>
      obtain ⟨places, hnodes, hpairwise, hplaces⟩ :=
        ih hs fun q hq => hfirst q (List.mem_cons_of_mem r hq)
      -- Behind the tokens of this line, everything stands that much later.
      let later : List (Nat × Node) := places.map fun p => (own.length + p.1, p.2)
      have hlater : later.map Prod.snd = rows.filterMap Row.node? := by
        rw [← hnodes, List.map_map]
        rfl
      have hlater' : later.Pairwise (·.1 < ·.1) := by
        rw [List.pairwise_map]
        exact hpairwise.imp fun hlt => Nat.add_lt_add_left hlt _
      have hapart : ∀ u ∈ own, ∀ t ∈ ts, u.span.start.line ≠ t.span.start.line := by
        intro u hu t ht
        rw [hline u hu]
        exact Nat.ne_of_lt (h.le_line t ht)
      have hall : ∀ p ∈ later, p.2.StartsLineAt (own ++ ts) p.1 := by
        rw [List.forall_mem_map]
        exact fun p hp => (hplaces p hp).behind hapart
      cases hnode : r.node? with
      | none => exact ⟨later, by rw [hlater, List.filterMap_cons_none hnode], hlater', hall⟩
      | some n =>
        obtain ⟨hne, hprefix⟩ := hr n hnode
        have hown : own ≠ [] := by
          rintro rfl
          obtain ⟨p, hp⟩ := Option.ne_none_iff_exists'.1 (mt List.head?_eq_none_iff.1 hne)
          obtain ⟨x, rfl⟩ := hfirst r List.mem_cons_self p hp
          have hx := (head?_lexemesOf (hfirst r List.mem_cons_self)).2 hp
          rw [← hlexemes] at hx
          cases hx
        have hn : n.StartsLineAt (own ++ ts) 0 := by
          refine Node.startsLineAt_zero (List.append_ne_nil_of_left_ne_nil hown ts) ?_
          rw [List.map_append, hlexemes, h.map_toLexeme, ← rowLexemes_cons]
          exact hprefix
        have hzero : ∀ p ∈ later, 0 < p.1 := by
          rw [List.forall_mem_map]
          exact fun p _ => Nat.add_pos_left (List.length_pos_iff.2 hown) _
        refine ⟨(0, n) :: later, ?_, List.pairwise_cons.2 ⟨hzero, hlater'⟩,
          List.forall_mem_cons.2 ⟨hn, hall⟩⟩
        rw [List.map_cons, hlater, List.filterMap_cons_some hnode]

theorem outlined {b : Int} (h : OnRows line rows ts) (hplain : ∀ r ∈ rows, r.Plain)
    (hb : Indented 0 rows b) (hs : Starts rows) : Outlined ts (rows.filterMap Row.node?) where
  column := by
    intro i t ht
    have hcolumn := h.column hb (fun r hr => (hplain r hr).first) ht
    rwa [Int.zero_add] at hcolumn
  places := h.places hs fun r hr => (hplain r hr).first

end OnRows

end GraphQL
