/-
The canonical layout of a document.

The text of a document is one definition after the other, each on lines of its own.

* `lines_rows` — the lines of a layout are those of its text;
* `Arranges.lines` — no line of a definition is empty or ends in a blank;
* `lines_joined` — between definitions there is an empty line;
* `Document.LaidOut` — what the canonical layout of a document is;
* `Document.source_laidOut` — the text of every document that is read from a source
  has it.

Design notes: that the lines of a definition are not empty is known from its layout.
All else about lines follows from how definitions are joined.
-/
import GraphQL.Proofs.Document.Words
import GraphQL.Proofs.Layout.Tokens

namespace GraphQL

open Piece Layout

/-! ### The ends of lexemes -/

theorem IsDigits.last {ds : List Char} (h : IsDigits ds) (front : List Char) :
    ∃ c, (front ++ ds).getLast? = some c ∧ c.isDigit = true := by
  obtain ⟨c, hc⟩ := Option.ne_none_iff_exists'.1 (mt List.getLast?_eq_none_iff.1 h.1)
  refine ⟨c, ?_, h.2 c (List.mem_of_getLast? hc)⟩
  rw [List.getLast?_append, hc]
  rfl

theorem Numeral.last {f e : Bool} {text : List Char} (h : Numeral f e text) :
    ∃ c, text.getLast? = some c ∧ c.isDigit = true := by
  cases h with
  | @intro sign i fs es _ hi hf he =>
    cases he with
    | none =>
      cases hf with
      | none =>
        cases hi with
        | zero => exact ⟨'0', by simp, rfl⟩
        | digits hds _ => simpa using hds.last sign
      | some hds => simpa using hds.last (sign ++ (i ++ ['.']))
    | @some mark sign' _ _ _ hds =>
      simpa using hds.last (sign ++ (i ++ (fs ++ mark :: sign')))

/-- No lexeme ends in a blank. -/
theorem Lexeme.Spellable.written_last {x : Lexeme} (h : x.Spellable) :
    ∃ c, x.written.getLast? = some c ∧ c ≠ ' ' := by
  have hdigit {text : List Char} {f e : Bool} (h : Numeral f e text) :
      ∃ c, text.getLast? = some c ∧ c ≠ ' ' := by
    obtain ⟨c, hc, hdigit⟩ := h.last
    exact ⟨c, hc, by rintro rfl; cases hdigit⟩
  cases h with
  | punctuator p => cases p <;> exact ⟨_, rfl, by decide⟩
  | @name text h =>
    obtain ⟨c, cs, htext, hc, hcs⟩ := h
    obtain ⟨d, hd⟩ := Option.ne_none_iff_exists'.1
      (mt List.getLast?_eq_none_iff.1 (List.cons_ne_nil c cs))
    have hcontinue : ∀ d ∈ c :: cs, isNameContinue d = true :=
      List.forall_mem_cons.2 ⟨isNameContinue_of_isNameStart hc, hcs⟩
    refine ⟨d, (congrArg List.getLast? htext).trans hd, ?_⟩
    rintro rfl
    cases hcontinue _ (List.mem_of_getLast? hd)
  | int h => exact hdigit h
  | float h =>
    obtain ⟨_, _, h, _⟩ := h
    exact hdigit h
  | string contents => exact ⟨'"', List.getLast?_concat, by decide⟩

/-! ### The lines of a layout -/

namespace Row

/-- The text of a line. -/
def text (r : Row) : List Char :=
  List.replicate (2 * r.opening.depth) ' ' ++ render 0 r.pieces

namespace Plain

variable {r : Row} (h : r.Plain)
include h

theorem render_layout : render 0 r.layout = '\n' :: r.text := by
  rw [layout, render, List.flatMap_cons, Piece.render_break h.breaks]
  rfl

theorem text_sameLine (hs : ∀ x ∈ lexemesOf r.pieces, SameLine x.written) : SameLine r.text := by
  refine SameLine.append (fun c hc => ?_) (render_sameLine h.flat hs 0)
  rw [(List.mem_replicate.1 hc).2]
  rfl

theorem text_last (hne : r.pieces ≠ []) (hs : Spelled (lexemesOf r.pieces)) :
    ∃ c, r.text.getLast? = some c ∧ c ≠ ' ' := by
  obtain ⟨p, hp⟩ := Option.ne_none_iff_exists'.1 (mt List.getLast?_eq_none_iff.1 hne)
  obtain ⟨x, rfl⟩ := h.last p hp
  obtain ⟨init, hpieces⟩ := List.getLast?_eq_some_iff.1 hp
  rw [hpieces, lexemesOf_append, spelled_append] at hs
  obtain ⟨c, hc, hblank⟩ := (hs.2 x (List.mem_singleton_self x)).written_last
  refine ⟨c, ?_, hblank⟩
  have htext : r.text = List.replicate (2 * r.opening.depth) ' ' ++ render 0 init ++ x.written := by
    have hlexeme : render 0 [Piece.lexeme x] = x.written := List.flatMap_singleton ..
    rw [text, hpieces, render_append, List.append_assoc, hlexeme]
  rw [htext, List.getLast?_append, hc]
  rfl

end Plain

end Row

theorem lines_rows {r : Row} {rows : List Row} (hplain : ∀ q ∈ r :: rows, q.Plain)
    (hs : ∀ x ∈ rowLexemes (r :: rows), SameLine x.written) :
    lines (r.text ++ render 0 (rows.flatMap Row.layout)) = (r :: rows).map Row.text := by
  induction rows generalizing r with
  | nil =>
    obtain ⟨hr, -⟩ := List.forall_mem_cons.1 hplain
    rw [rowLexemes_cons, List.forall_mem_append] at hs
    have hnil : render 0 (([] : List Row).flatMap Row.layout) = [] := rfl
    rw [hnil, List.append_nil, lines_of_sameLine (hr.text_sameLine hs.1)]
    rfl
  | cons q rows ih =>
    obtain ⟨hr, hrows⟩ := List.forall_mem_cons.1 hplain
    rw [rowLexemes_cons, List.forall_mem_append] at hs
    have hsame := hr.text_sameLine hs.1
    have hnil : ([] : List Char).getLast? ≠ some '\r' := by simp
    have hended : r.text.getLast? ≠ some '\r' := hsame.getLast?_append_ne hnil
    rw [List.flatMap_cons, render_append, (hrows q List.mem_cons_self).render_layout,
      List.cons_append, lines_append_lineFeed hended, lines_of_sameLine hsame, ih hrows hs.2]
    rfl

/-- No line of what is arranged is empty or ends in a blank. -/
theorem Arranges.lines {ps : List Piece} {nodes : List Node}
    (h : Arranges 0 (lineFeed :: ps) nodes) (hs : Spelled (lexemesOf ps)) :
    ∀ l ∈ lines (render 0 ps), ∃ c, l.getLast? = some c ∧ c ≠ ' ' := by
  obtain ⟨rows, hrows, hne⟩ := h
  have hlexemes : rowLexemes rows = lexemesOf ps := hrows.rowLexemes_eq
  obtain ⟨r, rest, rfl, hopening, hps⟩ := hrows.exists_cons
  have htext : render 0 ps = r.text ++ render 0 (rest.flatMap Row.layout) := by
    rw [hps, render_append, Row.text, hopening]
    rfl
  rw [← hlexemes] at hs
  rw [htext, lines_rows hrows.plain fun x hx => (hs x hx).written_sameLine, List.forall_mem_map]
  intro q hq
  refine (hrows.plain q hq).text_last (hne q hq) fun x hx => hs x ?_
  exact List.mem_flatMap.2 ⟨q, hq, hx⟩

/-! ### Documents -/

theorem return_not_mem_render {ps : List Piece} (hs : Spelled (lexemesOf ps)) (level : Nat) :
    '\r' ∉ render level ps := by
  intro hr
  obtain ⟨p, hp, hr⟩ := List.mem_flatMap.1 hr
  cases p with
  | lexeme x =>
    have hx : x ∈ lexemesOf ps := List.mem_filterMap.2 ⟨_, hp, rfl⟩
    cases (hs x hx).written_sameLine _ hr
  | comma | space | lineFeed => cases List.mem_singleton.1 hr
  | newLine depth =>
    rcases List.mem_cons.1 hr with hr | hr
    · cases hr
    · cases (List.mem_replicate.1 hr).2

/-- A text without empty lines does not end in a break. -/
theorem exists_getLast?_of_lines {text : List Char} (hr : '\r' ∉ text) (h : [] ∉ lines text) :
    ∃ c, text.getLast? = some c ∧ c ≠ '\n' := by
  cases hlast : text.getLast? with
  | none =>
    obtain rfl := List.getLast?_eq_none_iff.1 hlast
    exact absurd (List.mem_singleton_self []) h
  | some c =>
    refine ⟨c, rfl, ?_⟩
    rintro rfl
    obtain ⟨init, rfl⟩ := List.getLast?_eq_some_iff.1 hlast
    have hinit : init.getLast? ≠ some '\r' := fun hc =>
      hr (List.mem_append_left _ (List.mem_of_getLast? hc))
    rw [lines_append_lineFeed hinit] at h
    exact h (List.mem_append_right _ (List.mem_singleton_self []))

theorem render_joined_cons (x y : List Piece) (rest : List (List Piece)) :
    render 0 (joined [lineFeed, lineFeed] (x :: y :: rest)) =
      render 0 x ++ '\n' :: ([] ++ '\n' :: render 0 (joined [lineFeed, lineFeed] (y :: rest))) := by
  rw [joined, render_append, render_append, List.append_assoc]
  rfl

/-- Between parts that are joined so there is one empty line. -/
theorem lines_joined {xs : List (List Piece)} (hne : xs ≠ []) (h : ∀ x ∈ xs, '\r' ∉ render 0 x) :
    lines (render 0 (joined [lineFeed, lineFeed] xs)) =
      List.intercalate [[]] (xs.map fun x => lines (render 0 x)) := by
  induction xs with
  | nil => exact absurd rfl hne
  | cons x xs ih =>
    cases xs with
    | nil => simp [joined, List.intercalate]
    | cons y rest =>
      have hx : (render 0 x).getLast? ≠ some '\r' := fun hc =>
        h x List.mem_cons_self (List.mem_of_getLast? hc)
      have hrest := ih (List.cons_ne_nil y rest) fun z hz => h z (List.mem_cons_of_mem x hz)
      rw [render_joined_cons, lines_append_lineFeed hx, lines_append_lineFeed (by simp), hrest]
      simp [List.intercalate, GraphQL.lines]

theorem getLast?_joined {xs : List (List Piece)} (hne : xs ≠ [])
    (h : ∀ x ∈ xs, ∃ c, (render 0 x).getLast? = some c ∧ c ≠ '\n') :
    ∃ c, (render 0 (joined [lineFeed, lineFeed] xs)).getLast? = some c ∧ c ≠ '\n' := by
  induction xs with
  | nil => exact absurd rfl hne
  | cons x xs ih =>
    cases xs with
    | nil => exact h x List.mem_cons_self
    | cons y rest =>
      obtain ⟨c, hc, hne⟩ :=
        ih (List.cons_ne_nil y rest) fun z hz => h z (List.mem_cons_of_mem x hz)
      refine ⟨c, ?_, hne⟩
      rw [render_joined_cons, List.getLast?_append, List.getLast?_cons, List.nil_append,
        List.getLast?_cons, hc]
      rfl

theorem of_mem_intercalate {α : Type} {a : α} {separator : List α} {xs : List (List α)}
    (h : a ∈ List.intercalate separator xs) : a ∈ separator ∨ ∃ x ∈ xs, a ∈ x := by
  induction xs with
  | nil => cases h
  | cons x xs ih =>
    cases xs with
    | nil => exact .inr ⟨x, List.mem_cons_self, by simpa [List.intercalate] using h⟩
    | cons y rest =>
      have hsplit : a ∈ x ∨ a ∈ separator ∨ a ∈ List.intercalate separator (y :: rest) := by
        simpa [List.intercalate] using h
      rcases hsplit with h | h | h
      · exact .inr ⟨x, List.mem_cons_self, h⟩
      · exact .inl h
      · exact (ih h).imp_right fun ⟨z, hz, hza⟩ => ⟨z, List.mem_cons_of_mem x hz, hza⟩

/-- No line of a definition is empty or ends in a blank. -/
theorem Definition.lines_layout {x : Definition} (h : x.WellFormed) :
    ∀ l ∈ lines (render 0 (x.layout 0)), ∃ c, l.getLast? = some c ∧ c ≠ ' ' := by
  have ho : lineFeed.isFlat = false := rfl
  have hd : lineFeed.depth = 0 := rfl
  exact (Definition.arranges ho hd h).lines (Definition.derives_layout 0 h).2

theorem Definition.toList_source (x : Definition) :
    x.node.source.toList = render 0 (x.layout 0) := by
  simp [Node.source, Node.appendTo, x.layout_zero]

theorem Definition.nil_not_mem_lines {x : Definition} (h : x.WellFormed) :
    [] ∉ lines (render 0 (x.layout 0)) := by
  intro hnil
  obtain ⟨c, hc, -⟩ := Definition.lines_layout h [] hnil
  cases hc

theorem Definition.return_not_mem {x : Definition} (h : x.WellFormed) :
    '\r' ∉ render 0 (x.layout 0) := return_not_mem_render (Definition.derives_layout 0 h).2 0

namespace Document

/-- A text is the canonical layout of a document. -/
structure LaidOut (d : Document) (text : String) : Prop where
  /-- It ends in one line feed, and has no other line breaks than line feeds. -/
  ends : (∃ front c, text.toList = front ++ [c, '\n'] ∧ c ≠ '\n') ∧ '\r' ∉ text.toList
  /-- No line ends in a blank. -/
  trimmed : ∀ l ∈ lines text.toList, l.getLast? ≠ some ' '
  /-- One empty line is between definitions, and none is inside of them. -/
  spaced : lines text.toList =
      List.intercalate [[]] (d.definitions.map fun x => lines x.node.source.toList) ++ [[]] ∧
    ∀ x ∈ d.definitions, [] ∉ lines x.node.source.toList
  /-- Its lines are indented by the braces of its tokens, and the nodes of the outline
  start lines. -/
  indented : ∃ ts : List Token, tokenize text = ts.map .ok ∧ Outlined ts (Node.document d).outline

theorem exists_outlined {d : Document} (h : d.WellFormed) :
    ∃ ts : List Token, tokenize d.source = ts.map .ok ∧ Outlined ts (Node.document d).outline := by
  have hspelled := (derives_layout 0 h).2
  have htokens := tokenize_render hspelled (d.layout_loose 0) d.toList_source
  obtain ⟨rows, hrows⟩ := exists_rows h
  have hlexemes : rowLexemes rows = lexemesOf (d.layout 0) ++ [⟨.endOfInput, none⟩] := by
    rw [hrows.rowLexemes_eq, lexemesOf_lineFeed, lexemesOf_append]
    rfl
  obtain ⟨r, rest, rfl, hopening, hlayout⟩ := hrows.exists_cons
  have hsame : ∀ x ∈ rowLexemes (r :: rest), SameLine x.written := by
    rw [hlexemes, List.forall_mem_append]
    exact ⟨fun x hx => (hspelled x hx).written_sameLine, List.forall_mem_singleton.2 sameLine_nil⟩
  have hstart : LineStart [] 0 r.opening.depth := by
    rw [hopening]
    exact lineStart_nil
  have hon := onRows_placed hrows.plain hsame hstart
  rw [← hlayout] at hon
  refine ⟨_, htokens, ?_⟩
  rw [← hrows.nodes]
  exact hon.outlined hrows.plain hrows.indented hrows.starts

theorem toList_source_joined (d : Document) :
    d.source.toList =
      render 0 (joined [lineFeed, lineFeed] (d.definitions.map (Definition.layout 0))) ++ ['\n'] := by
  rw [toList_source, layout, render_append]
  rfl

section

variable {d : Document} (h : d.WellFormed)
include h

theorem return_not_mem_source : '\r' ∉ d.source.toList := by
  rw [toList_source]
  exact return_not_mem_render (derives_layout 0 h).2 0

/-- Nothing but one LF is behind the last definition. -/
theorem source_ends : ∃ front c, d.source.toList = front ++ [c, '\n'] ∧ c ≠ '\n' := by
  have hne : d.definitions.map (Definition.layout 0) ≠ [] := mt List.map_eq_nil_iff.1 h.1
  obtain ⟨c, hc, hbreak⟩ := getLast?_joined hne <| List.forall_mem_map.2 fun x hx =>
    exists_getLast?_of_lines (Definition.return_not_mem (h.2 x hx))
      (Definition.nil_not_mem_lines (h.2 x hx))
  obtain ⟨front, hfront⟩ := List.getLast?_eq_some_iff.1 hc
  refine ⟨front, c, ?_, hbreak⟩
  rw [toList_source_joined, hfront, List.append_assoc]
  rfl

/-- The lines of a document are those of its definitions, with empty ones in between. -/
theorem lines_source : lines d.source.toList =
    List.intercalate [[]] (d.definitions.map fun x => lines x.node.source.toList) ++ [[]] := by
  have hne : d.definitions.map (Definition.layout 0) ≠ [] := mt List.map_eq_nil_iff.1 h.1
  have hended : (render 0 (joined [lineFeed, lineFeed]
      (d.definitions.map (Definition.layout 0)))).getLast? ≠ some '\r' := by
    intro hr
    refine return_not_mem_source h ?_
    rw [toList_source_joined]
    exact List.mem_append_left _ (List.mem_of_getLast? hr)
  have hjoined := lines_joined hne <| List.forall_mem_map.2 fun x hx =>
    Definition.return_not_mem (h.2 x hx)
  rw [toList_source_joined, lines_append_lineFeed hended, hjoined, List.map_map]
  simp only [Definition.toList_source]
  rfl

/-- Every line of a document that is not empty is one of a definition. -/
theorem source_trimmed : ∀ l ∈ lines d.source.toList, l.getLast? ≠ some ' ' := by
  intro l hl hblank
  rw [lines_source h, List.mem_append, List.mem_singleton] at hl
  have hempty : l ≠ [] := by
    rintro rfl
    cases hblank
  obtain ⟨ls, hls, hl⟩ := (of_mem_intercalate (hl.resolve_right hempty)).resolve_left
    (mt List.mem_singleton.1 hempty)
  obtain ⟨x, hx, rfl⟩ := List.mem_map.1 hls
  rw [x.toList_source] at hl
  obtain ⟨c, hc, hne⟩ := Definition.lines_layout (h.2 x hx) l hl
  exact hne (Option.some.inj (hc.symm.trans hblank))

end

/-- The text of every document that is read is its canonical layout. -/
theorem source_laidOut {d : Document} {options : ParseOptions} {source : String}
    (h : ofSource options source = .ok d) : d.LaidOut d.source := by
  obtain ⟨hwf, -⟩ := wellFormed_of_ofSource h
  refine ⟨⟨source_ends hwf, return_not_mem_source hwf⟩, source_trimmed hwf,
    ⟨lines_source hwf, fun x hx => ?_⟩, exists_outlined hwf⟩
  rw [x.toList_source]
  exact Definition.nil_not_mem_lines (hwf.2 x hx)

/-- `{a(b: {c: 1}) {d}}`, and an enum. -/
def selectionAndEnum : Document :=
  ⟨[.operation ⟨.query, none, [], [],
      ⟨[.field ⟨none, ⟨"a"⟩, [⟨⟨"b"⟩, .object [⟨⟨"c"⟩, .int "1"⟩]⟩], [],
        some ⟨[.field ⟨none, ⟨"d"⟩, [], [], none⟩]⟩⟩]⟩⟩,
    .type (.enum ⟨⟨"E"⟩, [⟨⟨"F"⟩⟩]⟩)]⟩

theorem source_laidOut_selectionAndEnum :
    ofSource {} "\x7ba(b: \x7bc: 1\x7d) \x7bd\x7d\x7d enum E \x7bF\x7d" = .ok selectionAndEnum ∧
      selectionAndEnum.source =
        "\x7b\n  a(b: \x7bc: 1\x7d) \x7b\n    d\n  \x7d\n\x7d\n\nenum E \x7b\n  F\n\x7d\n" ∧
      selectionAndEnum.LaidOut selectionAndEnum.source := by
  have h : ofSource {} "\x7ba(b: \x7bc: 1\x7d) \x7bd\x7d\x7d enum E \x7bF\x7d" =
      .ok selectionAndEnum := by
    refine eq_ok_of_toOption ?_
    rw [ofSource, tokenize_eq_firstItems]
    decide +kernel
  exact ⟨h, by decide +kernel, source_laidOut h⟩

end Document

end GraphQL
