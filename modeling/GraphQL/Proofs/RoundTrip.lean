/-
Writing a document and reading it back.

* `Document.ofSource_source` — every well-formed document is read back from
  its own text, and every document that was read is well-formed;
* `Document.source_lexemes` — of the lexemes that a document was read from,
  its own text leaves out keywords of operations that can do without them, and
  nothing else.

Design notes: both follow from what spells a document.  Reading and writing
only meet in the lexemes of a text.
-/
import GraphQL.Node
import GraphQL.Proofs.Grammar.Source
import GraphQL.Proofs.Spelling.Document

namespace GraphQL

/-- A text consists of some lexemes: they are what the lexer finds in it, and
then the end of the input. -/
def ConsistsOf (source : String) (ws : List Lexeme) : Prop :=
  ∃ ts : List Token, tokenize source = ts.map .ok ∧
    ts.map Token.toLexeme = ws ++ [⟨.endOfInput, none⟩]

theorem Lexes.consistsOf {source : String} {ws : List Lexeme} (h : Lexes source.toList ws) :
    ConsistsOf source ws := by
  obtain ⟨ts, p, hts, rfl⟩ := tokenize_of_lexes h
  exact ⟨ts ++ [Token.endAt p], hts, by simp [Token.endAt]⟩

namespace Document

theorem toList_source (d : Document) : d.source.toList = render 0 (d.layout 0) := by
  simp [source, Node.source, Node.appendTo, Node.layout]

/-- The lexemes in the text of a well-formed document are those of its layout. -/
theorem lexes_source {d : Document} (h : Spelled (lexemesOf (d.layout 0))) :
    Lexes d.source.toList (lexemesOf (d.layout 0)) := by
  rw [toList_source]
  exact .render h (d.layout_loose 0) 0

/-- What a source text spells, part by part. -/
theorem parts_of_derives {d : Document} {ws : List Lexeme} (h : d.Derives ws) (hs : Spelled ws) :
    d.WellFormed ∧ ∃ parts : List (Definition × List Lexeme),
      parts.map Prod.fst = d.definitions ∧ (∀ p ∈ parts, p.1.Derives p.2) ∧
        parts.flatMap Prod.snd = ws ∧
        (parts.flatMap fun p => p.1.shortened p.2) = lexemesOf (d.layout 0) := by
  obtain ⟨h, hne⟩ := h
  obtain ⟨parts, rfl, hparts, rfl⟩ := Many.iff_parts.1 h
  -- Each definition has lexemes of its own, and the layout is one definition after the other.
  have heach : ∀ p ∈ parts, p.1.WellFormed ∧ p.1.shortened p.2 = lexemesOf (p.1.layout 0) := by
    intro p hp
    refine Definition.shortened_eq 0 (hparts p hp) fun x hx => hs x ?_
    exact List.mem_flatMap.2 ⟨p, hp, hx⟩
  refine ⟨⟨hne, ?_⟩, parts, rfl, hparts, rfl, ?_⟩
  · simpa using fun x w hx => (heach (x, w) hx).1
  · rw [lexemesOf_layout, List.flatMap_map, List.flatMap_def, List.flatMap_def]
    exact congrArg List.flatten (List.map_congr_left fun p hp => (heach p hp).2)

/-- Whatever is read from a text is well-formed. -/
theorem wellFormed_of_ofSource {d : Document} {options : ParseOptions} {source : String}
    (h : ofSource options source = .ok d) : d.WellFormed ∧ d.depth ≤ options.maxDepth := by
  obtain ⟨ws, hws, hd, hdepth⟩ := ofSource_eq_ok_iff.1 h
  exact ⟨(parts_of_derives hd hws.spellable).1, hdepth⟩

/-- A well-formed document is read from its own text. -/
theorem ofSource_of_wellFormed {d : Document} {options : ParseOptions} (h : d.WellFormed)
    (hdepth : d.depth ≤ options.maxDepth) : ofSource options d.source = .ok d := by
  obtain ⟨hd, hs⟩ := derives_layout 0 h
  exact ofSource_eq_ok_iff.2 ⟨_, lexes_source hs, hd, hdepth⟩

/-- A document is read back from its own text: every well-formed one, within
every limit that its nesting allows, and so every one that was read before. -/
theorem ofSource_source :
    (∀ (d : Document) (options : ParseOptions), d.WellFormed → d.depth ≤ options.maxDepth →
      ofSource options d.source = .ok d) ∧
    ∀ (d : Document) (options : ParseOptions) (source : String), ofSource options source = .ok d →
      d.WellFormed ∧ (∀ limit : ParseOptions, d.depth ≤ limit.maxDepth →
        ofSource limit d.source = .ok d) ∧
      (ofSource options d.source).map Document.source = .ok d.source := by
  refine ⟨fun d options => ofSource_of_wellFormed, fun d options source h => ?_⟩
  obtain ⟨hd, hdepth⟩ := wellFormed_of_ofSource h
  refine ⟨hd, fun limit => ofSource_of_wellFormed hd, ?_⟩
  rw [ofSource_of_wellFormed hd hdepth]
  rfl

/-- `query ($n: Int! = 0)`, with one field: `a: on(s: "\"")`. -/
def quotedQuery : Document :=
  ⟨[.operation ⟨.query, none, [⟨⟨⟨"n"⟩⟩, .nonNull (.named ⟨"Int"⟩), some (.int "0")⟩], [],
    ⟨[.field ⟨some ⟨"a"⟩, ⟨"on"⟩, [⟨⟨"s"⟩, .string "\""⟩], [], none⟩]⟩⟩]⟩

theorem quotedQuery_source :
    quotedQuery.WellFormed ∧ quotedQuery.depth ≤ 2 ∧
      ofSource ⟨2⟩ quotedQuery.source = .ok quotedQuery ∧
      (ofSource ⟨2⟩ quotedQuery.source).map Document.source = .ok quotedQuery.source := by
  have hn : IsName "n" := by decide
  have hint : IsName "Int" := by decide
  have ha : IsName "a" := by decide
  have hon : IsName "on" := by decide
  have hs : IsName "s" := by decide
  have hzero : IsInteger "0" := .intro (.inl rfl) .zero .none .none
  have hvariable : VariableDefinition.WellFormed
      ⟨⟨⟨"n"⟩⟩, .nonNull (.named ⟨"Int"⟩), some (.int "0")⟩ := by
    refine ⟨hn, ⟨rfl, hint⟩, ?_⟩
    simp [Value.WellFormedDefault, Value.isConst, hzero]
  have hset : SelectionSet.WellFormed
      ⟨[.field ⟨some ⟨"a"⟩, ⟨"on"⟩, [⟨⟨"s"⟩, .string "\""⟩], [], none⟩]⟩ := by
    refine .intro (by simp) ?_ (by simp)
    simpa [Selection.WellFormedOutside] using ⟨ha, hon, hs, .string _⟩
  have hwf : quotedQuery.WellFormed := by
    refine ⟨by simp [quotedQuery], ?_⟩
    simpa [quotedQuery] using ⟨by simp, by simpa using hvariable, by simp, hset⟩
  have h := ofSource_source.1 quotedQuery ⟨2⟩ hwf (by decide)
  exact ⟨hwf, by decide, h, (ofSource_source.2 quotedQuery ⟨2⟩ _ h).2.2⟩

/-- The text of a document has the lexemes that the document was read from, in
the same order, but without the keyword `query` of each operation in which
nothing stands between it and the selections. -/
theorem source_lexemes {d : Document} {options : ParseOptions} {source : String}
    (h : ofSource options source = .ok d) :
    ∃ parts : List (Definition × List Lexeme),
      parts.map Prod.fst = d.definitions ∧ (∀ p ∈ parts, p.1.Derives p.2) ∧
        ConsistsOf source (parts.flatMap Prod.snd) ∧
        ConsistsOf d.source (parts.flatMap fun p => p.1.shortened p.2) := by
  obtain ⟨ws, hws, hd, -⟩ := ofSource_eq_ok_iff.1 h
  obtain ⟨hwf, parts, hdefinitions, hparts, hsource, hlayout⟩ :=
    parts_of_derives hd hws.spellable
  refine ⟨parts, hdefinitions, hparts, ?_, ?_⟩
  · rw [hsource]
    exact hws.consistsOf
  · rw [hlayout]
    exact (lexes_source (derives_layout 0 hwf).2).consistsOf

/-- A query for one field, `a`. -/
def fieldQuery : OperationDefinition :=
  ⟨.query, none, [], [], ⟨[.field ⟨none, ⟨"a"⟩, [], [], none⟩]⟩⟩

theorem source_lexemes_query :
    ofSource {} "query {a}" = .ok ⟨[.operation fieldQuery]⟩ ∧
      ∃ parts : List (Definition × List Lexeme),
        parts.map Prod.fst = [.operation fieldQuery] ∧ (∀ p ∈ parts, p.1.Derives p.2) ∧
          ConsistsOf "query {a}" (parts.flatMap Prod.snd) ∧
          ConsistsOf "\x7b\n  a\n\x7d\n" (parts.flatMap fun p => p.1.shortened p.2) := by
  have ha : Name.WellFormed ⟨"a"⟩ := (by decide : IsName "a")
  have hset : fieldQuery.selectionSet.WellFormed := by
    refine .intro (by simp) ?_ (by simp)
    simpa [Selection.WellFormedOutside] using ha
  have hquery : fieldQuery.WellFormed := ⟨by simp [fieldQuery], by simp [fieldQuery],
    by simp [fieldQuery], hset⟩
  obtain ⟨hkeyword, hspelled⟩ := (fieldQuery.spells_keyword 0 _).2 ⟨hquery, rfl⟩
  have hd : Document.Derives ⟨[.operation fieldQuery]⟩ _ :=
    .intro (.cons (.operation (OperationDefinition.derives_iff.2 (.inr hkeyword))) .nil) (by simp)
  -- The text is that of the layout with the keyword in front of it, all on one line.
  let pieces : List Piece :=
    [.word "query", .space, .punctuator .braceOpen, .word "a", .punctuator .braceClose]
  have hlexes : Lexes "query {a}".toList (lexemesOf pieces) :=
    @Lexes.render pieces hspelled rfl 0
  have h : ofSource {} "query {a}" = .ok ⟨[.operation fieldQuery]⟩ :=
    ofSource_eq_ok_iff.2 ⟨_, hlexes, hd, by decide⟩
  exact ⟨h, source_lexemes h⟩

end Document

end GraphQL
