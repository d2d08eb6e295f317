/-
Parts that are written at a level of nesting.

* `indented` — a text with blanks behind all its line feeds;
* `Node.layoutAt`, `Node.layoutAt_add` — the layout of a part that starts deeper is the
  same, with all new lines as much deeper;
* `Indents` — sequences with no other line feeds than those that new lines start with;
* `Node.Unbroken`, `Node.layout_indents` — layouts are such, unless the text of a name,
  a number or an enum value has a line feed in it;
* `Node.appendTo_indented` — a part is written at a level as by itself, with the blanks
  of the level behind all line feeds.

Design notes: strings may have line feeds in them, since they are not written as they
are.  Documents are left out, as the empty lines in them have no blanks.
-/
import GraphQL.Proofs.Document.Nodes
import GraphQL.Proofs.Layout.Tokens

namespace GraphQL

/-! ### Indented texts -/

/-- A text with a number of blanks behind every line feed. -/
def indented (width : Nat) (text : List Char) : List Char :=
  text.flatMap fun c => if c = '\n' then '\n' :: List.replicate width ' ' else [c]

section

variable (width : Nat) {text : List Char}

theorem indented_append (text text' : List Char) :
    indented width (text ++ text') = indented width text ++ indented width text' :=
  List.flatMap_append

theorem indented_of_not_mem (h : '\n' ∉ text) : indented width text = text := by
  induction text with
  | nil => rfl
  | cons c cs ih =>
    have hc : c ≠ '\n' := by
      intro hc
      exact h (hc ▸ List.mem_cons_self)
    have hcs := ih fun hmem => h (List.mem_cons_of_mem c hmem)
    rw [indented, List.flatMap_cons, if_neg hc, ← indented, hcs]
    rfl

theorem indented_lineFeed (h : '\n' ∉ text) :
    indented width ('\n' :: text) = '\n' :: List.replicate width ' ' ++ text := by
  rw [← List.singleton_append, indented_append, indented_of_not_mem width h]
  simp [indented]

end

/-! ### Deeper layouts -/

namespace Piece

/-- A piece in a sequence that stands some levels deeper. -/
def deeper (k : Nat) : Piece → Piece
  | newLine depth => newLine (depth + k)
  | p => p

theorem deeper_of_isFlat {p : Piece} (h : p.isFlat = true) (k : Nat) : p.deeper k = p := by
  cases p with
  | newLine depth => cases h
  | _ => rfl

theorem render_deeper (level k : Nat) (p : Piece) :
    (p.deeper k).render level = p.render (level + k) := by
  cases p with
  | newLine depth =>
    have hlevel : level + (depth + k) = level + k + depth := by omega
    rw [deeper, render, render, hlevel]
  | _ => rfl

end Piece

open Piece (deeper)

theorem render_map_deeper (level k : Nat) (ps : List Piece) :
    render level (ps.map (deeper k)) = render (level + k) ps := by
  rw [render, List.flatMap_map]
  exact congrArg (ps.flatMap ·) (funext (Piece.render_deeper level k))

/-- What is written on one line has no new lines in it. -/
theorem Inline.map_deeper {ps : List Piece} (h : Inline ps) (k : Nat) :
    ps.map (deeper k) = ps := by
  have hp : ∀ p ∈ ps, p.deeper k = p := fun p hp => Piece.deeper_of_isFlat (h.flat p hp) k
  rw [List.map_congr_left hp, List.map_id']

namespace Layout

variable (depth k : Nat) (xs : List (List Piece))

theorem block_deeper :
    block (depth + k) (xs.map (List.map (deeper k))) = (block depth xs).map (deeper k) := by
  have hdepth : depth + k + 1 = depth + 1 + k := by omega
  cases xs with
  | nil => rfl
  | cons x xs =>
    simp [block, List.flatMap_map, List.map_flatMap, deeper, Piece.punctuator, hdepth]

theorem spacedBlock_deeper :
    spacedBlock (depth + k) (xs.map (List.map (deeper k)))
      = (spacedBlock depth xs).map (deeper k) := by
  cases xs with
  | nil => rfl
  | cons x xs => exact congrArg (Piece.space :: ·) (block_deeper depth k (x :: xs))

end Layout

open Layout

theorem nestedLayout_deeper {depth k : Nat} {ss? : Option SelectionSet}
    (h : ∀ ss, ss? = some ss →
      ss.members (depth + 1 + k) = (ss.members (depth + 1)).map (List.map (deeper k))) :
    nestedLayout (depth + k) ss? = (nestedLayout depth ss?).map (deeper k) := by
  cases ss? with
  | none => rfl
  | some ss =>
    have hdepth : depth + k + 1 = depth + 1 + k := by omega
    rw [nestedLayout, nestedLayout, hdepth, h ss rfl, spacedBlock_deeper]

theorem SelectionSet.members_deeper (ss : SelectionSet) (depth k : Nat) :
    ss.members (depth + k) = (ss.members depth).map (List.map (deeper k)) := by
  induction ss using SelectionSet.induct generalizing depth with
  | step ss ih =>
    rw [members_eq, members_eq, List.map_map]
    refine List.map_congr_left fun s hs => ?_
    have hnested := nestedLayout_deeper fun t ht => ih s hs t ht (depth + 1)
    rw [Function.comp_apply, Selection.layout_eq, Selection.layout_eq, List.map_append,
      s.heading_inline.map_deeper, hnested]

theorem SelectionSet.layout_deeper (ss : SelectionSet) (depth k : Nat) :
    ss.layout (depth + k) = (ss.layout depth).map (deeper k) := by
  have hdepth : depth + k + 1 = depth + 1 + k := by omega
  rw [layout, layout, hdepth, members_deeper, block_deeper]

theorem Selection.layout_deeper (s : Selection) (depth k : Nat) :
    s.layout (depth + k) = (s.layout depth).map (deeper k) := by
  have hnested : nestedLayout (depth + k) s.selectionSet? =
      (nestedLayout depth s.selectionSet?).map (deeper k) :=
    nestedLayout_deeper fun t _ => t.members_deeper (depth + 1) k
  rw [layout_eq, layout_eq, List.map_append, s.heading_inline.map_deeper, hnested]

namespace Inline

variable {heading : List Piece} (h : Inline heading) (depth k : Nat)
include h

/-- A block with members on one line each, behind what opens it. -/
theorem members_deeper {α : Type} {f : α → List Piece} (hf : ∀ x, Inline (f x)) (xs : List α) :
    heading ++ spacedBlock (depth + k) (xs.map f) =
      (heading ++ spacedBlock depth (xs.map f)).map (deeper k) := by
  have hxs : (xs.map f).map (List.map (deeper k)) = xs.map f := by
    rw [List.map_map]
    exact List.map_congr_left fun x _ => (hf x).map_deeper k
  rw [List.map_append, h.map_deeper, ← spacedBlock_deeper, hxs]

/-- The selections of a set, behind what opens it. -/
theorem selections_deeper (ss : SelectionSet) :
    heading ++ spacedBlock (depth + k) (ss.members (depth + k + 1)) =
      (heading ++ spacedBlock depth (ss.members (depth + 1))).map (deeper k) := by
  have hdepth : depth + k + 1 = depth + 1 + k := by omega
  rw [List.map_append, h.map_deeper, hdepth, ss.members_deeper, spacedBlock_deeper]

end Inline

/-- The members of a type, behind its keyword and its name. -/
theorem keyword_members_deeper (keyword : String) (n : Name) (depth k : Nat) {α : Type}
    {f : α → List Piece} (hf : ∀ x, Inline (f x)) (xs : List α) :
    [Piece.word keyword, Piece.space] ++ n.layout ++ spacedBlock (depth + k) (xs.map f) =
      ([Piece.word keyword, Piece.space] ++ n.layout ++ spacedBlock depth (xs.map f)).map
        (deeper k) := by
  have hheading := keyword_layout_inline keyword n .nil
  rw [List.append_nil] at hheading
  exact hheading.members_deeper depth k hf xs

namespace Node

/-- The layout of a part that starts on a line at a depth. -/
def layoutAt (depth : Nat) : Node → List Piece
  | document x => x.layout depth
  | enumType x => x.layout depth
  | field x => x.layout depth
  | fragmentDefinition x => x.layout depth
  | inlineFragment x => x.layout depth
  | inputObjectType x => x.layout depth
  | interfaceType x => x.layout depth
  | objectType x => x.layout depth
  | operationDefinition x => x.layout depth
  | selectionSet x => x.layout depth
  | typeExtension x => x.layout depth
  | n => n.layout

theorem layoutAt_zero (n : Node) : n.layoutAt 0 = n.layout := by
  cases n <;> rfl

theorem layoutAt_of_isPlain {n : Node} (h : n.isPlain = true) (depth : Nat) :
    n.layoutAt depth = n.layout := by
  cases n <;> first | rfl | cases h

theorem layout_inline {n : Node} (h : n.isPlain = true) : Inline n.layout := by
  cases n with
  | argument x => exact x.layout_inline
  | directive x => exact x.layout_inline
  | enumValueDefinition x => exact x.name.layout_inline
  | fieldDefinition x => exact x.layout_inline
  | fragmentSpread x => exact x.layout_inline
  | inputValueDefinition x => exact x.layout_inline
  | name x => exact x.layout_inline
  | objectField x =>
    obtain ⟨n, v⟩ := x
    exact n.layout_colon_inline v.layout_inline
  | scalarType x => exact .word _ (.space x.name.layout_inline)
  | typeRef x => exact x.layout_inline
  | unionType x => exact x.layout_inline
  | value x => exact x.layout_inline
  | var x => exact x.layout_inline
  | variableDefinition x => exact x.layout_inline
  | _ => cases h

/-- A part that starts deeper has the same layout, with all new lines deeper. -/
theorem layoutAt_add {n : Node} (hdoc : ∀ d, n ≠ document d) (depth k : Nat) :
    n.layoutAt (depth + k) = (n.layoutAt depth).map (deeper k) := by
  by_cases hplain : n.isPlain = true
  · rw [layoutAt_of_isPlain hplain, layoutAt_of_isPlain hplain, (layout_inline hplain).map_deeper]
  -- What is left has a block.
  cases n with
  | document x => exact absurd rfl (hdoc x)
  | enumType x =>
    have hvalue (v : EnumValueDefinition) : Inline v.layout := v.name.layout_inline
    exact keyword_members_deeper "enum" x.name depth k hvalue x.values
  | field x => exact Selection.layout_deeper (.field x) depth k
  | fragmentDefinition x =>
    have hcondition : Trailing ([.space, .word "on", .space] ++ x.typeCondition.layout) :=
      .space (.word _ (.space x.typeCondition.layout_inline))
    have hheading := keyword_layout_inline "fragment" x.name
      (hcondition.append (directivesLayout_trailing x.directives))
    have h := hheading.selections_deeper depth k x.selectionSet
    simpa only [layoutAt, FragmentDefinition.layout, List.append_assoc] using h
  | inlineFragment x => exact Selection.layout_deeper (.inline x) depth k
  | inputObjectType x =>
    exact keyword_members_deeper "input" x.name depth k InputValueDefinition.layout_inline x.fields
  | interfaceType x =>
    exact keyword_members_deeper "interface" x.name depth k FieldDefinition.layout_inline x.fields
  | objectType x =>
    exact x.heading_inline.members_deeper depth k FieldDefinition.layout_inline x.fields
  | operationDefinition x =>
    cases hshort : x.isShorthand with
    | true =>
      rw [layoutAt, layoutAt, OperationDefinition.layout, OperationDefinition.layout, if_pos hshort,
        if_pos hshort, x.selectionSet.layout_deeper]
    | false =>
      rw [layoutAt, layoutAt, OperationDefinition.layout_eq _ hshort,
        OperationDefinition.layout_eq _ hshort]
      exact x.heading_inline.selections_deeper depth k x.selectionSet
  | selectionSet x => exact x.layout_deeper depth k
  | typeExtension x =>
    have hheading : Inline ([.word "extend", .space] ++ ([.word "type", .space]
        ++ x.definition.name.layout ++ interfacesLayout x.definition.interfaces)) :=
      .word _ (.space x.definition.heading_inline)
    have h := hheading.members_deeper depth k FieldDefinition.layout_inline x.definition.fields
    simpa only [layoutAt, TypeExtension.layout, ObjectType.layout_eq, List.append_assoc] using h
  | _ => exact absurd rfl hplain

end Node

/-! ### Line feeds -/

/-- A piece has no other line feed in its text than the one that a new line starts with. -/
def Piece.Indents : Piece → Prop
  | lexeme x => '\n' ∉ x.written
  | comma | space | newLine _ => True
  | lineFeed => False

/-- The line feeds that a sequence writes are those that new lines start with. -/
def Indents (ps : List Piece) : Prop := ∀ p ∈ ps, p.Indents

/-- What is written at a level has the blanks of the level behind all line feeds. -/
theorem Indents.render_eq {ps : List Piece} (h : Indents ps) (level : Nat) :
    render level ps = indented (2 * level) (render 0 ps) := by
  induction ps with
  | nil => rfl
  | cons p ps ih =>
    obtain ⟨hp, hps⟩ := List.forall_mem_cons.1 h
    have hpiece : p.render level = indented (2 * level) (p.render 0) := by
      cases p with
      | lexeme x => exact (indented_of_not_mem _ hp).symm
      | comma => rfl
      | space => rfl
      | newLine depth =>
        have hblanks : '\n' ∉ List.replicate (2 * (0 + depth)) ' ' := by
          intro hmem
          cases (List.mem_replicate.1 hmem).2
        have hwidth : 2 * (level + depth) = 2 * level + 2 * (0 + depth) := by omega
        rw [Piece.render, Piece.render, indented_lineFeed _ hblanks, List.cons_append,
          List.replicate_append_replicate, hwidth]
      | lineFeed => cases hp
    rw [← List.singleton_append, render_append, render_append, indented_append, ← ih hps]
    simpa [render] using hpiece

namespace Piece

@[simp] theorem indents_punctuator (p : Punctuator) : (punctuator p).Indents := by
  have hp : (Lexeme.ofPunctuator p).Spellable := .punctuator p
  intro hmem
  cases hp.written_sameLine _ hmem

@[simp] theorem indents_string (contents : String) :
    (lexeme ⟨.string, some contents⟩).Indents := by
  intro hmem
  cases (Lexeme.Spellable.string contents).written_sameLine _ hmem

@[simp] theorem indents_word (text : String) : (word text).Indents ↔ '\n' ∉ text.toList := .rfl

@[simp] theorem indents_comma : comma.Indents := trivial

@[simp] theorem indents_space : space.Indents := trivial

@[simp] theorem indents_newLine (depth : Nat) : (newLine depth).Indents := trivial

theorem indents_deeper (k : Nat) (p : Piece) : (p.deeper k).Indents ↔ p.Indents := by
  cases p <;> exact .rfl

end Piece

section

variable (as bs : List Piece)

@[simp] theorem indents_nil : Indents [] := fun _ h => absurd h List.not_mem_nil

@[simp] theorem indents_cons (p : Piece) : Indents (p :: as) ↔ p.Indents ∧ Indents as :=
  List.forall_mem_cons

@[simp] theorem indents_append : Indents (as ++ bs) ↔ Indents as ∧ Indents bs :=
  List.forall_mem_append

theorem indents_map_deeper (k : Nat) : Indents (as.map (deeper k)) ↔ Indents as := by
  simp [Indents, Piece.indents_deeper]

end

theorem indents_flatMap {α : Type} (f : α → List Piece) (xs : List α) :
    Indents (xs.flatMap f) ↔ ∀ x ∈ xs, Indents (f x) := by
  induction xs with
  | nil => simp
  | cons x xs ih => simp [ih]

namespace Layout

variable (xs : List (List Piece))

theorem indents_joined {separator : List Piece} (h : Indents separator) :
    Indents (joined separator xs) ↔ ∀ x ∈ xs, Indents x := by
  fun_induction joined separator xs with
  | case1 => simp
  | case2 x => simp
  | case3 x y rest ih => simp [h, ih]

@[simp] theorem indents_commaSeparated :
    Indents (commaSeparated xs) ↔ ∀ x ∈ xs, Indents x :=
  indents_joined xs (by simp)

@[simp] theorem indents_parenthesized :
    Indents (parenthesized xs) ↔ ∀ x ∈ xs, Indents x := by
  cases xs <;> simp [parenthesized]

@[simp] theorem indents_block (depth : Nat) :
    Indents (block depth xs) ↔ ∀ x ∈ xs, Indents x := by
  cases xs <;> simp [block, indents_flatMap]

@[simp] theorem indents_spacedBlock (depth : Nat) :
    Indents (spacedBlock depth xs) ↔ ∀ x ∈ xs, Indents x := by
  cases xs <;> simp [spacedBlock]

end Layout

theorem SelectionSet.indents_layout (ss : SelectionSet) :
    Indents (ss.layout 0) ↔ ∀ s ∈ ss.selections, Indents s.node.layout := by
  have hselection (s : Selection) : Indents (s.layout 1) ↔ Indents s.node.layout := by
    rw [s.layout_node, ← indents_map_deeper (s.layout 0) 1, ← s.layout_deeper 0 1]
  simp [layout, members_eq, hselection]

@[simp] theorem indents_nestedLayout (ss? : Option SelectionSet) :
    Indents (nestedLayout 0 ss?) ↔ ∀ ss ∈ ss?, Indents (ss.layout 0) := by
  cases ss? with
  | none => simp [nestedLayout]
  | some ss => simp [nestedLayout, SelectionSet.layout]

@[simp] theorem indents_aliasLayout (a? : Option Name) :
    Indents (aliasLayout a?) ↔ ∀ a ∈ a?, Indents a.layout := by
  cases a? <;> simp [aliasLayout]

@[simp] theorem indents_directivesLayout (ds : List Directive) :
    Indents (directivesLayout ds) ↔ ∀ d ∈ ds, Indents d.layout := by
  simp [directivesLayout, indents_flatMap]

@[simp] theorem indents_defaultLayout (v? : Option Value) :
    Indents (defaultLayout v?) ↔ ∀ v ∈ v?, Indents v.layout := by
  cases v? <;> simp [defaultLayout]

@[simp] theorem indents_titleLayout (n? : Option Name) (vs : List VariableDefinition) :
    Indents (titleLayout n? vs) ↔ ∀ n ∈ n?, Indents n.layout := by
  cases n? <;> cases vs <;> simp [titleLayout]

@[simp] theorem indents_conditionLayout (t? : Option Name) :
    Indents (conditionLayout t?) ↔ ∀ t ∈ t?, Indents t.layout := by
  cases t? <;> simp [conditionLayout]

@[simp] theorem indents_interfacesLayout (ns : List Name) :
    Indents (interfacesLayout ns) ↔ ∀ n ∈ ns, Indents n.layout := by
  cases ns <;> simp [interfacesLayout]

namespace Node

/-- The text of a name, a number or an enum value, which is written as it is. -/
def plainText? : Node → Option String
  | name x => some x.text
  | value (.int text) | value (.float text) | value (.enum text) => some text
  | _ => none

/-- No name, number or enum value inside a node has a line feed in its text. -/
def Unbroken (n : Node) : Prop :=
  ∀ m ∈ n.entered, ∀ text, m.plainText? = some text → '\n' ∉ text.toList

theorem Unbroken.children {n : Node} (h : n.Unbroken) : ∀ c ∈ n.children, c.Unbroken := by
  intro c hc m hm
  refine h m ?_
  rw [entered_eq]
  exact List.mem_cons_of_mem n (List.mem_flatMap.2 ⟨c, hc, hm⟩)

theorem ne_document_of_mem_children {n c : Node} (hc : c ∈ n.children) (d : Document) :
    c ≠ document d := by
  have hselection (s : Selection) : s.node ≠ document d := by cases s <;> simp [Selection.node]
  have hdefinition (x : Definition) : x.node ≠ document d := by
    cases x with
    | type t => cases t <;> simp [Definition.node, TypeDefinition.node]
    | _ => simp [Definition.node]
  rintro rfl
  cases n with
  | value v => cases v <;> simp [children, ofValueParts] at hc
  | typeRef t => cases t <;> simp [children, ofTypeParts] at hc
  | _ => simp [children, hselection, hdefinition] at hc

/-- A layout consists of the layouts of the parts, and of pieces that write no line feed. -/
theorem layout_indents_of_children {n : Node} (hdoc : ∀ d, n ≠ document d)
    (htext : ∀ text, n.plainText? = some text → '\n' ∉ text.toList)
    (h : ∀ c ∈ n.children, Indents c.layout) : Indents n.layout := by
  -- Only the layout of the node itself is opened, so kinds that are parts of each other
  -- are not in one case.
  cases n with
  | document x => exact absurd rfl (hdoc x)
  | argument x | inputValueDefinition x | var x | enumValueDefinition x =>
    simp_all [children, layout, Argument.layout, InputValueDefinition.layout, Variable.layout,
      EnumValueDefinition.layout]
  | directive x | fieldDefinition x =>
    simp_all [children, layout, Directive.layout, FieldDefinition.layout, or_imp, forall_and]
  | enumType x | interfaceType x | inputObjectType x | scalarType x | typeExtension x =>
    simp_all [children, layout, EnumType.layout, InterfaceType.layout, InputObjectType.layout,
      ScalarType.layout, TypeExtension.layout]
  | field x | fragmentDefinition x | fragmentSpread x | variableDefinition x =>
    simp_all [children, layout, Field.layout_eq, FragmentDefinition.layout, FragmentSpread.layout,
      VariableDefinition.layout, SelectionSet.layout, or_imp, forall_and]
  | inlineFragment x => simp_all [children, layout, InlineFragment.layout_eq, or_imp, forall_and]
  | name x => simpa [layout, Name.layout] using htext x.text rfl
  | objectField x =>
    obtain ⟨n, v⟩ := x
    simp_all [children, layout, ObjectField.layout]
  | objectType x => simp_all [children, layout, ObjectType.layout_eq, or_imp, forall_and]
  | operationDefinition x =>
    cases hshort : x.isShorthand with
    | true => simp_all [children, layout, OperationDefinition.layout, or_imp, forall_and]
    | false =>
      have hkeyword : '\n' ∉ x.operation.keyword.text.toList := by
        cases x.operation <;> decide
      simp_all [children, layout, OperationDefinition.layout_eq 0 hshort, or_imp, forall_and]
  | selectionSet x => simp_all [children, layout, SelectionSet.indents_layout]
  | typeRef x => cases x <;> simp_all [children, ofTypeParts, layout, TypeRef.layout]
  | unionType x =>
    have hseparator : Indents [.space, .punctuator .pipe, .space] := by simp
    simp only [layout, UnionType.layout]
    split <;> simp_all [children, layout, indents_joined _ hseparator]
  | value x =>
    cases x with
    | var x => simp_all [children, ofValueParts, layout, Value.layout]
    | list items => simp_all [children, ofValueParts, layout, Value.layout, Value.layouts_eq]
    | object fields =>
      simp_all [children, ofValueParts, layout, Value.layout, ObjectField.layouts_eq]
    | string contents => simp [layout, Value.layout]
    | boolean b => cases b <;> simp [layout, Value.layout]
    | int text | float text | enum text => exact List.forall_mem_singleton.2 (htext text rfl)

theorem layout_indents {n : Node} (hdoc : ∀ d, n ≠ document d) (h : n.Unbroken) :
    Indents n.layout := by
  induction n using induct with
  | step n ih =>
    have htext := h n (by rw [entered_eq]; exact List.mem_cons_self)
    refine layout_indents_of_children hdoc htext fun c hc => ?_
    exact ih c hc (ne_document_of_mem_children hc) (h.children c hc)

/-- A part is written at a level of nesting as by itself, with the blanks of the level behind
all line feeds, and the text in front of it stays as it is.  It makes no difference whether
the level is the one of the whole text or the depth of the line on which the part starts. -/
theorem appendTo_indented {n : Node} (hdoc : ∀ d, n ≠ document d) (h : n.Unbroken)
    (sink : String) (level : Nat) :
    n.appendTo sink level = sink ++ String.ofList (indented (2 * level) n.source.toList) ∧
      ∀ depth, render level (n.layoutAt depth) =
        indented (2 * (level + depth)) n.source.toList := by
  have hsource : n.source.toList = render 0 n.layout := by
    simp [source, appendTo]
  have hrender := (layout_indents hdoc h).render_eq
  refine ⟨by rw [appendTo, hsource, hrender], fun depth => ?_⟩
  have hdeeper := layoutAt_add hdoc 0 depth
  rw [Nat.zero_add, layoutAt_zero] at hdeeper
  rw [hdeeper, render_map_deeper, hsource, hrender]

/-- The field `a` of `{a(b: "\n") {c}}`, given a string that is a line feed. -/
def fieldWithLineFeed : Node :=
  field ⟨none, ⟨"a"⟩, [⟨⟨"b"⟩, .string "\n"⟩], [],
    some ⟨[.field ⟨none, ⟨"c"⟩, [], [], none⟩]⟩⟩

theorem appendTo_indented_fieldWithLineFeed :
    fieldWithLineFeed.Unbroken ∧
      fieldWithLineFeed.appendTo "- " 1 =
        "- " ++ String.ofList (indented (2 * 1) fieldWithLineFeed.source.toList) ∧
      fieldWithLineFeed.appendTo "- " 1 = "- a(b: \"\\n\") \x7b\n    c\n  \x7d" := by
  have hdoc : ∀ d, fieldWithLineFeed ≠ document d := by
    intro d h
    cases h
  have hunbroken : fieldWithLineFeed.Unbroken := by
    simp [Unbroken, fieldWithLineFeed, entered_eq, children, ofValueParts, Selection.node,
      plainText?]
  exact ⟨hunbroken, (appendTo_indented hdoc hunbroken "- " 1).1, by decide +kernel⟩

end Node

end GraphQL
