/-
The words of a document, in the order of the text.

Words are the values of names, numbers and strings.  Some names are keywords,
which the grammar takes up; every other word is the text of a node.

* `Node.phrase` — the keywords and the children of a node, in the order of the
  text;
* `Node.words` — the words of a node, keywords marked as such;
* `Node.filterMap_entered` — a walk comes to all words but the keywords, in
  their order;
* `Node.wordsOf_layout` — the words of a node are those of its layout;
* `Document.entered_texts` — a walk through a document that was read comes to
  the words of its source in their order, and leaves out the keywords only.

Design notes: a keyword is marked by the place it stands in, not by how it is
spelled, since other names may be spelled like it.
-/
import GraphQL.Proofs.Document.Nodes

namespace GraphQL

/-! ### Keywords and parts -/

/-- A keyword that the grammar asks for, or a part of another kind. -/
inductive Constituent (α : Type)
  | keyword (k : Keyword)
  | part (a : α)
deriving DecidableEq

namespace Constituent

variable {α β : Type}

/-- The part, if it is no keyword. -/
def part? : Constituent α → Option α
  | keyword _ => none
  | part a => some a

/-- The text of a word. -/
def text : Constituent String → String
  | keyword k => k.text
  | part text => text

/-- Puts what makes up a part in its place. -/
def expand (f : α → List (Constituent β)) : Constituent α → List (Constituent β)
  | keyword k => [keyword k]
  | part a => f a

/-- The texts of a keyword or of what makes up a part. -/
def texts (f : α → List (Option String)) : Constituent α → List (Option String)
  | keyword k => [some k.text]
  | part a => f a

@[simp] theorem texts_keyword (f : α → List (Option String)) (k : Keyword) :
    (keyword k).texts f = [some k.text] := rfl

@[simp] theorem texts_part (f : α → List (Option String)) (a : α) : (part a).texts f = f a := rfl

/-- What is left without the keywords. -/
def withoutKeywords (cs : List (Constituent α)) : List α := cs.filterMap part?

variable (cs ds : List (Constituent α))

@[simp] theorem withoutKeywords_nil : withoutKeywords ([] : List (Constituent α)) = [] := rfl

@[simp] theorem withoutKeywords_keyword (k : Keyword) :
    withoutKeywords (.keyword k :: cs) = withoutKeywords cs := rfl

@[simp] theorem withoutKeywords_part (a : α) :
    withoutKeywords (.part a :: cs) = a :: withoutKeywords cs := rfl

@[simp] theorem withoutKeywords_append :
    withoutKeywords (cs ++ ds) = withoutKeywords cs ++ withoutKeywords ds := List.filterMap_append

@[simp] theorem withoutKeywords_map_part (as : List α) : withoutKeywords (as.map part) = as := by
  induction as with
  | nil => rfl
  | cons a as ih => simp [ih]

@[simp] theorem withoutKeywords_map_comp (f : β → α) (bs : List β) :
    withoutKeywords (bs.map (part ∘ f)) = bs.map f := by
  rw [← List.map_map, withoutKeywords_map_part]

theorem withoutKeywords_flatMap (f : β → List (Constituent α)) (bs : List β) :
    withoutKeywords (bs.flatMap f) = bs.flatMap fun b => withoutKeywords (f b) :=
  List.filterMap_flatMap

theorem withoutKeywords_expand (f : α → List (Constituent β)) :
    withoutKeywords (cs.flatMap (expand f)) =
      (withoutKeywords cs).flatMap fun a => withoutKeywords (f a) := by
  induction cs with
  | nil => rfl
  | cons c cs ih => cases c <;> simp [expand, ih]

end Constituent

open Constituent (withoutKeywords)

namespace Node

/-- The text of a name, or of a value that is a single word. -/
def text? : Node → Option String
  | name n => some n.text
  | value (.int text) | value (.float text) | value (.string text) | value (.enum text) => some text
  | value (.boolean b) => some (if b then "true" else "false")
  | _ => none

/-- The keywords and the children of a node, in the order of the text. -/
def phrase (n : Node) : List (Constituent Node) :=
  match n with
  | operationDefinition x => .keyword x.operation.keyword :: n.children.map .part
  | fragmentDefinition x =>
    [.keyword .fragment, .part (name x.name), .keyword .on, .part (name x.typeCondition)]
      ++ (x.directives.map directive ++ [selectionSet x.selectionSet]).map .part
  | inlineFragment x =>
    x.typeCondition?.elim [] (fun t => [.keyword .on, .part (name t)])
      ++ (x.directives.map directive ++ [selectionSet x.selectionSet]).map .part
  | scalarType _ => .keyword .scalar :: n.children.map .part
  | objectType x =>
    [.keyword .type, .part (name x.name)]
      ++ (if x.interfaces.isEmpty then [] else [.keyword .implements])
      ++ (x.interfaces.map name ++ x.fields.map fieldDefinition).map .part
  | interfaceType _ => .keyword .interface :: n.children.map .part
  | unionType _ => .keyword .union :: n.children.map .part
  | enumType _ => .keyword .enum :: n.children.map .part
  | inputObjectType _ => .keyword .input :: n.children.map .part
  | typeExtension _ => .keyword .extend :: n.children.map .part
  | _ => n.children.map .part

/-- Without its keywords, a phrase is made up of the children. -/
theorem withoutKeywords_phrase (n : Node) : withoutKeywords n.phrase = n.children := by
  cases n with
  | inlineFragment x =>
    obtain ⟨t?, ds, ss⟩ := x
    cases t? <;> simp [phrase, children]
  | objectType x =>
    obtain ⟨n, is, fs⟩ := x
    cases is <;> simp [phrase, children]
  | _ => simp [phrase, children]

theorem mem_children_of_mem_phrase {n c : Node} (h : .part c ∈ n.phrase) : c ∈ n.children := by
  rw [← n.withoutKeywords_phrase]
  exact List.mem_filterMap.2 ⟨_, h, rfl⟩

/-- The words of a node, in the order of the text. -/
def words (n : Node) : List (Constituent String) :=
  n.text?.toList.map .part ++ n.phrase.attach.flatMap fun
    | ⟨.keyword k, _⟩ => [.keyword k]
    | ⟨.part c, _⟩ => c.words
termination_by sizeOf n
decreasing_by exact sizeOf_lt_of_mem_children (mem_children_of_mem_phrase ‹_›)

theorem words_eq (n : Node) :
    n.words = n.text?.toList.map .part ++ n.phrase.flatMap (Constituent.expand words) := by
  have hexpand (c : {c // c ∈ n.phrase}) : (match c with
      | ⟨.keyword k, _⟩ => [.keyword k]
      | ⟨.part c, _⟩ => c.words) = Constituent.expand words c.1 := by
    obtain ⟨c, hc⟩ := c
    cases c <;> rfl
  rw [words, funext hexpand]
  simp

/-- The words that are no keywords are a node's own text and those of its children. -/
theorem withoutKeywords_words (n : Node) :
    withoutKeywords n.words =
      n.text?.toList ++ n.children.flatMap fun c => withoutKeywords c.words := by
  rw [words_eq, Constituent.withoutKeywords_append, Constituent.withoutKeywords_map_part,
    Constituent.withoutKeywords_expand, withoutKeywords_phrase]

/-- A walk comes to the words that are no keywords, in the order of the text. -/
theorem filterMap_entered (n : Node) : n.entered.filterMap text? = withoutKeywords n.words := by
  induction hs : sizeOf n using Nat.strongRecOn generalizing n with
  | _ s ih =>
    have hchildren : (n.children.flatMap fun c => c.entered.filterMap text?) =
        n.children.flatMap fun c => withoutKeywords c.words := by
      rw [List.flatMap_def, List.flatMap_def]
      refine congrArg _ (List.map_congr_left fun c hc => ?_)
      exact ih _ (hs ▸ sizeOf_lt_of_mem_children hc) c rfl
    rw [withoutKeywords_words, ← hchildren, entered_eq, List.filterMap_cons, List.filterMap_flatMap]
    cases n.text? <;> rfl

end Node

/-! ### The words of a layout -/

/-- The values of the lexemes that carry one, in their order. -/
def valuesOf (w : List Lexeme) : List (Option String) :=
  (w.filter (·.kind.hasValue)).map Lexeme.value

theorem valuesOf_flatMap {α : Type} (f : α → List Lexeme) (xs : List α) :
    valuesOf (xs.flatMap f) = xs.flatMap fun x => valuesOf (f x) := by
  simp [valuesOf, List.filter_flatMap, List.map_flatMap]

/-- The words in a layout. -/
def wordsOf (pieces : List Piece) : List (Option String) := valuesOf (lexemesOf pieces)

section

variable (as bs : List Piece)

@[simp] theorem wordsOf_nil : wordsOf [] = [] := rfl

@[simp] theorem wordsOf_append : wordsOf (as ++ bs) = wordsOf as ++ wordsOf bs := by
  simp [wordsOf, valuesOf]

@[simp] theorem wordsOf_punctuator (p : Punctuator) :
    wordsOf (.punctuator p :: as) = wordsOf as := rfl

@[simp] theorem wordsOf_word (text : String) :
    wordsOf (.word text :: as) = some text :: wordsOf as := rfl

@[simp] theorem wordsOf_comma : wordsOf (.comma :: as) = wordsOf as := rfl

@[simp] theorem wordsOf_space : wordsOf (.space :: as) = wordsOf as := rfl

@[simp] theorem wordsOf_newLine (depth : Nat) : wordsOf (.newLine depth :: as) = wordsOf as := rfl

end

theorem wordsOf_flatMap {α : Type} (f : α → List Piece) (xs : List α) :
    wordsOf (xs.flatMap f) = xs.flatMap fun x => wordsOf (f x) := by
  rw [wordsOf, lexemesOf_flatMap, valuesOf_flatMap]
  rfl

namespace Layout

variable (xs : List (List Piece))

/-- Separators without words leave those of the members. -/
theorem wordsOf_joined {separator : List Piece} (h : wordsOf separator = []) :
    wordsOf (joined separator xs) = xs.flatMap wordsOf := by
  fun_induction joined separator xs with
  | case1 => rfl
  | case2 x => simp
  | case3 x y rest ih => simp [h, ih]

@[simp] theorem wordsOf_commaSeparated : wordsOf (commaSeparated xs) = xs.flatMap wordsOf :=
  wordsOf_joined xs rfl

@[simp] theorem wordsOf_parenthesized : wordsOf (parenthesized xs) = xs.flatMap wordsOf := by
  cases xs <;> simp [parenthesized]

@[simp] theorem wordsOf_block (depth : Nat) : wordsOf (block depth xs) = xs.flatMap wordsOf := by
  cases xs <;> simp [block, wordsOf_flatMap]

@[simp] theorem wordsOf_spacedBlock (depth : Nat) :
    wordsOf (spacedBlock depth xs) = xs.flatMap wordsOf := by
  rw [wordsOf, lexemesOf_spacedBlock, ← wordsOf, wordsOf_block]

end Layout

open Layout

/-- How deep a selection set stands has no influence on its words. -/
theorem SelectionSet.wordsOf_layout (ss : SelectionSet) (depth : Nat) :
    wordsOf (ss.layout depth) = wordsOf (ss.layout 0) := by
  -- Selections stand one level deeper than their set, and so do the sets nested in them.
  induction ss using SelectionSet.induct generalizing depth with
  | step ss ih =>
    have hselection : ∀ s ∈ ss, wordsOf (s.layout (depth + 1)) = wordsOf (s.layout 1) := by
      intro s hs
      have hnested (t? : Option SelectionSet) (ht : t? = s.selectionSet?) :
          wordsOf (nestedLayout (depth + 1) t?) = wordsOf (nestedLayout 1 t?) := by
        cases t? with
        | none => rfl
        | some t =>
          have hdepth := fun d => ih s hs t ht.symm d
          simpa [nestedLayout, SelectionSet.layout] using (hdepth (depth + 1)).trans (hdepth 1).symm
      cases s with
      | field f => simp [Selection.layout, Field.layout_eq, hnested f.selectionSet? rfl]
      | spread s => rfl
      | inline f =>
        simp [Selection.layout, InlineFragment.layout_eq, hnested (some f.selectionSet) rfl]
    simp only [SelectionSet.layout, SelectionSet.members_eq, wordsOf_block, List.flatMap_map]
    rw [List.flatMap_def, List.flatMap_def, List.map_congr_left hselection]

@[simp] theorem wordsOf_nestedLayout (depth : Nat) (ss? : Option SelectionSet) :
    wordsOf (nestedLayout depth ss?) = ss?.toList.flatMap fun ss => wordsOf (ss.layout 0) := by
  cases ss? with
  | none => rfl
  | some ss =>
    rw [Option.toList_some, List.flatMap_singleton, ← ss.wordsOf_layout depth]
    simp [nestedLayout, SelectionSet.layout]

theorem Selection.wordsOf_layout (s : Selection) (depth : Nat) :
    wordsOf (s.layout depth) = wordsOf s.node.layout := by
  cases s with
  | field f => simp [Selection.layout, node, Node.layout, Field.layout_eq]
  | spread s => rfl
  | inline f => simp [Selection.layout, node, Node.layout, InlineFragment.layout_eq]

@[simp] theorem wordsOf_aliasLayout (a? : Option Name) :
    wordsOf (aliasLayout a?) = a?.toList.flatMap fun a => wordsOf a.layout := by
  cases a? <;> simp [aliasLayout]

@[simp] theorem wordsOf_directivesLayout (ds : List Directive) :
    wordsOf (directivesLayout ds) = ds.flatMap fun d => wordsOf d.layout := by
  simp [directivesLayout, wordsOf_flatMap]

@[simp] theorem wordsOf_defaultLayout (v? : Option Value) :
    wordsOf (defaultLayout v?) = v?.toList.flatMap fun v => wordsOf v.layout := by
  cases v? <;> simp [defaultLayout]

@[simp] theorem wordsOf_titleLayout (n? : Option Name) (vs : List VariableDefinition) :
    wordsOf (titleLayout n? vs) = n?.toList.flatMap fun n => wordsOf n.layout := by
  cases n? <;> cases vs <;> simp [titleLayout]

namespace Node

/-- Not a document and not an operation, which may be written without its keyword. -/
def Inner : Node → Prop
  | document _ | operationDefinition _ => False
  | _ => True

theorem inner_children {n : Node} (h : n.Inner) : ∀ c ∈ n.children, c.Inner := by
  have hselection (s : Selection) : s.node.Inner := by cases s <;> trivial
  cases n with
  | document x => cases h
  | operationDefinition x => cases h
  | selectionSet x => simp [children, hselection]
  | typeRef x => cases x <;> simp [children, ofTypeParts, Inner]
  | value x => cases x <;> simp [children, ofValueParts, Inner]
  | _ => simp [children, Inner, or_imp, forall_and]

/-- What the layout of a node is made up of. -/
theorem wordsOf_layout_eq {n : Node} (h : n.Inner) :
    wordsOf n.layout = n.text?.toList.map some
      ++ n.phrase.flatMap (Constituent.texts fun c => wordsOf c.layout) := by
  cases n with
  | document x => cases h
  | operationDefinition x => cases h
  | inlineFragment x =>
    obtain ⟨t?, ds, ss⟩ := x
    cases t? <;>
      simp [layout, phrase, text?, InlineFragment.layout_eq, conditionLayout, List.flatMap_map,
        Keyword.text]
  | objectField x =>
    obtain ⟨n, v⟩ := x
    simp [layout, phrase, text?, children, ObjectField.layout]
  | objectType x =>
    obtain ⟨n, is, fs⟩ := x
    cases is <;>
      simp [layout, phrase, text?, ObjectType.layout_eq, interfacesLayout, List.flatMap_map,
        Keyword.text]
  | selectionSet x =>
    simp [layout, phrase, text?, children, SelectionSet.layout, SelectionSet.members_eq,
      List.flatMap_map, Selection.wordsOf_layout]
  | typeRef x => cases x <;> simp [layout, phrase, text?, children, ofTypeParts, TypeRef.layout]
  | unionType x =>
    have hmembers : wordsOf (joined [.space, .punctuator .pipe, .space] (x.members.map Name.layout))
        = x.members.flatMap fun n => wordsOf n.layout := by
      rw [wordsOf_joined _ rfl, List.flatMap_map]
    simp only [layout, UnionType.layout]
    split <;> simp_all [phrase, text?, children, Keyword.text, List.flatMap_map]
  | value x =>
    cases x with
    | var v => simp [layout, phrase, text?, children, ofValueParts, Value.layout]
    | list items =>
      simp [layout, phrase, text?, children, ofValueParts, Value.layout, Value.layouts_eq,
        List.flatMap_map]
    | object fields =>
      simp [layout, phrase, text?, children, ofValueParts, Value.layout, ObjectField.layouts_eq,
        List.flatMap_map]
    | _ => rfl
  | _ =>
    simp [layout, phrase, text?, children, List.flatMap_map, Keyword.text, Argument.layout,
      Directive.layout, EnumType.layout, EnumValueDefinition.layout, Field.layout_eq,
      FieldDefinition.layout, FragmentDefinition.layout, FragmentSpread.layout,
      InputObjectType.layout, InputValueDefinition.layout, InterfaceType.layout, Name.layout,
      ScalarType.layout, SelectionSet.layout, TypeExtension.layout, Variable.layout,
      VariableDefinition.layout]

/-- The words of a node are those of its layout. -/
theorem wordsOf_layout {n : Node} (h : n.Inner) :
    wordsOf n.layout = n.words.map fun word => some word.text := by
  induction hs : sizeOf n using Nat.strongRecOn generalizing n with
  | _ s ih =>
    have hphrase : ∀ c ∈ n.phrase, c.texts (fun c => wordsOf c.layout) =
        (c.expand words).map fun word => some word.text := by
      intro c hc
      cases c with
      | keyword k => rfl
      | part c =>
        have hchild := mem_children_of_mem_phrase hc
        exact ih _ (hs ▸ sizeOf_lt_of_mem_children hchild) (inner_children h c hchild) rfl
    rw [wordsOf_layout_eq h, words_eq, List.map_append, List.map_flatMap, List.flatMap_def,
      List.flatMap_def, List.map_congr_left hphrase]
    simp [Constituent.text]

end Node

/-! ### The words of a source text -/

theorem Definition.layout_zero (d : Definition) : d.layout 0 = d.node.layout := by
  cases d with
  | type t => cases t <;> rfl
  | _ => rfl

/-- The words of a definition that is written with the given lexemes.  Only an
operation without keyword starts with a brace. -/
def Definition.words (d : Definition) (w : List Lexeme) : List (Constituent String) :=
  if w.head? = some (.ofPunctuator .braceOpen) then d.node.children.flatMap Node.words
  else d.node.words

/-- Without keywords, it makes no difference how a definition is written. -/
theorem Definition.withoutKeywords_words (d : Definition) (w : List Lexeme) :
    withoutKeywords (d.words w) = withoutKeywords d.node.words := by
  rw [words]
  split
  · -- No text is left out: a definition has none of its own.
    have htext : d.node.text? = none := by
      cases d with
      | type t => cases t <;> rfl
      | _ => rfl
    rw [Node.withoutKeywords_words, htext, Constituent.withoutKeywords_flatMap]
    rfl
  · rfl

/-- The words of an operation behind its keyword. -/
theorem OperationDefinition.wordsOf_bodyLayout (o : OperationDefinition) :
    wordsOf (o.bodyLayout 0) = ((Node.operationDefinition o).children.flatMap Node.words).map
      fun word => some word.text := by
  have hinner : ∀ c ∈ (Node.operationDefinition o).children, c.Inner := by
    simp [Node.children, Node.Inner, or_imp, forall_and]
  have hchildren : wordsOf (o.bodyLayout 0) =
      (Node.operationDefinition o).children.flatMap fun c => wordsOf c.layout := by
    simp [bodyLayout, Node.children, Node.layout, List.flatMap_map]
  rw [hchildren, List.map_flatMap, List.flatMap_def, List.flatMap_def,
    List.map_congr_left fun c hc => Node.wordsOf_layout (hinner c hc)]

theorem SelectionSet.Derives.head?_eq {ss : SelectionSet} {w : List Lexeme} (h : ss.Derives w)
    (hw : Spelled w) : w.head? = some (.ofPunctuator .braceOpen) := by
  obtain ⟨⟨hx⟩, -, -, -⟩ := h
  rw [(hw _ (by simp)).eq_ofPunctuator hx]
  rfl

/-- What an operation is written with in a source text are its words. -/
theorem OperationDefinition.valuesOf_eq {o : OperationDefinition} {w : List Lexeme}
    (h : o.Derives w) (hw : Spelled w) :
    valuesOf w = ((Definition.operation o).words w).map fun word => some word.text := by
  rcases derives_iff.1 h with ⟨hshort, h⟩ | h
  · obtain ⟨-, hlayout⟩ := (o.selectionSet.spells 0 w).1 ⟨h, hw⟩
    rw [Definition.words, if_pos (h.head?_eq hw), hlayout, ← lexemesOf_bodyLayout 0 hshort]
    exact o.wordsOf_bodyLayout
  · obtain ⟨-, rfl⟩ := (o.spells_keyword 0 w).1 ⟨h, hw⟩
    have hkeyword (w : List Lexeme) : (Lexeme.ofName o.operation.keyword.text :: w).head? ≠
        some (.ofPunctuator .braceOpen) := nofun
    have hbody : valuesOf (.ofName o.operation.keyword.text :: lexemesOf (o.bodyLayout 0)) =
        some o.operation.keyword.text :: wordsOf (o.bodyLayout 0) := rfl
    rw [Definition.words, if_neg (hkeyword _), hbody, o.wordsOf_bodyLayout, Node.words_eq]
    simp [Definition.node, Node.text?, Node.phrase, Constituent.text, Constituent.expand,
      List.flatMap_map]

/-- What a definition is written with in a source text are its words. -/
theorem Definition.valuesOf_eq {d : Definition} {w : List Lexeme} (h : d.Derives w)
    (hw : Spelled w) : valuesOf w = (d.words w).map fun word => some word.text := by
  -- Every definition but an operation starts with its keyword.
  have hlayout (hw : w = lexemesOf (d.layout 0)) (hinner : d.node.Inner) (k : Keyword)
      (hhead : (lexemesOf (d.layout 0)).head? = some (.ofName k.text)) :
      valuesOf w = (d.words w).map fun word => some word.text := by
    rw [words, hw, hhead, if_neg nofun, d.layout_zero]
    exact Node.wordsOf_layout hinner
  obtain ⟨-, hspell⟩ := Definition.shortened_eq 0 h hw
  cases d with
  | operation o =>
    cases h with
    | operation h => exact OperationDefinition.valuesOf_eq h hw
  | fragment f => exact hlayout hspell trivial .fragment rfl
  | type t =>
    cases t with
    | scalar t => exact hlayout hspell trivial .scalar rfl
    | object t => exact hlayout hspell trivial .type rfl
    | interface t => exact hlayout hspell trivial .interface rfl
    | union t => exact hlayout hspell trivial .union rfl
    | enum t => exact hlayout hspell trivial .enum rfl
    | inputObject t => exact hlayout hspell trivial .input rfl
  | extension e => exact hlayout hspell trivial .extend rfl

namespace Document

/-- A walk through a document that was read comes to the words of the source,
in their order: to the values of its names, numbers and strings, those left out
that are keywords where they stand. -/
theorem entered_texts {d : Document} {options : ParseOptions} {source : String}
    (h : ofSource options source = .ok d) :
    ∃ parts : List (Definition × List Lexeme),
      parts.map Prod.fst = d.definitions ∧ (∀ p ∈ parts, p.1.Derives p.2) ∧
        ConsistsOf source (parts.flatMap Prod.snd) ∧
        valuesOf (parts.flatMap Prod.snd) =
          (parts.flatMap fun p => p.1.words p.2).map (fun word => some word.text) ∧
        (Node.document d).entered.filterMap Node.text? =
          withoutKeywords (parts.flatMap fun p => p.1.words p.2) := by
  obtain ⟨ws, hws, hd, -⟩ := ofSource_eq_ok_iff.1 h
  obtain ⟨-, parts, hdefinitions, hparts, rfl, -⟩ := parts_of_derives hd hws.spellable
  have hvalues : ∀ p ∈ parts, valuesOf p.2 = (p.1.words p.2).map fun word => some word.text := by
    intro p hp
    refine Definition.valuesOf_eq (hparts p hp) fun x hx => hws.spellable x ?_
    exact List.mem_flatMap.2 ⟨p, hp, hx⟩
  refine ⟨parts, hdefinitions, hparts, hws.consistsOf, ?_, ?_⟩
  · rw [valuesOf_flatMap, List.map_flatMap, List.flatMap_def, List.flatMap_def,
      List.map_congr_left hvalues]
  · rw [Node.filterMap_entered, Node.withoutKeywords_words, Constituent.withoutKeywords_flatMap]
    simp [Node.text?, Node.children, ← hdefinitions, List.flatMap_map,
      Definition.withoutKeywords_words]

/-- `query {...on on {on(a: true)}}`. -/
def queryOnOn : Document :=
  ⟨[.operation ⟨.query, none, [], [],
    ⟨[.inline ⟨some ⟨"on"⟩, [], ⟨[.field ⟨none, ⟨"on"⟩, [⟨⟨"a"⟩, .boolean true⟩], [], none⟩]⟩⟩]⟩⟩]⟩

theorem entered_texts_queryOnOn :
    ofSource {} "query \x7b...on on \x7bon(a: true)\x7d\x7d" = .ok queryOnOn ∧
      (Node.document queryOnOn).entered.filterMap Node.text? = ["on", "on", "a", "true"] ∧
      ∃ parts : List (Definition × List Lexeme),
        parts.map Prod.fst = queryOnOn.definitions ∧ (∀ p ∈ parts, p.1.Derives p.2) ∧
          ConsistsOf "query \x7b...on on \x7bon(a: true)\x7d\x7d" (parts.flatMap Prod.snd) ∧
          valuesOf (parts.flatMap Prod.snd) =
            (parts.flatMap fun p => p.1.words p.2).map (fun word => some word.text) ∧
          (Node.document queryOnOn).entered.filterMap Node.text? =
            withoutKeywords (parts.flatMap fun p => p.1.words p.2) := by
  have h : ofSource {} "query \x7b...on on \x7bon(a: true)\x7d\x7d" = .ok queryOnOn := by
    refine eq_ok_of_toOption ?_
    rw [ofSource, tokenize_eq_firstItems]
    decide +kernel
  refine ⟨h, ?_, entered_texts h⟩
  simp [queryOnOn, Node.entered_eq, Node.children, Node.ofValueParts, Definition.node,
    Selection.node, Node.text?, List.filterMap_cons]

end Document

end GraphQL
