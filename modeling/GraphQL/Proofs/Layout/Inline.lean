/-
What is written on one line.

Blocks aside, every part of a document stays on the line on which it starts.

* `nesting` — how many braces some lexemes open and leave open;
* `Inline`, `Trailing` — sequences of pieces that stay on their line, start with
  a lexeme or follow one, end in a lexeme and close what they open;
* `Value.layout_inline`, …, `Selection.heading_inline` — values and types are
  written so, and so is what stands in front of a block.

Design notes: as in `Loose`, a part that may be left out is `Trailing`, and a
part that something can start with is `Inline`.
-/
import GraphQL.Proofs.Layout.Loose
import GraphQL.Proofs.Spelling.Basic

namespace GraphQL

/-! ### Braces -/

/-- How many braces stand open behind some lexemes: those that open one, less
those that close one. -/
def nesting (xs : List Lexeme) : Int :=
  xs.count (.ofPunctuator .braceOpen) - xs.count (.ofPunctuator .braceClose)

@[simp] theorem nesting_nil : nesting [] = 0 := rfl

@[simp] theorem nesting_append (xs ys : List Lexeme) :
    nesting (xs ++ ys) = nesting xs + nesting ys := by
  simp only [nesting, List.count_append]
  omega

theorem nesting_cons (x : Lexeme) (xs : List Lexeme) : nesting (x :: xs) = nesting [x] + nesting xs :=
  nesting_append [x] xs

theorem nesting_braceOpen : nesting [.ofPunctuator .braceOpen] = 1 := by decide

theorem nesting_braceClose : nesting [.ofPunctuator .braceClose] = -1 := by decide

/-- Whether a lexeme opens or closes a block. -/
def Lexeme.isBrace (x : Lexeme) : Bool :=
  x.kind == .punctuator .braceOpen || x.kind == .punctuator .braceClose

theorem nesting_of_not_isBrace {x : Lexeme} (h : x.isBrace = false) : nesting [x] = 0 := by
  have hne (p : Punctuator) (hp : p = .braceOpen ∨ p = .braceClose) : x ≠ .ofPunctuator p := by
    rintro rfl
    rcases hp with rfl | rfl <;> cases h
  simp [nesting, hne]

/-! ### Sequences on one line -/

/-- Whether a piece stays on its line. -/
def Piece.isFlat : Piece → Bool
  | lexeme _ | comma | space => true
  | newLine _ | lineFeed => false

/-- A sequence that stays on the line on which something stands in front of it. -/
structure Trailing (ps : List Piece) : Prop where
  flat : ∀ p ∈ ps, p.isFlat = true
  last : ∀ p ∈ ps.getLast?, ∃ x, p = .lexeme x
  balanced : nesting (lexemesOf ps) = 0

/-- A sequence that stays on its line and can be the first on it. -/
structure Inline (ps : List Piece) : Prop extends Trailing ps where
  first : ∃ x, ps.head? = some (.lexeme x) ∧ x ≠ .ofPunctuator .braceClose

theorem Inline.ne_nil {ps : List Piece} (h : Inline ps) : ps ≠ [] := by
  rintro rfl
  obtain ⟨x, hx, -⟩ := h.first
  cases hx

namespace Trailing

variable {as bs : List Piece}

theorem nil : Trailing [] := ⟨nofun, nofun, rfl⟩

theorem append (ha : Trailing as) (hb : Trailing bs) : Trailing (as ++ bs) where
  flat := List.forall_mem_append.2 ⟨ha.flat, hb.flat⟩
  last := by
    intro p hp
    rw [List.getLast?_append] at hp
    cases hlast : bs.getLast? with
    | none =>
      rw [hlast] at hp
      exact ha.last p hp
    | some q =>
      rw [hlast] at hp
      exact hb.last p (hlast.trans hp)
  balanced := by rw [lexemesOf_append, nesting_append, ha.balanced, hb.balanced]; rfl

/-- A blank may stand in front of what can be first on a line. -/
theorem space (h : Inline as) : Trailing (.space :: as) where
  flat := List.forall_mem_cons.2 ⟨rfl, h.flat⟩
  last := by
    intro p hp
    rw [List.getLast?_cons_of_ne_nil h.ne_nil] at hp
    exact h.last p hp
  balanced := h.balanced

/-- So may a comma and a blank. -/
theorem comma (h : Inline as) : Trailing (.comma :: .space :: as) where
  flat := List.forall_mem_cons.2 ⟨rfl, (Trailing.space h).flat⟩
  last := by
    intro p hp
    rw [List.getLast?_cons_cons] at hp
    exact (Trailing.space h).last p hp
  balanced := h.balanced

theorem flatMap {α : Type} {f : α → List Piece} {xs : List α} (h : ∀ x ∈ xs, Trailing (f x)) :
    Trailing (xs.flatMap f) := by
  induction xs with
  | nil => exact .nil
  | cons x xs ih =>
    rw [List.flatMap_cons]
    exact (h x (by simp)).append (ih fun y hy => h y (by simp [hy]))

end Trailing

namespace Inline

variable {as bs : List Piece}

theorem append (ha : Inline as) (hb : Trailing bs) : Inline (as ++ bs) where
  toTrailing := ha.toTrailing.append hb
  first := by
    obtain ⟨x, hx, hne⟩ := ha.first
    exact ⟨x, by rw [List.head?_append, hx]; rfl, hne⟩

theorem lexeme {x : Lexeme} (hx : x.isBrace = false) : Inline [.lexeme x] where
  flat := List.forall_mem_singleton.2 rfl
  last := by
    rintro p ⟨⟩
    exact ⟨x, rfl⟩
  balanced := nesting_of_not_isBrace hx
  first := ⟨x, rfl, by rintro rfl; cases hx⟩

theorem cons {x : Lexeme} (hx : x.isBrace = false) (h : Trailing as) : Inline (.lexeme x :: as) :=
  (lexeme hx).append h

theorem word (text : String) (h : Trailing as) : Inline (.word text :: as) := cons rfl h

theorem punctuator {p : Punctuator} (h : Trailing as) (hp : (Lexeme.ofPunctuator p).isBrace = false) :
    Inline (.punctuator p :: as) := cons hp h

/-- Braces on one line. -/
theorem braces (h : Trailing as) :
    Inline (.punctuator .braceOpen :: as ++ [.punctuator .braceClose]) where
  flat := by
    have hclose : ∀ p ∈ [Piece.punctuator .braceClose], p.isFlat = true :=
      List.forall_mem_singleton.2 rfl
    exact List.forall_mem_cons.2 ⟨rfl, List.forall_mem_append.2 ⟨h.flat, hclose⟩⟩
  last := by
    intro p hp
    rw [List.getLast?_concat] at hp
    cases hp
    exact ⟨_, rfl⟩
  balanced := by
    have hclose : lexemesOf [.punctuator .braceClose] = [.ofPunctuator .braceClose] := rfl
    rw [List.cons_append, lexemesOf_punctuator, lexemesOf_append, nesting_cons, nesting_append,
      h.balanced, nesting_braceOpen, hclose, nesting_braceClose]
    rfl
  first := ⟨_, rfl, by decide⟩

end Inline

open Piece Layout

/-! ### Shared shapes -/

theorem Layout.joined_inline {separator : List Piece}
    (hs : ∀ ps, Inline ps → Trailing (separator ++ ps)) {xs : List (List Piece)} (hne : xs ≠ [])
    (h : ∀ x ∈ xs, Inline x) : Inline (joined separator xs) := by
  fun_induction joined separator xs with
  | case1 => exact absurd rfl hne
  | case2 x => exact h x (by simp)
  | case3 x y rest ih =>
    have hrest := ih (List.cons_ne_nil y rest) fun z hz => h z (by simp [hz])
    rw [List.append_assoc]
    exact (h x (by simp)).append (hs _ hrest)

theorem Layout.commaSeparated_inline {xs : List (List Piece)} (hne : xs ≠ [])
    (h : ∀ x ∈ xs, Inline x) : Inline (commaSeparated xs) :=
  joined_inline (fun _ hp => .comma hp) hne h

theorem Layout.commaSeparated_trailing {xs : List (List Piece)} (h : ∀ x ∈ xs, Inline x) :
    Trailing (commaSeparated xs) := by
  by_cases hne : xs = []
  · subst hne
    exact .nil
  · exact (commaSeparated_inline hne h).toTrailing

theorem Layout.parenthesized_inline {xs : List (List Piece)} (hne : xs ≠ [])
    (h : ∀ x ∈ xs, Inline x) : Inline (parenthesized xs) := by
  rw [parenthesized, if_neg (by simpa using hne)]
  exact .punctuator ((commaSeparated_trailing h).append (Inline.lexeme rfl).toTrailing) rfl

theorem Layout.parenthesized_trailing {xs : List (List Piece)} (h : ∀ x ∈ xs, Inline x) :
    Trailing (parenthesized xs) := by
  by_cases hne : xs = []
  · subst hne
    exact .nil
  · exact (parenthesized_inline hne h).toTrailing

/-! ### Names, values and types -/

theorem Name.layout_inline (n : Name) : Inline n.layout := .lexeme rfl

/-- A name, a colon and something else, as in arguments and object fields. -/
theorem Name.layout_colon_inline (n : Name) {ps : List Piece} (h : Inline ps) :
    Inline (n.layout ++ [Piece.punctuator .colon, Piece.space] ++ ps) := by
  rw [List.append_assoc]
  exact n.layout_inline.append (Inline.punctuator (.space h) rfl).toTrailing

theorem Variable.layout_inline (v : Variable) : Inline v.layout :=
  .punctuator v.name.layout_inline.toTrailing rfl

theorem Value.layout_inline (v : Value) : Inline v.layout := by
  induction v using Value.induct with
  | var v => exact v.layout_inline
  | int t => exact .lexeme rfl
  | float t => exact .lexeme rfl
  | string t => exact .lexeme rfl
  | boolean b => exact .lexeme rfl
  | enum t => exact .lexeme rfl
  | list vs ih =>
    have hitems : ∀ x ∈ Value.layouts vs, Inline x := by
      rw [Value.layouts_eq]
      simpa using ih
    exact .punctuator ((commaSeparated_trailing hitems).append (Inline.lexeme rfl).toTrailing) rfl
  | object fs ih =>
    have hfields : ∀ x ∈ ObjectField.layouts fs, Inline x := by
      rw [ObjectField.layouts_eq]
      intro x hx
      obtain ⟨⟨n, v⟩, hf, rfl⟩ := List.mem_map.1 hx
      exact n.layout_colon_inline (ih _ hf)
    exact .braces (commaSeparated_trailing hfields)

theorem TypeRef.layout_inline (t : TypeRef) : Inline t.layout := by
  induction t with
  | named n => exact n.layout_inline
  | list item ih =>
    exact .punctuator (ih.append (Inline.lexeme rfl).toTrailing).toTrailing rfl
  | nonNull inner ih => exact ih.append (Inline.lexeme rfl).toTrailing

/-! ### Selections -/

theorem Argument.layout_inline (a : Argument) : Inline a.layout :=
  a.name.layout_colon_inline a.value.layout_inline

theorem argumentsLayout_trailing (as : List Argument) :
    Trailing (parenthesized (as.map Argument.layout)) :=
  parenthesized_trailing (by simpa using fun a _ => a.layout_inline)

theorem Directive.layout_inline (d : Directive) : Inline d.layout :=
  .punctuator (d.name.layout_inline.append (argumentsLayout_trailing d.arguments)).toTrailing rfl

theorem directivesLayout_trailing (ds : List Directive) : Trailing (directivesLayout ds) :=
  .flatMap fun d _ => .space d.layout_inline

theorem FragmentSpread.layout_inline (s : FragmentSpread) : Inline s.layout :=
  .punctuator (s.name.layout_inline.append (directivesLayout_trailing _)).toTrailing rfl

/-- What stands of a selection in front of its selection set. -/
def Selection.heading : Selection → List Piece
  | field f =>
    aliasLayout f.alias? ++ (f.name.layout ++ parenthesized (f.arguments.map Argument.layout)
      ++ directivesLayout f.directives)
  | spread s => s.layout
  | inline f =>
    punctuator .ellipsis :: conditionLayout f.typeCondition? ++ directivesLayout f.directives

theorem Selection.layout_eq (depth : Nat) (s : Selection) :
    s.layout depth = s.heading ++ nestedLayout depth s.selectionSet? := by
  cases s with
  | field f =>
    rw [Selection.layout, Field.layout_eq, heading, selectionSet?_field]
    simp only [List.append_assoc]
  | spread s => simp [Selection.layout, heading, nestedLayout]
  | inline f => rw [Selection.layout, InlineFragment.layout_eq, heading, selectionSet?_inline]

theorem Selection.heading_inline (s : Selection) : Inline s.heading := by
  cases s with
  | field f =>
    have hname := (f.name.layout_inline.append (argumentsLayout_trailing f.arguments)).append
      (directivesLayout_trailing f.directives)
    rw [heading]
    cases f.alias? with
    | none => exact hname
    | some a => exact a.layout_colon_inline hname
  | spread s => exact s.layout_inline
  | inline f =>
    have hcondition : Trailing (conditionLayout f.typeCondition?) := by
      cases f.typeCondition? with
      | none => exact .nil
      | some t => exact .space (.word _ (.space t.layout_inline))
    exact .punctuator (hcondition.append (directivesLayout_trailing f.directives)) rfl

/-! ### Definitions -/

theorem defaultLayout_trailing (d? : Option Value) : Trailing (defaultLayout d?) := by
  cases d? with
  | none => exact .nil
  | some v => exact .space (.punctuator (.space v.layout_inline) rfl)

theorem VariableDefinition.layout_inline (d : VariableDefinition) : Inline d.layout := by
  have hcolon : Inline ([punctuator .colon, space] ++ d.type.layout) :=
    .punctuator (.space d.type.layout_inline) rfl
  have h := (d.var.layout_inline.append hcolon.toTrailing).append (defaultLayout_trailing d.default?)
  simpa only [VariableDefinition.layout, List.append_assoc] using h

theorem InputValueDefinition.layout_inline (d : InputValueDefinition) : Inline d.layout :=
  (d.name.layout_colon_inline d.type.layout_inline).append (defaultLayout_trailing _)

theorem FieldDefinition.layout_inline (d : FieldDefinition) : Inline d.layout := by
  have hargs : Trailing (parenthesized (d.arguments.map InputValueDefinition.layout)) :=
    parenthesized_trailing (by simpa using fun a _ => a.layout_inline)
  have hcolon : Inline ([punctuator .colon, space] ++ d.type.layout) :=
    .punctuator (.space d.type.layout_inline) rfl
  have h := (d.name.layout_inline.append hargs).append hcolon.toTrailing
  simpa only [FieldDefinition.layout, List.append_assoc] using h

/-- What stands between the keyword and the directives of an operation. -/
theorem titleLayout_trailing (n? : Option Name) (vs : List VariableDefinition) :
    Trailing (titleLayout n? vs ++ parenthesized (vs.map VariableDefinition.layout)) := by
  have hall : ∀ x ∈ vs.map VariableDefinition.layout, Inline x := by
    simpa using fun d _ => d.layout_inline
  unfold titleLayout
  split
  · next n => exact (Trailing.space n.layout_inline).append (parenthesized_trailing hall)
  · cases vs with
    | nil => exact .nil
    | cons v vs => exact .space (parenthesized_inline (List.cons_ne_nil _ _) hall)

/-- What stands of an operation in front of its selection set, unless there is
nothing but that. -/
def OperationDefinition.heading (o : OperationDefinition) : List Piece :=
  word o.operation.keyword.text :: (titleLayout o.name? o.variableDefinitions
    ++ parenthesized (o.variableDefinitions.map VariableDefinition.layout)
    ++ directivesLayout o.directives)

theorem OperationDefinition.heading_inline (o : OperationDefinition) : Inline o.heading :=
  .word _ ((titleLayout_trailing _ _).append (directivesLayout_trailing _))

/-- A keyword and a name, as in definitions of types. -/
theorem keyword_layout_inline (keyword : String) (n : Name) {ps : List Piece} (h : Trailing ps) :
    Inline ([word keyword, space] ++ n.layout ++ ps) :=
  .word _ (.space (n.layout_inline.append h))

theorem names_inline (ns : List Name) : ∀ x ∈ ns.map Name.layout, Inline x := by
  simpa using fun n _ => n.layout_inline

theorem interfacesLayout_trailing (ns : List Name) : Trailing (interfacesLayout ns) := by
  unfold interfacesLayout
  cases ns with
  | nil => exact .nil
  | cons n ns =>
    have hnames : Inline (commaSeparated ((n :: ns).map Name.layout)) :=
      commaSeparated_inline (List.cons_ne_nil _ _) (names_inline _)
    exact .space (.word _ (.space hnames))

theorem UnionType.layout_inline (t : UnionType) : Inline t.layout := by
  refine keyword_layout_inline "union" t.name ?_
  cases hmembers : t.members with
  | nil => exact .nil
  | cons n ns =>
    have hnames : Inline (joined [space, punctuator .pipe, space] ((n :: ns).map Name.layout)) :=
      joined_inline (fun _ hp => .space (.punctuator (.space hp) rfl)) (List.cons_ne_nil _ _)
        (names_inline _)
    exact .space (.punctuator (.space hnames) rfl)

end GraphQL
