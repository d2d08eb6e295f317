/-
Layouts keep lexemes apart.

A name or number ends where its text does, so what stands right behind it must
not continue it.  In a loose sequence of pieces it never does.

* `loose` — no word is followed by a piece that could continue it;
* `Lexes.render` — the text of a loose sequence consists of its lexemes;
* `Document.layout_loose` — the layout of every document is loose, also of
  those that no text is read as.

Design notes: whether a layout is loose depends on what follows it.  `Fits`
says that it is loose in front of anything that ends a word.
-/
import GraphQL.Layout.Document
import GraphQL.Proofs.Lexical.Lexer

namespace GraphQL

/-- The lexeme that a piece writes. -/
def Piece.lexeme? : Piece → Option Lexeme
  | lexeme x => some x
  | comma | space | newLine _ | lineFeed => none

/-- The lexemes that a sequence of pieces writes. -/
def lexemesOf (pieces : List Piece) : List Lexeme := pieces.filterMap Piece.lexeme?

/-- Whether a piece writes a name or number. -/
def Piece.isWord : Piece → Bool
  | lexeme x => x.isWord
  | comma | space | newLine _ | lineFeed => false

/-- Whether a piece can stand right behind a name or number. -/
def Piece.endsWord : Piece → Bool
  | lexeme x =>
    match x.kind with
    | .punctuator p => p ≠ .ellipsis
    | .string => true
    | .name | .int | .float | .endOfInput => false
  | comma | space | newLine _ | lineFeed => true

/-- Whether a sequence of pieces can stand right behind a name or number. -/
def endsWord : List Piece → Bool
  | [] => true
  | p :: _ => p.endsWord

/-- Whether every name and number in a sequence ends where its text does. -/
def loose : List Piece → Bool
  | [] => true
  | p :: ps => (!p.isWord || endsWord ps) && loose ps

/-- What ends a word does not start with a character that continues it. -/
theorem stops_render {ps : List Piece} (h : endsWord ps = true) (level : Nat) :
    Stops continuesWord (render level ps) := by
  cases ps with
  | nil => exact .nil _
  | cons p ps =>
    rw [render, List.flatMap_cons]
    cases p with
    | lexeme x =>
      obtain ⟨k, v⟩ := x
      cases k with
      | punctuator p =>
        -- An ellipsis is the one punctuator that could be taken for more of a number.
        have hp : p ≠ .ellipsis := by simpa [endsWord, Piece.endsWord] using h
        cases p <;> first | exact absurd rfl hp | exact stops_cons_iff.2 (by decide)
      | string => exact stops_cons_iff.2 (by decide)
      | _ => cases h
    | _ => exact stops_cons_iff.2 (by decide)

/-- The text of a loose sequence of pieces consists of its lexemes. -/
theorem Lexes.render {ps : List Piece} (hs : ∀ x ∈ lexemesOf ps, x.Spellable)
    (h : loose ps = true) (level : Nat) : Lexes (render level ps) (lexemesOf ps) := by
  induction ps with
  | nil => exact .stop rfl
  | cons p ps ih =>
    rw [loose, Bool.and_eq_true, Bool.or_eq_true, Bool.not_eq_true'] at h
    rw [GraphQL.render, List.flatMap_cons]
    cases p with
    | lexeme x =>
      have hrest := ih (fun y hy => hs y (List.mem_cons_of_mem x hy)) h.2
      -- What a word does not run on into is known of the rest of the pieces.
      refine .written (hs x (by simp [lexemesOf, Piece.lexeme?])) (fun hx => ?_) hrest
      exact stops_render (h.1.resolve_left (by simpa [Piece.isWord] using hx)) level
    | comma => exact (ih hs h.2).blank rfl
    | space => exact (ih hs h.2).blank rfl
    | lineFeed => exact (ih hs h.2).blank rfl
    | newLine depth =>
      refine .ignored (fun c hc => ?_) (ih hs h.2)
      rcases List.mem_cons.1 hc with rfl | hc
      · decide
      · rw [(List.mem_replicate.1 hc).2]
        decide

/-! ### Sequences that fit together -/

/-- A sequence of pieces is loose in front of whatever ends a word. -/
def Fits (ps : List Piece) : Prop :=
  ∀ rest, endsWord rest = true → loose rest = true → loose (ps ++ rest) = true

/-- A sequence of pieces can also stand right behind a word. -/
def Follows (ps : List Piece) : Prop := endsWord ps = true ∧ Fits ps

theorem endsWord_append {as bs : List Piece} (ha : endsWord as = true) (hb : endsWord bs = true) :
    endsWord (as ++ bs) = true := by
  cases as with
  | nil => exact hb
  | cons a as => exact ha

namespace Fits

variable {as bs : List Piece}

theorem nil : Fits [] := fun _ _ h => h

theorem cons {p : Piece} (hp : p.isWord = true → endsWord as = true) (h : Fits as) :
    Fits (p :: as) := by
  intro rest he hr
  rw [List.cons_append, loose, h rest he hr, Bool.and_true]
  cases hw : p.isWord with
  | false => rfl
  | true => exact endsWord_append (hp hw) he

theorem append (ha : Fits as) (hb : Follows bs) : Fits (as ++ bs) := by
  intro rest he hr
  rw [List.append_assoc]
  exact ha _ (endsWord_append hb.1 he) (hb.2 rest he hr)

theorem loose (h : Fits as) : loose as = true := by
  simpa using h [] rfl rfl

theorem punctuator (p : Punctuator) (h : Fits as) : Fits (Piece.punctuator p :: as) :=
  h.cons nofun

theorem word (text : String) (h : Follows as) : Fits (Piece.word text :: as) :=
  h.2.cons fun _ => h.1

end Fits

namespace Follows

variable {as bs : List Piece}

theorem nil : Follows [] := ⟨rfl, .nil⟩

theorem append (ha : Follows as) (hb : Follows bs) : Follows (as ++ bs) :=
  ⟨endsWord_append ha.1 hb.1, ha.2.append hb⟩

theorem punctuator {p : Punctuator} (hp : p ≠ .ellipsis) (h : Fits as) :
    Follows (Piece.punctuator p :: as) :=
  ⟨by simpa [endsWord, Piece.endsWord, Piece.punctuator, Lexeme.ofPunctuator] using hp,
    h.punctuator p⟩

theorem space (h : Fits as) : Follows (.space :: as) := ⟨rfl, h.cons nofun⟩

theorem comma (h : Fits as) : Follows (.comma :: as) := ⟨rfl, h.cons nofun⟩

theorem newLine (depth : Nat) (h : Fits as) : Follows (.newLine depth :: as) :=
  ⟨rfl, h.cons nofun⟩

theorem lineFeed (h : Fits as) : Follows (.lineFeed :: as) := ⟨rfl, h.cons nofun⟩

theorem flatMap {α : Type} {f : α → List Piece} {xs : List α} (h : ∀ x ∈ xs, Follows (f x)) :
    Follows (xs.flatMap f) := by
  induction xs with
  | nil => exact .nil
  | cons x xs ih =>
    rw [List.flatMap_cons]
    exact (h x (by simp)).append (ih fun y hy => h y (by simp [hy]))

end Follows

open Piece Layout

theorem Layout.joined_fits {separator : List Piece}
    (hs : ∀ ps, Fits ps → Follows (separator ++ ps)) {xs : List (List Piece)}
    (h : ∀ x ∈ xs, Fits x) : Fits (joined separator xs) := by
  fun_induction joined separator xs with
  | case1 => exact .nil
  | case2 x => exact h x (by simp)
  | case3 x y rest ih =>
    rw [List.append_assoc]
    exact (h x (by simp)).append (hs _ (ih fun z hz => h z (by simp [hz])))

theorem Layout.commaSeparated_fits {xs : List (List Piece)} (h : ∀ x ∈ xs, Fits x) :
    Fits (commaSeparated xs) :=
  joined_fits (fun _ hp => .comma (Follows.space hp).2) h

theorem Layout.parenthesized_follows {xs : List (List Piece)} (h : ∀ x ∈ xs, Fits x) :
    Follows (parenthesized xs) := by
  rw [parenthesized]
  split
  · exact .nil
  · exact .punctuator (by decide) ((commaSeparated_fits h).append (.punctuator (by decide) .nil))

theorem Layout.block_follows (depth : Nat) {xs : List (List Piece)} (h : ∀ x ∈ xs, Fits x) :
    Follows (block depth xs) := by
  rw [block]
  split
  · exact .nil
  · have hlines : Follows (xs.flatMap (Piece.newLine (depth + 1) :: ·)) :=
      .flatMap fun x hx => .newLine _ (h x hx)
    have hend : Follows [Piece.newLine depth, Piece.punctuator .braceClose] :=
      .newLine _ (Fits.nil.punctuator _)
    exact .punctuator (by decide) (hlines.2.append hend)

theorem Layout.spacedBlock_follows (depth : Nat) {xs : List (List Piece)}
    (h : ∀ x ∈ xs, Fits x) : Follows (spacedBlock depth xs) := by
  rw [spacedBlock]
  split
  · exact .nil
  · exact .space (block_follows depth h).2

/-! ### Names, values and types -/

theorem Name.layout_fits (n : Name) : Fits n.layout := .word _ .nil

/-- A name, a colon and something else, as in arguments and object fields. -/
theorem Name.layout_colon_fits (n : Name) {ps : List Piece} (h : Fits ps) :
    Fits (n.layout ++ [Piece.punctuator .colon, Piece.space] ++ ps) := by
  rw [List.append_assoc]
  exact n.layout_fits.append (.punctuator (by decide) (Follows.space h).2)

theorem Variable.layout_fits (v : Variable) : Fits v.layout := v.name.layout_fits.punctuator _

theorem Value.layout_fits (v : Value) : Fits v.layout := by
  induction v using Value.induct with
  | var v => exact v.layout_fits
  | int t => exact Fits.nil.cons fun _ => rfl
  | float t => exact Fits.nil.cons fun _ => rfl
  | string t => exact Fits.nil.cons fun _ => rfl
  | boolean b => exact .word _ .nil
  | enum t => exact .word _ .nil
  | list vs ih =>
    have hitems : ∀ x ∈ Value.layouts vs, Fits x := by
      rw [Value.layouts_eq]
      simpa using ih
    exact ((commaSeparated_fits hitems).punctuator _).append (.punctuator (by decide) .nil)
  | object fs ih =>
    have hfields : ∀ x ∈ ObjectField.layouts fs, Fits x := by
      rw [ObjectField.layouts_eq]
      intro x hx
      obtain ⟨⟨n, v⟩, hf, rfl⟩ := List.mem_map.1 hx
      exact n.layout_colon_fits (ih _ hf)
    exact ((commaSeparated_fits hfields).punctuator _).append (.punctuator (by decide) .nil)

theorem TypeRef.layout_fits (t : TypeRef) : Fits t.layout := by
  induction t with
  | named n => exact n.layout_fits
  | list item ih => exact (ih.punctuator _).append (.punctuator (by decide) .nil)
  | nonNull inner ih => exact ih.append (.punctuator (by decide) .nil)

/-! ### Selections -/

theorem Argument.layout_fits (a : Argument) : Fits a.layout :=
  a.name.layout_colon_fits a.value.layout_fits

theorem Directive.layout_fits (d : Directive) : Fits d.layout :=
  (d.name.layout_fits.punctuator _).append
    (parenthesized_follows (by simpa using fun a _ => a.layout_fits))

theorem directivesLayout_follows (ds : List Directive) : Follows (directivesLayout ds) :=
  .flatMap fun d _ => .space d.layout_fits

theorem FragmentSpread.layout_fits (s : FragmentSpread) : Fits s.layout :=
  (s.name.layout_fits.punctuator _).append (directivesLayout_follows _)

/-- The layout of an alias in front of a name. -/
def aliasLayout : Option Name → List Piece
  | some a => a.layout ++ [punctuator .colon, space]
  | none => []

/-- The layout of a selection set behind what it belongs to. -/
def nestedLayout (depth : Nat) : Option SelectionSet → List Piece
  | some ss => spacedBlock depth (ss.members (depth + 1))
  | none => []

/-- The layout of the condition of an inline fragment. -/
def conditionLayout : Option Name → List Piece
  | some t => [space, word "on", space] ++ t.layout
  | none => []

theorem Field.layout_eq (depth : Nat) (f : Field) :
    f.layout depth = aliasLayout f.alias? ++ (f.name.layout
      ++ parenthesized (f.arguments.map Argument.layout) ++ directivesLayout f.directives
      ++ nestedLayout depth f.selectionSet?) := by
  obtain ⟨a?, n, as, ds, ss?⟩ := f
  cases a? <;> cases ss? <;> simp [Field.layout, aliasLayout, nestedLayout]

theorem InlineFragment.layout_eq (depth : Nat) (f : InlineFragment) :
    f.layout depth = punctuator .ellipsis :: conditionLayout f.typeCondition?
      ++ directivesLayout f.directives ++ nestedLayout depth (some f.selectionSet) := by
  obtain ⟨t?, ds, ss⟩ := f
  cases t? <;> rfl

/-- Members of a selection set fit if the selection sets inside them do. -/
theorem Selection.layout_fits {depth : Nat} {s : Selection}
    (h : ∀ t, s.selectionSet? = some t → ∀ x ∈ t.members (depth + 1), Fits x) :
    Fits (s.layout depth) := by
  have hnested {t? : Option SelectionSet} (ht : s.selectionSet? = t?) :
      Follows (nestedLayout depth t?) := by
    cases t? with
    | none => exact .nil
    | some t => exact spacedBlock_follows depth (h t ht)
  cases s with
  | field f =>
    have hargs : Follows (parenthesized (f.arguments.map Argument.layout)) :=
      parenthesized_follows (by simpa using fun a _ => a.layout_fits)
    have hname := ((f.name.layout_fits.append hargs).append
      (directivesLayout_follows f.directives)).append (hnested rfl)
    rw [Selection.layout, Field.layout_eq]
    cases f.alias? with
    | none => exact hname
    | some a => exact a.layout_colon_fits hname
  | spread s => exact s.layout_fits
  | inline f =>
    have hcondition : Fits (conditionLayout f.typeCondition?) := by
      cases f.typeCondition? with
      | none => exact .nil
      | some t => exact (Follows.space (.word _ (.space t.layout_fits))).2
    rw [Selection.layout, InlineFragment.layout_eq]
    exact ((hcondition.punctuator _).append (directivesLayout_follows _)).append (hnested rfl)

theorem SelectionSet.members_fit (ss : SelectionSet) :
    ∀ depth, ∀ x ∈ ss.members depth, Fits x := by
  induction ss using SelectionSet.induct with
  | step ss ih =>
    intro depth x hx
    rw [SelectionSet.members_eq] at hx
    obtain ⟨s, hs, rfl⟩ := List.mem_map.1 hx
    exact Selection.layout_fits fun t ht => ih s hs t ht (depth + 1)

/-! ### Definitions -/

theorem defaultLayout_follows (d? : Option Value) : Follows (defaultLayout d?) := by
  cases d? with
  | none => exact .nil
  | some v => exact .space (.punctuator _ (Follows.space v.layout_fits).2)

theorem VariableDefinition.layout_fits (d : VariableDefinition) : Fits d.layout := by
  have htype : Fits ([punctuator .colon, space] ++ d.type.layout ++ defaultLayout d.default?) :=
    (((Follows.space d.type.layout_fits).2.punctuator _).append (defaultLayout_follows _))
  have hcolon : Follows ([punctuator .colon, space] ++ d.type.layout ++ defaultLayout d.default?) :=
    ⟨rfl, htype⟩
  have h := d.var.layout_fits.append hcolon
  simpa only [VariableDefinition.layout, List.append_assoc] using h

theorem InputValueDefinition.layout_fits (d : InputValueDefinition) : Fits d.layout :=
  (d.name.layout_colon_fits d.type.layout_fits).append (defaultLayout_follows _)

theorem FieldDefinition.layout_fits (d : FieldDefinition) : Fits d.layout := by
  have hargs : Follows (parenthesized (d.arguments.map InputValueDefinition.layout)) :=
    parenthesized_follows (by simpa using fun a _ => a.layout_fits)
  have hcolon : Follows ([punctuator .colon, space] ++ d.type.layout) :=
    .punctuator (by decide) (Follows.space d.type.layout_fits).2
  have h := (d.name.layout_fits.append hargs).append hcolon
  simpa only [FieldDefinition.layout, List.append_assoc] using h

/-- The layout of what stands between the keyword and the variables of an operation. -/
def titleLayout (n? : Option Name) (vs : List VariableDefinition) : List Piece :=
  match n? with
  | some n => space :: n.layout
  | none => if vs.isEmpty then [] else [space]

theorem OperationDefinition.layout_eq (depth : Nat) {o : OperationDefinition}
    (h : o.isShorthand = false) :
    o.layout depth = word o.operation.keyword.text :: titleLayout o.name? o.variableDefinitions
      ++ parenthesized (o.variableDefinitions.map VariableDefinition.layout)
      ++ directivesLayout o.directives ++ nestedLayout depth (some o.selectionSet) := by
  rw [OperationDefinition.layout, h]
  rfl

theorem OperationDefinition.layout_fits (depth : Nat) (o : OperationDefinition) :
    Fits (o.layout depth) := by
  cases hshort : o.isShorthand with
  | true =>
    rw [OperationDefinition.layout, if_pos hshort]
    exact (block_follows depth (o.selectionSet.members_fit _)).2
  | false =>
    have hvars : Follows (parenthesized (o.variableDefinitions.map VariableDefinition.layout)) :=
      parenthesized_follows (by simpa using fun d _ => d.layout_fits)
    have hset := spacedBlock_follows depth (o.selectionSet.members_fit (depth + 1))
    have htail := (hvars.append (directivesLayout_follows o.directives)).append hset
    have htitle : Follows (titleLayout o.name? o.variableDefinitions) := by
      unfold titleLayout
      split
      · next n _ => exact .space n.layout_fits
      · split
        · exact .nil
        · exact .space .nil
    have h := Fits.word o.operation.keyword.text (htitle.append htail)
    rw [OperationDefinition.layout_eq depth hshort]
    simpa only [nestedLayout, List.append_assoc, List.cons_append] using h

theorem FragmentDefinition.layout_fits (depth : Nat) (d : FragmentDefinition) :
    Fits (d.layout depth) := by
  have hset := spacedBlock_follows depth (d.selectionSet.members_fit (depth + 1))
  have htail := (directivesLayout_follows d.directives).append hset
  have hcondition : Follows ([space, word "on", space] ++ d.typeCondition.layout) :=
    .space (.word _ (.space d.typeCondition.layout_fits))
  have hname := d.name.layout_fits.append (hcondition.append htail)
  have h : Fits (word "fragment" :: space :: _) := .word _ (.space hname)
  simpa only [FragmentDefinition.layout, List.append_assoc, List.cons_append,
    List.nil_append] using h

/-- The keyword and the name that open a definition of a type. -/
theorem keyword_layout_fits (keyword : String) (n : Name) {ps : List Piece} (h : Follows ps) :
    Fits ([word keyword, space] ++ n.layout ++ ps) := by
  have hname := n.layout_fits.append h
  have h : Fits (word keyword :: space :: _) := .word _ (.space hname)
  simpa only [List.append_assoc, List.cons_append, List.nil_append] using h

theorem fieldsBlock_follows (depth : Nat) (fs : List FieldDefinition) :
    Follows (spacedBlock depth (fs.map FieldDefinition.layout)) :=
  spacedBlock_follows depth (by simpa using fun f _ => f.layout_fits)

/-- The layout of the interfaces of an object type. -/
def interfacesLayout (ns : List Name) : List Piece :=
  if ns.isEmpty then []
  else [space, word "implements", space] ++ commaSeparated (ns.map Name.layout)

theorem ObjectType.layout_eq (depth : Nat) (t : ObjectType) :
    t.layout depth = [word "type", space] ++ t.name.layout ++ interfacesLayout t.interfaces
      ++ spacedBlock depth (t.fields.map FieldDefinition.layout) := rfl

theorem ObjectType.layout_fits (depth : Nat) (t : ObjectType) : Fits (t.layout depth) := by
  have hinterfaces : Follows (interfacesLayout t.interfaces) := by
    unfold interfacesLayout
    split
    · exact .nil
    · have hnames : Fits (commaSeparated (t.interfaces.map Name.layout)) :=
        commaSeparated_fits (by simpa using fun n _ => n.layout_fits)
      exact .space (.word _ (.space hnames))
  have hfields := fieldsBlock_follows depth t.fields
  have h := keyword_layout_fits "type" t.name (hinterfaces.append hfields)
  simpa only [ObjectType.layout_eq, List.append_assoc] using h

theorem UnionType.layout_fits (t : UnionType) : Fits t.layout := by
  refine keyword_layout_fits "union" t.name ?_
  split
  · exact .nil
  · have hmembers : Fits (joined [space, punctuator .pipe, space] (t.members.map Name.layout)) :=
      joined_fits (fun _ hp => .space (Fits.punctuator _ (Follows.space hp).2))
        (by simpa using fun n _ => n.layout_fits)
    exact .space (Fits.punctuator _ (Follows.space hmembers).2)

theorem TypeDefinition.layout_fits (depth : Nat) (d : TypeDefinition) : Fits (d.layout depth) := by
  cases d with
  | scalar t => exact .word _ (.space t.name.layout_fits)
  | object t => exact t.layout_fits depth
  | interface t => exact keyword_layout_fits _ t.name (fieldsBlock_follows depth t.fields)
  | union t => exact t.layout_fits
  | enum t =>
    exact keyword_layout_fits _ t.name
      (spacedBlock_follows depth (by simpa using fun v _ => v.name.layout_fits))
  | inputObject t =>
    exact keyword_layout_fits _ t.name
      (spacedBlock_follows depth (by simpa using fun f _ => f.layout_fits))

theorem Definition.layout_fits (depth : Nat) (d : Definition) : Fits (d.layout depth) := by
  cases d with
  | operation d => exact d.layout_fits depth
  | fragment d => exact d.layout_fits depth
  | type d => exact d.layout_fits depth
  | extension d => exact .word _ (.space (d.definition.layout_fits depth))

/-- The layout of a document keeps its lexemes apart. -/
theorem Document.layout_loose (depth : Nat) (d : Document) : loose (d.layout depth) = true := by
  have hdefinitions :
      Fits (joined [lineFeed, lineFeed] (d.definitions.map (Definition.layout depth))) :=
    joined_fits (fun _ hp => .lineFeed (Follows.lineFeed hp).2)
      (by simpa using fun x _ => x.layout_fits depth)
  exact (hdefinitions.append (.lineFeed .nil)).loose

end GraphQL
