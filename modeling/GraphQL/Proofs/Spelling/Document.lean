/-
The spellings of definitions and documents.

* `FragmentDefinition.spells`, `TypeDefinition.spells` — a well-formed
  definition has one spelling in a source text, and others have none;
* `OperationDefinition.spells`, `OperationDefinition.derives_iff` — and so has
  an operation behind its keyword, which some operations may leave out;
* `Definition.shortened` — a spelling of a definition without the keyword that
  it can do without;
* `Definition.shortened_eq` — this is what the layout writes.

Design notes: `Definition.shortened` goes by the operation and not only by its
first lexeme, since the keyword stays where something stands behind it.
-/
import GraphQL.Proofs.Spelling.Nested

namespace GraphQL

open Layout

/-! ### Operations and fragments -/

theorem spells_default {c : ValueContext} (hc : c ≠ .argument) (v? : Option Value) :
    Spells (Maybe (Default c) v?) (∀ v ∈ v?, v.WellFormedDefault)
      (lexemesOf (defaultLayout v?)) := by
  have hdefault (v : Value) : Spells (Default c v) v.WellFormedDefault
      (lexemesOf ([.space, .punctuator .equals, .space] ++ v.layout)) := by
    refine ((v.spells c).symbolThen .equals).congr (fun w => ⟨?_, ?_⟩) ?_ (by simp)
    · rintro ⟨he, hv⟩
      exact .intro he hv
    · rintro ⟨he, hv⟩
      exact .intro he hv
    · simp [Value.WellFormedDefault, Value.WellFormedIn, hc]
  refine (Spells.maybe fun v _ => hdefault v).spelledAs ?_
  cases v? <;> rfl

theorem VariableDefinition.spells (d : VariableDefinition) :
    Spells d.Derives d.WellFormed (lexemesOf d.layout) := by
  have h := d.var.spells.then ((d.type.spells.then
    (spells_default (c := .variableDefault) nofun d.default?)).symbolThen .colon)
  refine h.congr (fun w => ⟨?_, ?_⟩) ?_ (by simp [VariableDefinition.layout])
  · rintro ⟨hv, hs, ht, hd⟩
    exact .intro hv (.intro hs (.intro ht hd))
  · rintro ⟨hv, hs, ht, hd⟩
    exact .intro hv hs ht hd
  · exact ⟨fun h => ⟨h.name, h.type, h.default⟩, fun h => ⟨h.1, h.2.1, h.2.2⟩⟩

/-- An operation behind its keyword. -/
def OperationDefinition.DerivesKeyword (o : OperationDefinition) : List Lexeme → Prop :=
  Then (Reserved o.operation.keyword) (Then (Maybe Name.Derives o.name?)
    (Then (Parenthesized VariableDefinition.Derives o.variableDefinitions)
      (Then (Many Directive.Derives o.directives) o.selectionSet.Derives)))

theorem OperationDefinition.eq_of_isShorthand {o : OperationDefinition}
    (h : o.isShorthand = true) : o = ⟨.query, none, [], [], o.selectionSet⟩ := by
  obtain ⟨k, n?, vs, ds, ss⟩ := o
  simp only [isShorthand, Bool.and_eq_true, beq_iff_eq, Option.isNone_iff_eq_none,
    List.isEmpty_iff] at h
  obtain ⟨⟨⟨rfl, rfl⟩, rfl⟩, rfl⟩ := h
  rfl

/-- The keyword can be left out if nothing stands between it and the selections. -/
theorem OperationDefinition.derives_iff {o : OperationDefinition} {w : List Lexeme} :
    o.Derives w ↔ (o.isShorthand = true ∧ o.selectionSet.Derives w) ∨ o.DerivesKeyword w := by
  constructor
  · rintro (h | ⟨hk, hn, hv, hd, hs⟩)
    · exact .inl ⟨rfl, h⟩
    · exact .inr (.intro hk (.intro hn (.intro hv (.intro hd hs))))
  · rintro (⟨hshort, h⟩ | ⟨hk, hn, hv, hd, hs⟩)
    · rw [eq_of_isShorthand hshort]
      exact .bare h
    · exact .keyword hk hn hv hd hs

/-- The layout of an operation behind its keyword. -/
def OperationDefinition.bodyLayout (depth : Nat) (o : OperationDefinition) : List Piece :=
  titleLayout o.name? o.variableDefinitions
    ++ parenthesized (o.variableDefinitions.map VariableDefinition.layout)
    ++ directivesLayout o.directives ++ nestedLayout depth (some o.selectionSet)

theorem OperationDefinition.spells_keyword (depth : Nat) (o : OperationDefinition) :
    Spells o.DerivesKeyword o.WellFormed
      (.ofName o.operation.keyword.text :: lexemesOf (o.bodyLayout depth)) := by
  have hname : Spells (Maybe Name.Derives o.name?) (∀ n ∈ o.name?, n.WellFormed)
      (lexemesOf (titleLayout o.name? o.variableDefinitions)) := by
    refine (Spells.maybe fun n _ => n.spells).spelledAs ?_
    unfold titleLayout
    cases o.name? with
    | none => cases o.variableDefinitions <;> rfl
    | some n => rfl
  have hvars := Spells.parenthesized fun v (_ : v ∈ o.variableDefinitions) => v.spells
  have h := (hname.then (hvars.then ((spells_directives o.directives).then
    (o.selectionSet.spells depth)))).reservedThen o.operation.keyword
  refine h.congr (fun _ => .rfl) ⟨?_, ?_⟩ (by simp [bodyLayout, nestedLayout, SelectionSet.layout])
  · exact fun h => ⟨h.name, h.variableDefinitions, h.directives, h.selectionSet⟩
  · rintro ⟨hn, hv, hd, hs⟩
    exact ⟨hn, hv, hd, hs⟩

/-- A spelling of an operation without the keyword that it can do without. -/
def OperationDefinition.shortened (o : OperationDefinition) : List Lexeme → List Lexeme
  | [] => []
  | x :: w => if o.isShorthand && x.isKeyword .query then w else x :: w

theorem OperationDefinition.lexemesOf_bodyLayout (depth : Nat) {o : OperationDefinition}
    (h : o.isShorthand = true) :
    lexemesOf (o.bodyLayout depth) = lexemesOf (o.selectionSet.layout depth) := by
  rw [eq_of_isShorthand h]
  simp [bodyLayout, titleLayout, directivesLayout, nestedLayout, parenthesized, SelectionSet.layout]

/-- The layout of an operation leaves the keyword out where it can be. -/
theorem OperationDefinition.lexemesOf_layout (depth : Nat) (o : OperationDefinition) :
    lexemesOf (o.layout depth) =
      if o.isShorthand then lexemesOf (o.bodyLayout depth)
      else .ofName o.operation.keyword.text :: lexemesOf (o.bodyLayout depth) := by
  cases hshort : o.isShorthand with
  | true =>
    rw [if_pos rfl, lexemesOf_bodyLayout depth hshort, OperationDefinition.layout, if_pos hshort]
  | false =>
    rw [OperationDefinition.layout_eq depth hshort]
    simp [bodyLayout]

theorem OperationDefinition.derives_layout (depth : Nat) {o : OperationDefinition}
    (h : o.WellFormed) :
    o.Derives (lexemesOf (o.layout depth)) ∧ Spelled (lexemesOf (o.layout depth)) := by
  rw [lexemesOf_layout]
  split
  · next hshort =>
    rw [lexemesOf_bodyLayout depth hshort]
    have hset := (o.selectionSet.spells depth _).2 ⟨h.selectionSet, rfl⟩
    exact ⟨derives_iff.2 (.inl ⟨hshort, hset.1⟩), hset.2⟩
  · have hkeyword := (o.spells_keyword depth _).2 ⟨h, rfl⟩
    exact ⟨derives_iff.2 (.inr hkeyword.1), hkeyword.2⟩

/-- A spelling without keyword cannot do without anything. -/
theorem OperationDefinition.shortened_of_selectionSet (o : OperationDefinition) {ss : SelectionSet}
    {w : List Lexeme} (h : ss.Derives w) : o.shortened w = w := by
  obtain ⟨⟨hx⟩, hw, hne, he⟩ := h
  refine if_neg fun hkeyword => ?_
  have hname := (Lexeme.isKeyword_iff.1 (Bool.and_eq_true_iff.1 hkeyword).2).1
  rw [hx] at hname
  cases hname

theorem OperationDefinition.shortened_eq (depth : Nat) {o : OperationDefinition} {w : List Lexeme}
    (h : o.Derives w) (hw : Spelled w) :
    o.WellFormed ∧ o.shortened w = lexemesOf (o.layout depth) := by
  rw [lexemesOf_layout]
  rcases derives_iff.1 h with ⟨hshort, h⟩ | h
  · obtain ⟨hset, hu⟩ := (o.selectionSet.spells depth w).1 ⟨h, hw⟩
    -- Written without its keyword, the operation is left as it is.
    rw [if_pos hshort, o.shortened_of_selectionSet h, lexemesOf_bodyLayout depth hshort]
    refine ⟨?_, hu⟩
    rw [eq_of_isShorthand hshort]
    exact ⟨nofun, nofun, nofun, hset⟩
  · obtain ⟨hwf, rfl⟩ := (o.spells_keyword depth w).1 ⟨h, hw⟩
    refine ⟨hwf, ?_⟩
    -- Written with its keyword, it loses the keyword exactly if it is a shorthand.
    rw [shortened]
    cases hshort : o.isShorthand with
    | true =>
      rw [eq_of_isShorthand hshort]
      rfl
    | false => rfl

theorem FragmentDefinition.spells (depth : Nat) (d : FragmentDefinition) :
    Spells d.Derives d.WellFormed (lexemesOf (d.layout depth)) := by
  have h := (d.name.spells_fragmentName.then (d.typeCondition.spells_condition.then
    ((spells_directives d.directives).then (d.selectionSet.spells depth)))).reservedThen .fragment
  refine h.congr (fun w => ⟨?_, ?_⟩) ⟨?_, ?_⟩ ?_
  · rintro ⟨hk, hn, ht, hd, hs⟩
    exact .intro hk (.intro hn (.intro ht (.intro hd hs)))
  · rintro ⟨hk, hn, ht, hd, hs⟩
    exact .intro hk hn ht hd hs
  · exact fun h => ⟨h.name, h.typeCondition, h.directives, h.selectionSet⟩
  · rintro ⟨hn, ht, hd, hs⟩
    exact ⟨hn, ht, hd, hs⟩
  · simp [FragmentDefinition.layout, SelectionSet.layout, Keyword.text]

/-! ### Types -/

theorem InputValueDefinition.spells (d : InputValueDefinition) :
    Spells d.Derives d.WellFormed (lexemesOf d.layout) := by
  have h := d.name.spells.then ((d.type.spells.then
    (spells_default (c := .inputDefault) nofun d.default?)).symbolThen .colon)
  refine h.congr (fun w => ⟨?_, ?_⟩) ?_ (by simp [InputValueDefinition.layout])
  · rintro ⟨hn, hs, ht, hd⟩
    exact .intro hn (.intro hs (.intro ht hd))
  · rintro ⟨hn, hs, ht, hd⟩
    exact .intro hn hs ht hd
  · exact ⟨fun h => ⟨h.name, h.type, h.default⟩, fun h => ⟨h.1, h.2.1, h.2.2⟩⟩

theorem FieldDefinition.spells (d : FieldDefinition) :
    Spells d.Derives d.WellFormed (lexemesOf d.layout) := by
  have hargs := Spells.parenthesized fun a (_ : a ∈ d.arguments) => a.spells
  have h := d.name.spells.then (hargs.then (d.type.spells.symbolThen .colon))
  refine h.congr (fun w => ⟨?_, ?_⟩) ?_ (by simp [FieldDefinition.layout])
  · rintro ⟨hn, ha, hs, ht⟩
    exact .intro hn (.intro ha (.intro hs ht))
  · rintro ⟨hn, ha, hs, ht⟩
    exact .intro hn ha hs ht
  · exact ⟨fun h => ⟨h.name, h.arguments, h.type⟩, fun h => ⟨h.1, h.2.1, h.2.2⟩⟩

theorem EnumValueDefinition.spells (d : EnumValueDefinition) :
    Spells d.Derives d.name.WellFormed (lexemesOf d.layout) := d.name.spells

theorem spells_fieldBlock (depth : Nat) (fs : List FieldDefinition) :
    Spells (FieldBlock fs) (fs ≠ [] ∧ ∀ f ∈ fs, f.WellFormed)
      (lexemesOf (block depth (fs.map FieldDefinition.layout))) :=
  .block depth fun f _ => f.spells

theorem spells_interfaces (ns : List Name) :
    Spells (Interfaces ns) (∀ n ∈ ns, n.WellFormed) (lexemesOf (interfacesLayout ns)) := by
  by_cases hne : ns = []
  · subst hne
    refine fun w => ⟨?_, ?_⟩
    · rintro ⟨_ | ⟨_, _, hne⟩, -⟩
      · exact ⟨nofun, rfl⟩
      · exact absurd rfl hne
    · rintro ⟨-, rfl⟩
      exact ⟨.none, nofun⟩
  · have h := (Spells.many fun n (_ : n ∈ ns) => n.spells).reservedThen .implements
    refine h.congr (fun w => ⟨?_, ?_⟩) .rfl ?_
    · rintro (_ | ⟨hk, hw, _⟩)
      · exact absurd rfl hne
      · exact .intro hk hw
    · rintro ⟨hk, hw⟩
      exact .some hk hw hne
    · rw [interfacesLayout, if_neg (by simpa using hne)]
      simp [lexemesOf_commaSeparated, Keyword.text]

theorem ObjectType.spells (depth : Nat) (t : ObjectType) :
    Spells t.Derives t.WellFormed (lexemesOf (t.layout depth)) := by
  have h := (t.name.spells.then ((spells_interfaces t.interfaces).then
    (spells_fieldBlock depth t.fields))).reservedThen .type
  refine h.congr (fun w => ⟨?_, ?_⟩) ⟨?_, ?_⟩ (by simp [ObjectType.layout_eq, Keyword.text])
  · rintro ⟨hk, hn, hi, hf⟩
    exact .intro hk (.intro hn (.intro hi hf))
  · rintro ⟨hk, hn, hi, hf⟩
    exact .intro hk hn hi hf
  · exact fun h => ⟨h.name, h.interfaces, h.nonempty, h.fields⟩
  · rintro ⟨hn, hi, hne, hf⟩
    exact ⟨hn, hi, hne, hf⟩

/-- The members of a union behind the first of them. -/
theorem spells_alternatives (ms : List Name) :
    Spells (Many Alternative ms) (∀ m ∈ ms, m.WellFormed)
      (ms.flatMap fun m => lexemesOf (.punctuator .pipe :: m.layout)) := by
  refine .many fun m _ => (m.spells.symbolThen .pipe).congr (fun w => ⟨?_, ?_⟩) .rfl rfl
  · rintro ⟨hp, hn⟩
    exact .intro hp hn
  · rintro ⟨hp, hn⟩
    exact .intro hp hn

theorem lexemesOf_members (m : Name) (ms : List Name) :
    lexemesOf (joined [.space, .punctuator .pipe, .space] ((m :: ms).map Name.layout)) =
      lexemesOf m.layout ++ ms.flatMap fun m => lexemesOf (.punctuator .pipe :: m.layout) := by
  induction ms generalizing m with
  | nil => simp [joined]
  | cons n ms ih =>
    have hrest := ih n
    simp only [List.map_cons] at hrest
    simp [joined, hrest]

theorem TypeDefinition.spells (depth : Nat) (d : TypeDefinition) :
    Spells d.Derives d.WellFormed (lexemesOf (d.layout depth)) := by
  cases d with
  | scalar t =>
    refine (t.name.spells.reservedThen .scalar).congr (fun w => ⟨?_, ?_⟩) .rfl ?_
    · rintro ⟨hk, hn⟩
      exact .intro hk hn
    · rintro ⟨hk, hn⟩
      exact .scalar hk hn
    · simp [TypeDefinition.layout, ScalarType.layout, Keyword.text]
  | object t => exact (t.spells depth).congr (fun w => ⟨fun | .object h => h, .object⟩) .rfl rfl
  | interface t =>
    have h := (t.name.spells.then (spells_fieldBlock depth t.fields)).reservedThen .interface
    refine h.congr (fun w => ⟨?_, ?_⟩) .rfl ?_
    · intro h
      cases h with
      | interface hk hn hf => exact .intro hk (.intro hn hf)
    · rintro ⟨hk, hn, hf⟩
      exact .interface hk hn hf
    · simp [TypeDefinition.layout, InterfaceType.layout, Keyword.text]
  | union t =>
    obtain ⟨n, ms⟩ := t
    cases ms with
    | nil =>
      refine fun w => ⟨?_, ?_⟩
      · rintro ⟨⟨⟩, -⟩
      · rintro ⟨⟨-, hne, -⟩, -⟩
        exact absurd rfl hne
    | cons m ms =>
      -- The grammar takes the first member apart from the others.
      have h := (n.spells.then ((m.spells.then (spells_alternatives ms)).symbolThen
        .equals)).reservedThen .union
      refine h.congr (fun w => ⟨?_, ?_⟩) (by simp [WellFormed]) ?_
      · intro h
        cases h with
        | union hk hn he hm hs => exact .intro hk (.intro hn (.intro he (.intro hm hs)))
      · rintro ⟨hk, hn, he, hm, hs⟩
        exact .union hk hn he hm hs
      · rw [← lexemesOf_members]
        simp [TypeDefinition.layout, UnionType.layout, Keyword.text]
  | enum t =>
    have hvalues := Spells.block depth fun v (_ : v ∈ t.values) => v.spells
    refine ((t.name.spells.then hvalues).reservedThen .enum).congr (fun w => ⟨?_, ?_⟩) .rfl ?_
    · intro h
      cases h with
      | enum hk hn hv => exact .intro hk (.intro hn hv)
    · rintro ⟨hk, hn, hv⟩
      exact .enum hk hn hv
    · simp [TypeDefinition.layout, EnumType.layout, Keyword.text]
  | inputObject t =>
    have hfields := Spells.block depth fun f (_ : f ∈ t.fields) => f.spells
    refine ((t.name.spells.then hfields).reservedThen .input).congr (fun w => ⟨?_, ?_⟩) .rfl ?_
    · intro h
      cases h with
      | inputObject hk hn hf => exact .intro hk (.intro hn hf)
    · rintro ⟨hk, hn, hf⟩
      exact .inputObject hk hn hf
    · simp [TypeDefinition.layout, InputObjectType.layout, Keyword.text]

/-! ### Documents -/

theorem TypeExtension.spells (depth : Nat) (e : TypeExtension) :
    Spells (Definition.extension e).Derives e.definition.WellFormed
      (lexemesOf (e.layout depth)) := by
  refine ((e.definition.spells depth).reservedThen .extend).congr (fun w => ⟨?_, ?_⟩) .rfl ?_
  · intro h
    cases h with
    | extension hk h => exact .intro hk h
  · rintro ⟨hk, h⟩
    exact .extension hk h
  · simp [TypeExtension.layout, Keyword.text]

/-- A spelling of a definition without the keyword that it can do without. -/
def Definition.shortened : Definition → List Lexeme → List Lexeme
  | .operation o, w => o.shortened w
  | .fragment _, w | .type _, w | .extension _, w => w

/-- A well-formed definition is spelled by its layout. -/
theorem Definition.derives_layout (depth : Nat) {d : Definition} (h : d.WellFormed) :
    d.Derives (lexemesOf (d.layout depth)) ∧ Spelled (lexemesOf (d.layout depth)) := by
  cases d with
  | operation o =>
    have ho := OperationDefinition.derives_layout depth h
    exact ⟨.operation ho.1, ho.2⟩
  | fragment f =>
    have hf := (f.spells depth _).2 ⟨h, rfl⟩
    exact ⟨.fragment hf.1, hf.2⟩
  | type t =>
    have ht := (t.spells depth _).2 ⟨h, rfl⟩
    exact ⟨.type ht.1, ht.2⟩
  | extension e => exact (e.spells depth _).2 ⟨h, rfl⟩

/-- What a source text spells is well-formed, and the layout only shortens it. -/
theorem Definition.shortened_eq (depth : Nat) {d : Definition} {w : List Lexeme}
    (h : d.Derives w) (hw : Spelled w) :
    d.WellFormed ∧ d.shortened w = lexemesOf (d.layout depth) := by
  cases d with
  | operation o =>
    cases h with
    | operation h => exact OperationDefinition.shortened_eq depth h hw
  | fragment f =>
    cases h with
    | fragment h => exact (f.spells depth w).1 ⟨h, hw⟩
  | type t =>
    cases h with
    | type h => exact (t.spells depth w).1 ⟨h, hw⟩
  | extension e => exact (e.spells depth w).1 ⟨h, hw⟩

/-- A list derives the lexemes that its parts derive. -/
theorem Many.iff_parts {α : Type} {item : α → List Lexeme → Prop} {as : List α} {w : List Lexeme} :
    Many item as w ↔ ∃ parts : List (α × List Lexeme),
      parts.map Prod.fst = as ∧ (∀ p ∈ parts, item p.1 p.2) ∧ parts.flatMap Prod.snd = w := by
  constructor
  · intro h
    induction h with
    | nil => exact ⟨[], rfl, nofun, rfl⟩
    | @cons a as w ws h hs ih =>
      obtain ⟨parts, rfl, hparts, rfl⟩ := ih
      exact ⟨(a, w) :: parts, rfl, List.forall_mem_cons.2 ⟨h, hparts⟩, rfl⟩
  · rintro ⟨parts, rfl, hparts, rfl⟩
    induction parts with
    | nil => exact .nil
    | cons p parts ih =>
      obtain ⟨hp, hparts⟩ := List.forall_mem_cons.1 hparts
      exact .cons hp (ih hparts)

theorem Document.lexemesOf_layout (depth : Nat) (d : Document) :
    lexemesOf (d.layout depth) = d.definitions.flatMap fun x => lexemesOf (x.layout depth) := by
  rw [Document.layout, lexemesOf_append, lexemesOf_joined _ rfl, List.flatMap_map]
  simp

/-- A well-formed document is spelled by its layout. -/
theorem Document.derives_layout (depth : Nat) {d : Document} (h : d.WellFormed) :
    d.Derives (lexemesOf (d.layout depth)) ∧ Spelled (lexemesOf (d.layout depth)) := by
  obtain ⟨ds⟩ := d
  obtain ⟨hne, hall⟩ := h
  have hdefinition : ∀ x ∈ ds, _ := fun x hx => Definition.derives_layout depth (hall x hx)
  rw [Document.lexemesOf_layout]
  refine ⟨.intro (Many.iff_parts.2 ?_) hne, ?_⟩
  · refine ⟨ds.map fun x => (x, lexemesOf (x.layout depth)), ?_, ?_, ?_⟩
    · simp [Function.comp_def]
    · simpa using fun x hx => (hdefinition x hx).1
    · simp [List.flatMap_map]
  · intro x hx
    obtain ⟨y, hy, hxy⟩ := List.mem_flatMap.1 hx
    exact (hdefinition y hy).2 x hxy

end GraphQL
