/-
The spellings of values, types and selections.

* `Value.spells`, `TypeRef.spells`, `SelectionSet.spells` — a well-formed part
  has one spelling in a source text, and others have none.

Design notes: a selection is spelled by its own lexemes around those of the
selection set inside it, so `Selection.spells` asks for the spelling of the
latter and the induction runs over selection sets alone.
-/
import GraphQL.Proofs.Spelling.Basic

namespace GraphQL

open Layout

/-! ### Names, values and types -/

theorem Name.spells (n : Name) : Spells n.Derives n.WellFormed (lexemesOf n.layout) :=
  (Spells.terminal rfl n.text).congr (fun _ => .rfl) Lexeme.Spellable.ofName_iff.symm rfl

theorem Name.spells_fragmentName (n : Name) :
    Spells (FragmentName n) n.NamesFragment (lexemesOf n.layout) := by
  obtain ⟨t⟩ := n
  refine (Spells.nameBut [.on] fun w => .rfl).congr (fun w => ⟨?_, ?_⟩) ?_ rfl
  · rintro ⟨hx, hon⟩
    exact ⟨_, rfl, hx, rfl, by simpa using hon⟩
  · rintro ⟨x, rfl, hx, rfl, hon⟩
    exact .intro hx (hon .on (by simp))
  · simp [Name.NamesFragment, Name.WellFormed]

theorem Variable.spells (v : Variable) :
    Spells v.Derives v.name.WellFormed (lexemesOf v.layout) := by
  refine (v.name.spells.symbolThen .dollar).congr (fun w => ⟨?_, ?_⟩) .rfl rfl
  · rintro ⟨hd, hn⟩
    exact .intro hd hn
  · rintro ⟨hd, hn⟩
    exact .intro hd hn

/-- A value that is well-formed and has no variables where none may stand. -/
def Value.WellFormedIn (c : ValueContext) (v : Value) : Prop :=
  v.WellFormed ∧ (c ≠ .argument → v.isConst = true)

theorem Value.wellFormedIn_list_iff {c : ValueContext} {vs : List Value} :
    (list vs).WellFormedIn c ↔ ∀ v ∈ vs, v.WellFormedIn c := by
  simp only [WellFormedIn, wellFormed_list_iff, isConst, allConst_eq, List.all_eq_true]
  exact ⟨fun h v hv => ⟨h.1 v hv, fun hc => h.2 hc v hv⟩,
    fun h => ⟨fun v hv => (h v hv).1, fun hc v hv => (h v hv).2 hc⟩⟩

theorem Value.wellFormedIn_object_iff {c : ValueContext} {fs : List ObjectField} :
    (object fs).WellFormedIn c ↔ ∀ f ∈ fs, f.name.WellFormed ∧ f.value.WellFormedIn c := by
  simp only [WellFormedIn, wellFormed_object_iff, isConst, fieldsConst_eq, List.all_eq_true]
  exact ⟨fun h f hf => ⟨(h.1 f hf).1, (h.1 f hf).2, fun hc => h.2 hc f hf⟩,
    fun h => ⟨fun f hf => ⟨(h f hf).1, (h f hf).2.1⟩, fun hc f hf => (h f hf).2.2 hc⟩⟩

/-- A name, a colon and a value. -/
theorem spells_named {P : List Lexeme → Prop} {C : Prop} {ps : List Piece} (n : Name)
    (h : Spells P C (lexemesOf ps)) :
    Spells (Then n.Derives (Then (Symbol .colon) P)) (n.WellFormed ∧ C)
      (lexemesOf (n.layout ++ [.punctuator .colon, .space] ++ ps)) :=
  (n.spells.then (h.symbolThen .colon)).spelledAs (by simp)

theorem ObjectField.spells {c : ValueContext} {f : ObjectField}
    (h : Spells (f.value.Derives c) (f.value.WellFormedIn c) (lexemesOf f.value.layout)) :
    Spells (f.Derives c) (f.name.WellFormed ∧ f.value.WellFormedIn c) (lexemesOf f.layout) := by
  obtain ⟨n, v⟩ := f
  refine (spells_named n h).congr (fun w => ⟨?_, ?_⟩) .rfl rfl
  · rintro ⟨hn, hs, hv⟩
    exact .intro hn (.intro hs hv)
  · rintro ⟨hn, hs, hv⟩
    exact .intro hn hs hv

theorem Value.spells (c : ValueContext) (v : Value) :
    Spells (v.Derives c) (v.WellFormedIn c) (lexemesOf v.layout) := by
  induction v using Value.induct with
  | var v =>
    refine (v.spells.onlyIf (c = .argument)).congr
      (fun w => ⟨fun | .var hc h => ⟨hc, h⟩, fun h => .var h.1 h.2⟩) ?_ rfl
    simp [WellFormedIn, isConst, and_comm]
  | int t =>
    refine (Spells.terminal rfl t).congr (fun w => ⟨fun | .int h => h, .int⟩) ?_ rfl
    simp [WellFormedIn, isConst, Lexeme.Spellable.int_iff]
  | float t =>
    refine (Spells.terminal rfl t).congr (fun w => ⟨fun | .float h => h, .float⟩) ?_ rfl
    simp [WellFormedIn, isConst, Lexeme.Spellable.float_iff]
  | string t =>
    refine (Spells.terminal rfl t).congr (fun w => ⟨fun | .string h => h, .string⟩) ?_ rfl
    simp [WellFormedIn, isConst, Lexeme.Spellable.string, WellFormed.string]
  | boolean b =>
    have hwf : (boolean b).WellFormedIn c ↔ True := by
      simp [WellFormedIn, isConst, WellFormed.boolean]
    cases b with
    | true =>
      exact (Spells.reserved .trueLiteral).congr (fun w => ⟨fun | .true h => h, .true⟩) hwf rfl
    | false =>
      exact (Spells.reserved .falseLiteral).congr (fun w => ⟨fun | .false h => h, .false⟩) hwf rfl
  | enum t =>
    refine (Spells.nameBut [.trueLiteral, .falseLiteral, .nullLiteral] fun w => .rfl).congr
      (fun w => ⟨?_, ?_⟩) ?_ rfl
    · intro h
      cases h with
      | enum hx ht hf hn => exact ⟨_, rfl, hx, rfl, by simp [ht, hf, hn]⟩
    · rintro ⟨x, rfl, hx, rfl, hno⟩
      exact .enum hx (hno _ (by simp)) (hno _ (by simp)) (hno _ (by simp))
    · simp [WellFormedIn, isConst, IsEnumText]
  | list vs ih =>
    have h := ((Spells.many ih).thenSymbol .bracketClose).symbolThen .bracketOpen
    refine h.congr (fun w => ⟨?_, ?_⟩) wellFormedIn_list_iff ?_
    · intro h
      cases h with
      | list ho hw he => exact .intro ho (.intro hw he)
    · rintro ⟨ho, hw, he⟩
      exact .list ho hw he
    · simp [Value.layout, Value.layouts_eq, lexemesOf_commaSeparated]
  | object fs ih =>
    have hfields := Spells.many fun f hf => ObjectField.spells (ih f hf)
    have h := (hfields.thenSymbol .braceClose).symbolThen .braceOpen
    refine h.congr (fun w => ⟨?_, ?_⟩) wellFormedIn_object_iff ?_
    · intro h
      cases h with
      | object ho hw he => exact .intro ho (.intro hw he)
    · rintro ⟨ho, hw, he⟩
      exact .object ho hw he
    · simp [Value.layout, ObjectField.layouts_eq, lexemesOf_commaSeparated]

/-- A type is spelled in one way, and one without non-null mark also where no
mark may follow. -/
theorem TypeRef.spells_both (t : TypeRef) :
    Spells t.Derives t.WellFormed (lexemesOf t.layout) ∧
      Spells t.DerivesNullable (t.isNonNull = false ∧ t.WellFormed) (lexemesOf t.layout) := by
  -- A type without mark is a type in one way only, so one spelling settles both.
  have hboth {t : TypeRef} (ht : t.isNonNull = false)
      (h : Spells t.DerivesNullable t.WellFormed (lexemesOf t.layout)) :
      Spells t.Derives t.WellFormed (lexemesOf t.layout) ∧
        Spells t.DerivesNullable (t.isNonNull = false ∧ t.WellFormed) (lexemesOf t.layout) := by
    refine ⟨h.congr (fun w => ⟨?_, .nullable⟩) .rfl rfl, h.congr (fun _ => .rfl) (by simp [ht]) rfl⟩
    intro hw
    cases hw with
    | nullable hw => exact hw
    | nonNull => cases ht
  induction t with
  | named n =>
    exact hboth rfl (n.spells.congr (fun w => ⟨fun | .named h => h, .named⟩) .rfl rfl)
  | list item ih =>
    have h := (ih.1.thenSymbol .bracketClose).symbolThen .bracketOpen
    refine hboth rfl (h.congr (fun w => ⟨?_, ?_⟩) .rfl (by simp [TypeRef.layout]))
    · rintro (_ | ⟨ho, hw, he⟩)
      exact .intro ho (.intro hw he)
    · rintro ⟨ho, hw, he⟩
      exact .list ho hw he
  | nonNull inner ih =>
    refine ⟨(ih.2.thenSymbol .bang).congr (fun w => ⟨?_, ?_⟩) .rfl (by simp [TypeRef.layout]), ?_⟩
    · rintro (⟨⟨⟩⟩ | ⟨hw, hb⟩)
      exact .intro hw hb
    · rintro ⟨hw, hb⟩
      exact .nonNull hw hb
    · -- Nothing is derived, and a type with two marks is not well-formed.
      refine fun w => ⟨?_, ?_⟩
      · rintro ⟨⟨⟩, -⟩
      · rintro ⟨⟨⟨⟩, -⟩, -⟩

theorem TypeRef.spells (t : TypeRef) : Spells t.Derives t.WellFormed (lexemesOf t.layout) :=
  t.spells_both.1

/-! ### Selections -/

theorem Argument.spells (a : Argument) : Spells a.Derives a.WellFormed (lexemesOf a.layout) := by
  refine (spells_named a.name (a.value.spells .argument)).congr (fun w => ⟨?_, ?_⟩) ?_ rfl
  · rintro ⟨hn, hs, hv⟩
    exact .intro hn (.intro hs hv)
  · rintro ⟨hn, hs, hv⟩
    exact .intro hn hs hv
  · exact ⟨fun h => ⟨h.name, h.value, fun hc => absurd rfl hc⟩, fun h => ⟨h.1, h.2.1⟩⟩

theorem spells_arguments (as : List Argument) :
    Spells (Parenthesized Argument.Derives as) (∀ a ∈ as, a.WellFormed)
      (lexemesOf (parenthesized (as.map Argument.layout))) :=
  .parenthesized fun a _ => a.spells

theorem Directive.spells (d : Directive) : Spells d.Derives d.WellFormed (lexemesOf d.layout) := by
  have h := (d.name.spells.then (spells_arguments d.arguments)).symbolThen .atSign
  refine h.congr (fun w => ⟨?_, ?_⟩) ?_ (by simp [Directive.layout])
  · rintro ⟨hm, hn, ha⟩
    exact .intro hm (.intro hn ha)
  · rintro ⟨hm, hn, ha⟩
    exact .intro hm hn ha
  · exact ⟨fun h => ⟨h.name, h.arguments⟩, fun h => ⟨h.1, h.2⟩⟩

theorem spells_directives (ds : List Directive) :
    Spells (Many Directive.Derives ds) (∀ d ∈ ds, d.WellFormed) (lexemesOf (directivesLayout ds)) :=
  (Spells.many fun d _ => d.spells).spelledAs
    (by simp [directivesLayout, lexemesOf_flatMap])

theorem Name.spells_condition (n : Name) :
    Spells (TypeCondition n) n.WellFormed (.ofName "on" :: lexemesOf n.layout) := by
  refine (n.spells.reservedThen .on).congr (fun w => ⟨?_, ?_⟩) .rfl rfl
  · rintro ⟨ho, hn⟩
    exact .intro ho hn
  · rintro ⟨ho, hn⟩
    exact .intro ho hn

theorem spells_alias (a? : Option Name) :
    Spells (Maybe Alias a?) (∀ a ∈ a?, a.WellFormed) (lexemesOf (aliasLayout a?)) := by
  have halias (a : Name) :
      Spells (Alias a) a.WellFormed (lexemesOf (a.layout ++ [.punctuator .colon, .space])) := by
    refine (a.spells.thenSymbol .colon).congr (fun w => ⟨?_, ?_⟩) .rfl (by simp)
    · rintro ⟨hn, hs⟩
      exact .intro hn hs
    · rintro ⟨hn, hs⟩
      exact .intro hn hs
  refine (Spells.maybe fun a _ => halias a).spelledAs ?_
  cases a? <;> rfl

theorem spells_optionalCondition (t? : Option Name) :
    Spells (Maybe TypeCondition t?) (∀ t ∈ t?, t.WellFormed) (lexemesOf (conditionLayout t?)) := by
  have hcondition (t : Name) : Spells (TypeCondition t) t.WellFormed
      (lexemesOf ([.space, .word "on", .space] ++ t.layout)) := t.spells_condition
  refine (Spells.maybe fun t _ => hcondition t).spelledAs ?_
  cases t? <;> rfl

/-- The selection set behind what it belongs to. -/
theorem spells_nested {depth : Nat} {ss? : Option SelectionSet}
    (h : ∀ t ∈ ss?, Spells t.Derives t.WellFormed (lexemesOf (t.layout depth))) :
    Spells (Maybe SelectionSet.Derives ss?) (∀ t ∈ ss?, t.WellFormed)
      (lexemesOf (nestedLayout depth ss?)) := by
  refine (Spells.maybe h).spelledAs ?_
  cases ss? with
  | none => rfl
  | some t => exact (lexemesOf_spacedBlock _ depth).symm

/-- A selection has one spelling if the selection set inside it has. -/
theorem Selection.spells {depth : Nat} {s : Selection}
    (h : ∀ t ∈ s.selectionSet?, Spells t.Derives t.WellFormed (lexemesOf (t.layout depth))) :
    Spells s.Derives (s.WellFormedOutside ∧ ∀ t ∈ s.selectionSet?, t.WellFormed)
      (lexemesOf (s.layout depth)) := by
  cases s with
  | field f =>
    obtain ⟨a?, n, as, ds, ss?⟩ := f
    have hfield := (spells_alias a?).then (n.spells.then ((spells_arguments as).then
      ((spells_directives ds).then (spells_nested h))))
    refine hfield.congr (fun w => ⟨?_, ?_⟩) (by simp [WellFormedOutside, and_assoc]) ?_
    · rintro ⟨⟨hl, hn, ha, hd, hs⟩⟩
      exact .intro hl (.intro hn (.intro ha (.intro hd hs)))
    · rintro ⟨hl, hn, ha, hd, hs⟩
      exact .field (.intro hl hn ha hd hs)
    · simp [Selection.layout, Field.layout_eq]
  | spread f =>
    obtain ⟨n, ds⟩ := f
    have hspread := (n.spells_fragmentName.then (spells_directives ds)).symbolThen .ellipsis
    refine hspread.congr (fun w => ⟨?_, ?_⟩) (by simp [WellFormedOutside]) ?_
    · rintro (_ | ⟨he, hn, hd⟩)
      exact .intro he (.intro hn hd)
    · rintro ⟨he, hn, hd⟩
      exact .spread he hn hd
    · simp [Selection.layout, FragmentSpread.layout]
  | inline f =>
    obtain ⟨t?, ds, ss⟩ := f
    have hset := h ss rfl
    have hinline := ((spells_optionalCondition t?).then
      ((spells_directives ds).then hset)).symbolThen .ellipsis
    refine hinline.congr (fun w => ⟨?_, ?_⟩) (by simp [WellFormedOutside, and_assoc]) ?_
    · rintro (_ | _ | ⟨he, ht, hd, hs⟩)
      exact .intro he (.intro ht (.intro hd hs))
    · rintro ⟨he, ht, hd, hs⟩
      exact .inline he ht hd hs
    · simp [Selection.layout, InlineFragment.layout_eq, nestedLayout, SelectionSet.layout]

theorem SelectionSet.spells (ss : SelectionSet) (depth : Nat) :
    Spells ss.Derives ss.WellFormed (lexemesOf (ss.layout depth)) := by
  induction ss using SelectionSet.induct generalizing depth with
  | step ss ih =>
    have hmembers := fun s hs => Selection.spells fun t ht => ih s hs t ht (depth + 1)
    refine (Spells.block depth hmembers).congr (fun w => ⟨?_, ?_⟩) ⟨?_, ?_⟩ ?_
    · rintro ⟨ho, hw, hne, he⟩
      exact .intro ho hw hne he
    · rintro ⟨ho, hw, hne, he⟩
      exact .intro ho hw hne he
    · rintro ⟨hne, ho, hi⟩
      exact ⟨hne, fun s hs => ⟨ho s hs, hi s hs⟩⟩
    · rintro ⟨hne, hall⟩
      exact .intro hne (fun s hs => (hall s hs).1) fun s hs => (hall s hs).2
    · rw [SelectionSet.layout, SelectionSet.members_eq]

end GraphQL
