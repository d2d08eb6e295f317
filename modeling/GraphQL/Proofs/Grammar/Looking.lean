/-
Rules look before they take.

* `Rule.Takes` — a rule does not succeed without taking a lexeme;
* `Rule.Looks` — a rule looks at each lexeme before it takes it, so that it
  never takes the end of the input, and the items of its loops take something;
* `Nested.rule_takes`, `Nested.rule_looks`, `Rule.document_looks` — so do all
  rules of the grammar.

Design notes: only a look says anything of the lexeme in view, so what is known
of it is forgotten behind each lexeme that is taken.  A loop knows of the first
lexeme of each item that it passes the test.
-/
import GraphQL.Grammar.Document

namespace GraphQL

namespace Rule

/-- Whenever a rule succeeds it has taken something. -/
def Takes {α : Type} : Rule α → Prop
  | done _ => False
  | look next => ∀ x, (next x).Takes
  | take _ _ => True
  | refuse _ => True
  | nest _ _ => True
  | many _ _ next => ∀ bs, (next bs).Takes

/-- A rule looks at a lexeme before it takes it, and never takes the end of the
input; `Known` is what is known of the lexeme in view.  The items of its loops
take something. -/
def Looks {α : Type} : Rule α → (Lexeme → Prop) → Prop
  | done _, _ => True
  | look next, Known => ∀ x, Known x → (next x).Looks (· = x)
  | take _ next, Known =>
    (∀ x, Known x → x.kind ≠ .endOfInput) ∧ ∀ b, (next b).Looks fun _ => True
  | refuse _, _ => True
  | nest _ next, _ => ∀ t, (next t).Looks fun _ => True
  | many test item next, _ =>
    item.Looks (fun x => test x = true) ∧ item.Takes ∧ ∀ bs, (next bs).Looks fun _ => True

section Shapes

variable {α β : Type} {Known : Lexeme → Prop}

theorem Takes.bind {r : Rule α} (h : r.Takes) (f : α → Rule β) : (r >>= f).Takes := by
  show (r.bind f).Takes
  induction r with
  | done a => exact h.elim
  | look next ih => exact fun x => ih x (h x) f
  | take judge next _ => trivial
  | refuse r => trivial
  | nest n next _ => trivial
  | many test item next _ ih => exact fun bs => ih bs (h bs) f

theorem Takes.map {r : Rule α} (h : r.Takes) (f : α → β) : (f <$> r).Takes := h.bind _

theorem Takes.ite {c : Prop} [Decidable c] {r r' : Rule α} (h : r.Takes) (h' : r'.Takes) :
    (if c then r else r').Takes := by
  split <;> assumption

theorem Looks.mono {r : Rule α} {Known' : Lexeme → Prop} (h : r.Looks Known)
    (hk : ∀ x, Known' x → Known x) : r.Looks Known' := by
  cases r with
  | done a => trivial
  | look next => exact fun x hx => h x (hk x hx)
  | take judge next => exact ⟨fun x hx => h.1 x (hk x hx), h.2⟩
  | refuse r => trivial
  | nest n next => exact h
  | many test item next => exact h

/-- A rule that looks whatever is known. -/
theorem Looks.anyway {r : Rule α} (h : r.Looks fun _ => True) : r.Looks Known :=
  h.mono fun _ _ => trivial

theorem Looks.bind {r : Rule α} {f : α → Rule β} (h : r.Looks Known)
    (hf : ∀ a, (f a).Looks fun _ => True) : (r >>= f).Looks Known := by
  show (r.bind f).Looks Known
  induction r generalizing Known with
  | done a => exact (hf a).anyway
  | look next ih => exact fun x hx => ih x (h x hx) hf
  | take judge next ih => exact ⟨h.1, fun b => ih b (h.2 b) hf⟩
  | refuse r => trivial
  | nest n next ih => exact fun t => ih t (h t) hf
  | many test item next _ ih => exact ⟨h.1, h.2.1, fun bs => ih bs (h.2.2 bs) hf⟩

theorem Looks.map {r : Rule α} (h : r.Looks Known) (f : α → β) : (f <$> r).Looks Known :=
  h.bind fun _ => trivial

theorem Looks.ite {c : Prop} [Decidable c] {r r' : Rule α} (h : c → r.Looks Known)
    (h' : ¬c → r'.Looks Known) : (if c then r else r').Looks Known := by
  split
  · next hc => exact h hc
  · next hc => exact h' hc

/-- A lexeme of which something is known but that it ends the input may be taken. -/
theorem take_looks {judge : Lexeme → Except Refusal α} (h : ∀ x, Known x → x.kind ≠ .endOfInput) :
    (take judge done).Looks Known := ⟨h, fun _ => trivial⟩

theorem expect_takes (k : TokenKind) : (expect k).Takes := fun _ => .ite trivial trivial

theorem expect_looks {k : TokenKind} (hk : k ≠ .endOfInput) : (expect k).Looks Known :=
  fun _ _ => .ite (fun hx => take_looks fun _ hy => hy ▸ hx ▸ hk) fun _ => trivial

theorem symbol_looks (p : Punctuator) : (expect p).Looks Known := expect_looks (by simp)

theorem keyword_takes (k : Keyword) : (keyword k).Takes := fun _ => .ite trivial trivial

theorem keyword_looks (k : Keyword) : (keyword k).Looks Known := by
  refine fun x _ => .ite (fun hx => take_looks ?_) fun _ => trivial
  rintro y rfl
  have hname : y.kind = .name := by simpa using (Bool.and_eq_true_iff.1 hx).1
  simp [hname]

theorem ifNext_looks {test : Lexeme → Bool} {r : Rule α} (h : r.Looks fun _ => True) :
    (ifNext test r).Looks Known :=
  fun _ _ => .ite (fun _ => h.anyway.map some) fun _ => trivial

theorem many_looks {test : Lexeme → Bool} {item : Rule α} (h : item.Looks fun _ => True)
    (ht : item.Takes) : (many test item done).Looks Known :=
  ⟨h.anyway, ht, fun _ => trivial⟩

theorem upTo_looks {item : Rule α} (h : item.Looks fun _ => True) (ht : item.Takes)
    (close : Punctuator) : (upTo item close).Looks Known :=
  (many_looks h ht).bind fun _ => (symbol_looks close).bind fun _ => trivial

theorem zeroOrMore_looks {item : Rule α} (h : item.Looks fun _ => True) (ht : item.Takes)
    (opening close : Punctuator) : (zeroOrMore opening item close).Looks Known :=
  (symbol_looks opening).bind fun _ => upTo_looks h ht close

theorem oneOrMore_takes {item : Rule α} (opening close : Punctuator) :
    (oneOrMore opening item close).Takes := (expect_takes _).bind _

theorem oneOrMore_looks {item : Rule α} (h : item.Looks fun _ => True) (ht : item.Takes)
    (opening close : Punctuator) : (oneOrMore opening item close).Looks Known :=
  (symbol_looks opening).bind fun _ => h.bind fun _ => (upTo_looks h ht close).bind fun _ => trivial

theorem nested_takes (n : Nested) : (nested n).Takes := trivial

theorem nested_looks (n : Nested) : (nested n).Looks Known := fun _ => trivial

end Shapes

/-! ### Values, types and selections -/

section Grammar

variable {Known : Lexeme → Prop}

theorem name_takes : name.Takes := (expect_takes _).map _

theorem name_looks : name.Looks Known := (expect_looks (by decide)).map _

theorem var_takes : var.Takes := (expect_takes _).bind _

theorem var_looks : var.Looks Known :=
  (symbol_looks _).bind fun _ => name_looks.bind fun _ => trivial

theorem objectField_takes (c : ValueContext) : (objectField c).Takes := name_takes.bind _

theorem objectField_looks (c : ValueContext) : (objectField c).Looks Known :=
  name_looks.bind fun _ => (symbol_looks _).bind fun _ => (nested_looks _).bind fun _ => trivial

theorem value_takes (c : ValueContext) : (value c).Takes := by
  intro x
  dsimp only
  split
  · exact Takes.map ((expect_takes _).bind _) _
  · exact Takes.map ((expect_takes _).bind _) _
  · exact (expect_takes _).map _
  · exact (expect_takes _).map _
  · exact (expect_takes _).map _
  · trivial
  · split
    · exact var_takes.map _
    · trivial
  · trivial

theorem value_looks (c : ValueContext) : (value c).Looks Known := by
  intro x _
  dsimp only
  split
  · exact (zeroOrMore_looks (nested_looks _) (nested_takes _) _ _).map _
  · exact (zeroOrMore_looks (objectField_looks c) (objectField_takes c) _ _).map _
  · exact (expect_looks (by decide)).map _
  · exact (expect_looks (by decide)).map _
  · exact (expect_looks (by decide)).map _
  · next hx =>
    -- Of the lexeme that is taken unjudged it is known that it is a name.
    refine take_looks ?_
    rintro _ rfl
    simp [hx]
  · split
    · exact var_looks.map _
    · trivial
  · trivial

theorem nullableType_takes : nullableType.Takes :=
  fun _ => .ite ((expect_takes _).bind _) (name_takes.map _)

theorem nullableType_looks : nullableType.Looks Known :=
  fun _ _ => .ite (fun _ => (symbol_looks _).bind fun _ => (nested_looks _).bind fun _ =>
    (symbol_looks _).bind fun _ => trivial) fun _ => name_looks.map _

theorem typeRef_takes : typeRef.Takes := nullableType_takes.bind _

theorem typeRef_looks : typeRef.Looks Known := by
  refine nullableType_looks.bind fun _ => (ifNext_looks (symbol_looks _)).bind fun mark => ?_
  cases mark <;> trivial

theorem argument_takes : argument.Takes := name_takes.bind _

theorem argument_looks : argument.Looks Known :=
  name_looks.bind fun _ => (symbol_looks _).bind fun _ => (nested_looks _).bind fun _ => trivial

theorem arguments_looks : arguments.Looks Known :=
  (ifNext_looks (oneOrMore_looks argument_looks argument_takes _ _)).bind fun _ => trivial

theorem directive_takes : directive.Takes := (expect_takes _).bind _

theorem directive_looks : directive.Looks Known :=
  (symbol_looks _).bind fun _ => name_looks.bind fun _ => arguments_looks.bind fun _ => trivial

theorem directives_looks : directives.Looks Known := many_looks directive_looks directive_takes

theorem field_takes : field.Takes := name_takes.bind _

theorem field_looks : field.Looks Known := by
  refine name_looks.bind fun _ => ?_
  refine (ifNext_looks ((symbol_looks _).bind fun _ => name_looks)).bind fun second => ?_
  refine arguments_looks.bind fun _ => directives_looks.bind fun _ => ?_
  refine (ifNext_looks (nested_looks _)).bind fun _ => ?_
  cases second <;> trivial

theorem fragmentName_looks : fragmentName.Looks Known :=
  fun _ _ => .ite (fun _ => trivial) fun _ => name_looks

theorem fragment_takes : fragment.Takes := (expect_takes _).bind _

theorem fragment_looks : fragment.Looks Known := by
  refine (symbol_looks _).bind fun _ _ _ => .ite (fun _ => ?_) fun _ => ?_
  · exact fragmentName_looks.bind fun _ => directives_looks.bind fun _ => trivial
  · refine (ifNext_looks ((keyword_looks _).bind fun _ => name_looks)).bind fun _ => ?_
    exact directives_looks.bind fun _ => (nested_looks _).bind fun _ => trivial

theorem selection_takes : selection.Takes := fun _ => .ite fragment_takes (field_takes.map _)

theorem selection_looks : selection.Looks Known :=
  fun _ _ => .ite (fun _ => fragment_looks) fun _ => field_looks.map _

theorem selectionSet_takes : selectionSet.Takes := (oneOrMore_takes _ _).map _

theorem selectionSet_looks : selectionSet.Looks Known :=
  (oneOrMore_looks selection_looks selection_takes _ _).map _

/-! ### Definitions -/

theorem defaultValue_looks (c : ValueContext) : (defaultValue c).Looks Known :=
  ifNext_looks ((symbol_looks _).bind fun _ => nested_looks _)

theorem variableDefinition_takes : variableDefinition.Takes := var_takes.bind _

theorem variableDefinition_looks : variableDefinition.Looks Known :=
  var_looks.bind fun _ => (symbol_looks _).bind fun _ => (nested_looks _).bind fun _ =>
    (defaultValue_looks _).bind fun _ => trivial

theorem bareOperation_looks : bareOperation.Looks Known := (nested_looks _).bind fun _ => trivial

/-- The keyword of an operation is taken unseen, so it has to be seen before. -/
theorem namedOperation_looks (h : ∀ x, Known x → x.kind ≠ .endOfInput) :
    namedOperation.Looks Known := by
  refine (take_looks h).bind fun _ => (ifNext_looks name_looks).bind fun _ => ?_
  refine (ifNext_looks (oneOrMore_looks variableDefinition_looks variableDefinition_takes _ _)).bind
    fun _ => ?_
  exact directives_looks.bind fun _ => (nested_looks _).bind fun _ => trivial

theorem fragmentDefinition_looks : fragmentDefinition.Looks Known := by
  refine (keyword_looks _).bind fun _ => fragmentName_looks.bind fun _ => ?_
  refine (keyword_looks _).bind fun _ => name_looks.bind fun _ => ?_
  exact directives_looks.bind fun _ => (nested_looks _).bind fun _ => trivial

theorem inputValue_takes : inputValue.Takes := name_takes.bind _

theorem inputValue_looks : inputValue.Looks Known :=
  name_looks.bind fun _ => (symbol_looks _).bind fun _ => (nested_looks _).bind fun _ =>
    (defaultValue_looks _).bind fun _ => trivial

theorem fieldDefinition_takes : fieldDefinition.Takes := name_takes.bind _

theorem fieldDefinition_looks : fieldDefinition.Looks Known := by
  refine name_looks.bind fun _ => ?_
  refine (ifNext_looks (oneOrMore_looks inputValue_looks inputValue_takes _ _)).bind fun _ => ?_
  exact (symbol_looks _).bind fun _ => (nested_looks _).bind fun _ => trivial

theorem fields_looks : fields.Looks Known :=
  oneOrMore_looks fieldDefinition_looks fieldDefinition_takes _ _

theorem interfaces_looks : interfaces.Looks Known := by
  refine (ifNext_looks ?_).bind fun _ => trivial
  exact (keyword_looks _).bind fun _ => name_looks.bind fun _ =>
    (many_looks name_looks name_takes).bind fun _ => trivial

theorem objectType_looks : objectType.Looks Known :=
  (keyword_looks _).bind fun _ => name_looks.bind fun _ => interfaces_looks.bind fun _ =>
    fields_looks.bind fun _ => trivial

theorem interfaceType_looks : interfaceType.Looks Known :=
  (keyword_looks _).bind fun _ => name_looks.bind fun _ => fields_looks.bind fun _ => trivial

theorem unionType_looks : unionType.Looks Known := by
  refine (keyword_looks _).bind fun _ => name_looks.bind fun _ => (symbol_looks _).bind fun _ => ?_
  refine name_looks.bind fun _ => (many_looks ?_ ?_).bind fun _ => trivial
  · exact (symbol_looks _).bind fun _ => name_looks
  · exact (expect_takes _).bind _

theorem scalarType_looks : scalarType.Looks Known :=
  (keyword_looks _).bind fun _ => name_looks.bind fun _ => trivial

theorem enumType_looks : enumType.Looks Known :=
  (keyword_looks _).bind fun _ => name_looks.bind fun _ =>
    (oneOrMore_looks (name_looks.map _) (name_takes.map _) _ _).bind fun _ => trivial

theorem inputObjectType_looks : inputObjectType.Looks Known :=
  (keyword_looks _).bind fun _ => name_looks.bind fun _ =>
    (oneOrMore_looks inputValue_looks inputValue_takes _ _).bind fun _ => trivial

theorem typeExtension_looks : typeExtension.Looks Known :=
  (keyword_looks _).bind fun _ => objectType_looks.bind fun _ => trivial

theorem definition_takes : definition.Takes := by
  refine fun x => .ite trivial ?_
  split
  all_goals first | trivial | exact Takes.map ((keyword_takes _).bind _) _

theorem definition_looks : definition.Looks Known := by
  refine fun x _ => .ite (fun _ => bareOperation_looks.map _) fun _ => ?_
  -- A lexeme that opens a definition is a name.
  have hname {k : Keyword} (hx : x.definitionKeyword? = some k) :
      ∀ y, y = x → y.kind ≠ .endOfInput := by
    rintro _ rfl
    rw [Lexeme.definitionKeyword?] at hx
    split at hx
    · next hname => simp [hname]
    · cases hx
  split
  · next hx => exact (namedOperation_looks (hname hx)).map _
  · next hx => exact (namedOperation_looks (hname hx)).map _
  · next hx => exact (namedOperation_looks (hname hx)).map _
  · exact fragmentDefinition_looks.map _
  · exact objectType_looks.map _
  · exact interfaceType_looks.map _
  · exact unionType_looks.map _
  · exact scalarType_looks.map _
  · exact enumType_looks.map _
  · exact inputObjectType_looks.map _
  · exact typeExtension_looks.map _
  · trivial

/-- The rule for documents looks before it takes. -/
theorem document_looks : document.Looks Known :=
  definition_looks.bind fun _ =>
    (many_looks definition_looks definition_takes).bind fun _ => trivial

end Grammar

end Rule

/-- Values, types and selection sets are never empty. -/
theorem Nested.rule_takes (n : Nested) : n.rule.Takes :=
  match n with
  | value c => Rule.value_takes c
  | typeRef => Rule.typeRef_takes
  | selectionSet => Rule.selectionSet_takes

/-- The rules for values, types and selection sets look before they take. -/
theorem Nested.rule_looks {Known : Lexeme → Prop} (n : Nested) : n.rule.Looks Known :=
  match n with
  | value c => Rule.value_looks c
  | typeRef => Rule.typeRef_looks
  | selectionSet => Rule.selectionSet_looks

end GraphQL
