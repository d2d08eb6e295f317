/-
The rules for definitions and documents keep to their derivations.

* `Rule.definition_keeps` — definitions of every kind;
* `Rule.document_keeps` — whole documents.

Design notes: the keyword of an operation is taken before it is judged, so its
rule keeps to the grammar only where such a keyword is in view.  The rule for
definitions sees to that.
-/
import GraphQL.Proofs.Grammar.Soundness.Nested

namespace GraphQL

open Phrase

namespace Rule

variable {k : Reader} {b : Nat}

/-! ### Operations and fragments -/

theorem defaultValue_keeps (hk : k.Keeps b) (c : ValueContext) :
    (defaultValue c).Keeps k b (within (Default c) Value.depth).maybe := by
  refine (((Keeps.symbol .equals).bind fun _ => nested_keeps hk (.value c)).mono ?_).ifNext
  rintro m v w ⟨_, e, u, he, ⟨hv, hd⟩, rfl⟩
  exact ⟨.intro he hv, hd⟩

theorem variableDefinition_keeps (hk : k.Keeps b) :
    variableDefinition.Keeps k b (within VariableDefinition.Derives VariableDefinition.depth) := by
  refine (var_keeps.bind fun v => (Keeps.symbol .colon).bind fun _ =>
    (nested_keeps hk .typeRef).bind fun t =>
    (defaultValue_keeps hk .variableDefault).bind_pure (VariableDefinition.mk v t)).mono ?_
  rintro m d w ⟨v, wv, _, hv, ⟨_, s, _, hs, ⟨t, wt, _, ⟨ht, hdt⟩, ⟨d?, hd, rfl⟩, rfl⟩, rfl⟩, rfl⟩
  exact ⟨.intro hv hs ht hd.within.1, VariableDefinition.depth_le_iff.2 ⟨hdt, hd.within.2⟩⟩

theorem operationKind_eq_ok {x : Lexeme} {o : OperationKind} (hx : x.kind = .name)
    (h : operationKind x = .ok o) : Reserved o.keyword [x] := by
  rw [operationKind] at h
  split at h
  · next o' ho =>
    cases h
    obtain ⟨r, hr, hro⟩ := Option.bind_eq_some_iff.1 ho
    have : r = o.keyword := by
      cases r <;> simp [OperationKind.ofKeyword?] at hro <;> subst hro <;> rfl
    subst this
    exact .intro (Lexeme.isKeyword_iff.2 ⟨hx, hr⟩)
  · cases h

theorem operationKind_eq {x : Lexeme} {o : OperationKind} (h : x.isKeyword o.keyword = true) :
    operationKind x = .ok o := by
  rw [operationKind, (Lexeme.isKeyword_iff.1 h).2]
  cases o <;> rfl

theorem viable_operation :
    (within OperationDefinition.Derives OperationDefinition.depth).Viable [] := by
  obtain ⟨ss, w, m, h⟩ := viable_nested .selectionSet
  exact .of_derives (.bare (h m (Nat.le_refl m)).1)

theorem bareOperation_keeps (hk : k.Keeps b) :
    bareOperation.Keeps k b (within OperationDefinition.Derives OperationDefinition.depth) := by
  refine ((nested_keeps hk .selectionSet).bind_pure fun ss =>
    OperationDefinition.mk .query none [] [] ss).mono ?_
  rintro m o w ⟨ss, ⟨hs, hd⟩, rfl⟩
  exact ⟨.bare hs, OperationDefinition.depth_le_iff.2 ⟨by simp, by simp, hd⟩⟩

/-- Reads what follows the keyword of an operation. -/
def operationBody (o : OperationKind) : Rule OperationDefinition := do
  let title ← ifNext (Lexeme.hasKind .name) name
  let declared ← ifNext (Lexeme.hasKind Punctuator.parenOpen)
    (oneOrMore .parenOpen variableDefinition .parenClose)
  let marks ← directives
  return ⟨o, title, declared.getD [], marks, ← nested .selectionSet⟩

theorem namedOperation_eq : namedOperation = take operationKind done >>= operationBody := rfl

theorem namedOperation_keeps (hk : k.Keeps b) {ws : List Lexeme} {o : OperationKind}
    (hx : (front ws).isKeyword o.keyword = true) :
    (namedOperation.read k ws).Keeps (within OperationDefinition.Derives OperationDefinition.depth)
      b ws := by
  have hkind : (flat fun o : OperationKind => Reserved o.keyword).Viable [] :=
    ⟨.query, [.ofName "query"], 0, fun _ _ => .intro rfl⟩
  have hbody (o : OperationKind) : Rule.Keeps k b (operationBody o) _ :=
    name_keeps.ifNext.bind fun n? =>
      ((variableDefinition_keeps hk).oneOrMore .parenOpen .parenClose).ifNext.bind fun vs? =>
      (directives_keeps hk).bind fun ds => (nested_keeps hk .selectionSet).bind_pure
        (OperationDefinition.mk o n? (vs?.getD []) ds)
  -- The keyword tells the kind, so it is judged while its lexeme is in view.
  rw [namedOperation_eq, read_bind, read_take_done]
  have hname := (Lexeme.isKeyword_iff.1 hx).1
  refine ((Reader.take_keeps hkind (fun o ho m _ => operationKind_eq_ok hname ho)
    fun r hr => by rw [operationKind_eq hx] at hr; cases hr).andThen
    (fun o => (hbody o).viable) fun o rest => (hbody o).read rest).mono ?_
  rintro m d w ⟨o, wo, _, ho, ⟨n?, wn, _, hn, ⟨vs?, wv, _, hv, ⟨ds, wd, ws, hd,
    ⟨ss, ⟨hs, hds⟩, rfl⟩, rfl⟩, rfl⟩, rfl⟩, rfl⟩
  obtain ⟨hv, hdv⟩ := Parenthesized.of_maybe hv
  exact ⟨.keyword ho hn hv hd.within.1 hs,
    OperationDefinition.depth_le_iff.2 ⟨hdv, hd.within.2, hds⟩⟩

theorem fragmentDefinition_keeps (hk : k.Keeps b) :
    fragmentDefinition.Keeps k b (within FragmentDefinition.Derives FragmentDefinition.depth) := by
  refine ((Keeps.keyword .fragment).bind fun _ => fragmentName_keeps.bind fun n =>
    (Keeps.keyword .on).bind fun _ => name_keeps.bind fun t => (directives_keeps hk).bind fun ds =>
    (nested_keeps hk .selectionSet).bind_pure (FragmentDefinition.mk n t ds)).mono ?_
  rintro m d w ⟨_, wk, _, hw, ⟨n, wn, _, hn, ⟨_, o, _, ho, ⟨t, wt, _, ht, ⟨ds, wd, ws, hd,
    ⟨ss, ⟨hs, hds⟩, rfl⟩, rfl⟩, rfl⟩, rfl⟩, rfl⟩, rfl⟩
  have h := FragmentDefinition.Derives.intro hw hn (.intro ho ht) hd.within.1 hs
  refine ⟨?_, FragmentDefinition.depth_le_iff.2 ⟨hd.within.2, hds⟩⟩
  simpa only [List.append_assoc] using h

/-! ### Types -/

theorem inputValue_keeps (hk : k.Keeps b) :
    inputValue.Keeps k b (within InputValueDefinition.Derives InputValueDefinition.depth) := by
  refine (name_keeps.bind fun n => (Keeps.symbol .colon).bind fun _ =>
    (nested_keeps hk .typeRef).bind fun t =>
    (defaultValue_keeps hk .inputDefault).bind_pure (InputValueDefinition.mk n t)).mono ?_
  rintro m d w ⟨n, wn, _, hn, ⟨_, s, _, hs, ⟨t, wt, _, ⟨ht, hdt⟩, ⟨d?, hd, rfl⟩, rfl⟩, rfl⟩, rfl⟩
  exact ⟨.intro hn hs ht hd.within.1, InputValueDefinition.depth_le_iff.2 ⟨hdt, hd.within.2⟩⟩

theorem fieldDefinition_keeps (hk : k.Keeps b) :
    fieldDefinition.Keeps k b (within FieldDefinition.Derives FieldDefinition.depth) := by
  refine (name_keeps.bind fun n =>
    ((inputValue_keeps hk).oneOrMore .parenOpen .parenClose).ifNext.bind fun as? =>
    (Keeps.symbol .colon).bind fun _ => (nested_keeps hk .typeRef).bind_pure fun t =>
      FieldDefinition.mk n (as?.getD []) t).mono ?_
  rintro m d w ⟨n, wn, _, hn, ⟨as?, wa, _, ha, ⟨_, s, _, hs, ⟨t, ⟨ht, hdt⟩, rfl⟩, rfl⟩, rfl⟩, rfl⟩
  obtain ⟨ha, hda⟩ := Parenthesized.of_maybe ha
  exact ⟨.intro hn ha hs ht, FieldDefinition.depth_le_iff.2 ⟨hda, hdt⟩⟩

theorem fields_keeps (hk : k.Keeps b) : fields.Keeps k b (within FieldBlock fieldsDepth) := by
  refine ((fieldDefinition_keeps hk).oneOrMore .braceOpen .braceClose).mono ?_
  intro m fs w h
  exact ⟨h.within.1, fieldsDepth_le_iff.2 h.within.2⟩

theorem interfaces_keeps : interfaces.Keeps k b (flat Interfaces) := by
  refine (((Keeps.keyword .implements).bind fun _ => name_keeps.bind fun n =>
    name_keeps.many.bind_pure fun ns => n :: ns).ifNext.bind_pure (Option.getD · [])).mono ?_
  rintro m ns w ⟨o, ho, rfl⟩
  cases ho with
  | none => exact .none
  | some h =>
    obtain ⟨_, wk, _, hw, ⟨n, wn, _, hn, ⟨ns, hns, rfl⟩, rfl⟩, rfl⟩ := h
    exact .some hw (.cons hn hns) (by simp)

theorem objectType_keeps (hk : k.Keeps b) :
    objectType.Keeps k b (within ObjectType.Derives fun t => fieldsDepth t.fields) := by
  refine ((Keeps.keyword .type).bind fun _ => name_keeps.bind fun n =>
    interfaces_keeps.bind fun is => (fields_keeps hk).bind_pure (ObjectType.mk n is)).mono ?_
  rintro m t w ⟨_, wk, _, hw, ⟨n, wn, _, hn, ⟨is, wi, _, hi, ⟨fs, ⟨hf, hd⟩, rfl⟩, rfl⟩, rfl⟩, rfl⟩
  exact ⟨.intro hw hn hi hf, hd⟩

/-- The spellings of type definitions of one kind. -/
def defining {α : Type} (kind : α → TypeDefinition) : Phrase α :=
  fun m t w => (kind t).Derives w ∧ (kind t).depth ≤ m

theorem interfaceType_keeps (hk : k.Keeps b) :
    interfaceType.Keeps k b (defining .interface) := by
  refine ((Keeps.keyword .interface).bind fun _ => name_keeps.bind fun n =>
    (fields_keeps hk).bind_pure (InterfaceType.mk n)).mono ?_
  rintro m t w ⟨_, wk, _, hw, ⟨n, wn, _, hn, ⟨fs, ⟨hf, hd⟩, rfl⟩, rfl⟩, rfl⟩
  exact ⟨.interface hw hn hf, hd⟩

theorem unionType_keeps :
    unionType.Keeps k b (defining .union) := by
  refine ((Keeps.keyword .union).bind fun _ => name_keeps.bind fun n =>
    (Keeps.symbol .equals).bind fun _ => name_keeps.bind fun first =>
    ((Keeps.symbol .pipe).bind fun _ => name_keeps).many.bind_pure fun others =>
      UnionType.mk n (first :: others)).mono ?_
  rintro m t w ⟨_, wk, _, hw, ⟨n, wn, _, hn, ⟨_, e, _, he, ⟨first, wf, _, hf,
    ⟨others, ho, rfl⟩, rfl⟩, rfl⟩, rfl⟩, rfl⟩
  have ho : Many Alternative others _ := ho.mono fun n w ⟨_, p, u, hp, hn, hw⟩ =>
    hw ▸ .intro hp hn
  exact ⟨.union hw hn he hf ho, Nat.zero_le m⟩

theorem scalarType_keeps :
    scalarType.Keeps k b (defining .scalar) := by
  refine ((Keeps.keyword .scalar).bind fun _ => name_keeps.bind_pure ScalarType.mk).mono ?_
  rintro m t w ⟨_, wk, _, hw, ⟨n, hn, rfl⟩, rfl⟩
  exact ⟨.scalar hw hn, Nat.zero_le m⟩

theorem enumType_keeps :
    enumType.Keeps k b (defining .enum) := by
  have hitem : (EnumValueDefinition.mk <$> name).Keeps k b (flat EnumValueDefinition.Derives) := by
    refine (name_keeps.map EnumValueDefinition.mk).mono ?_
    rintro m d w ⟨n, hn, rfl⟩
    exact hn
  refine ((Keeps.keyword .enum).bind fun _ => name_keeps.bind fun n =>
    (hitem.oneOrMore .braceOpen .braceClose).bind_pure (EnumType.mk n)).mono ?_
  rintro m t w ⟨_, wk, _, hw, ⟨n, wn, _, hn, ⟨vs, hv, rfl⟩, rfl⟩, rfl⟩
  exact ⟨.enum hw hn hv, Nat.zero_le m⟩

theorem inputObjectType_keeps (hk : k.Keeps b) :
    inputObjectType.Keeps k b (defining .inputObject) := by
  have hfields := (inputValue_keeps hk).oneOrMore .braceOpen .braceClose
  refine ((Keeps.keyword .input).bind fun _ => name_keeps.bind fun n =>
    hfields.bind_pure (InputObjectType.mk n)).mono ?_
  rintro m t w ⟨_, wk, _, hw, ⟨n, wn, _, hn, ⟨fs, hf, rfl⟩, rfl⟩, rfl⟩
  exact ⟨.inputObject hw hn hf.within.1, TypeDefinition.depth_inputObject_le_iff.2 hf.within.2⟩

theorem typeExtension_keeps (hk : k.Keeps b) :
    (Definition.extension <$> typeExtension).Keeps k b
      (within Definition.Derives Definition.depth) := by
  refine (((Keeps.keyword .extend).bind fun _ =>
    (objectType_keeps hk).bind_pure TypeExtension.mk).map Definition.extension).mono ?_
  rintro m t w ⟨_, ⟨_, wk, _, hw, ⟨t, ⟨ht, hd⟩, rfl⟩, rfl⟩, rfl⟩
  exact ⟨.extension hw ht, hd⟩

/-! ### Documents -/

theorem definition_keeps (hk : k.Keeps b) :
    definition.Keeps k b (within Definition.Derives Definition.depth) := by
  have hp : (within Definition.Derives Definition.depth).Viable [] := by
    obtain ⟨o, w, m, h⟩ := viable_operation
    exact .of_derives (.operation (h m (Nat.le_refl m)).1)
  have hkeyword {x : Lexeme} {r : Keyword} (h : x.definitionKeyword? = some r) :
      x.isKeyword r = true := by
    rw [Lexeme.definitionKeyword?] at h
    split at h
    · next hx =>
      obtain ⟨text, hv, ht⟩ := Option.bind_eq_some_iff.1 h
      obtain ⟨ht, _⟩ := Option.filter_eq_some_iff.1 ht
      exact Lexeme.isKeyword_iff.2 ⟨hx, Option.bind_eq_some_iff.2 ⟨text, hv, ht⟩⟩
    · cases h
  -- Three keywords open operations and six open types; each group has one argument.
  have hoperation {ws : List Lexeme}
      (h : (namedOperation.read k ws).Keeps
        (within OperationDefinition.Derives OperationDefinition.depth) b ws) :
      ((Definition.operation <$> namedOperation).read k ws).Keeps
        (within Definition.Derives Definition.depth) b ws := by
    refine (h.read_map Definition.operation).mono ?_
    rintro m d w ⟨o, ho, rfl⟩
    exact ⟨.operation ho.1, ho.2⟩
  have htype {α : Type} {kind : α → TypeDefinition} {r : Rule α} (h : r.Keeps k b (defining kind)) :
      ((Definition.type ∘ kind) <$> r).Keeps k b (within Definition.Derives Definition.depth) := by
    refine (h.map (Definition.type ∘ kind)).mono ?_
    rintro m d w ⟨t, ht, rfl⟩
    exact ⟨.type ht.1, ht.2⟩
  refine ⟨hp, fun ws => ?_⟩
  rw [definition, Rule.read]
  split
  · refine (((bareOperation_keeps hk).map Definition.operation).mono ?_).read ws
    rintro m d w ⟨o, ho, rfl⟩
    exact ⟨.operation ho.1, ho.2⟩
  · split
    · next h => exact hoperation (namedOperation_keeps (o := .query) hk (hkeyword h))
    · next h => exact hoperation (namedOperation_keeps (o := .mutation) hk (hkeyword h))
    · next h => exact hoperation (namedOperation_keeps (o := .subscription) hk (hkeyword h))
    · refine (((fragmentDefinition_keeps hk).map Definition.fragment).mono ?_).read ws
      rintro m d w ⟨f, hf, rfl⟩
      exact ⟨.fragment hf.1, hf.2⟩
    · exact (htype ((objectType_keeps hk).mono fun m t w h => ⟨.object h.1, h.2⟩)).read ws
    · exact (htype (interfaceType_keeps hk)).read ws
    · exact (htype unionType_keeps).read ws
    · exact (htype scalarType_keeps).read ws
    · exact (htype enumType_keeps).read ws
    · exact (htype (inputObjectType_keeps hk)).read ws
    · exact (typeExtension_keeps hk).read ws
    · exact ⟨[], rfl, hp⟩

theorem document_keeps (hk : k.Keeps b) :
    document.Keeps k b (within Document.Derives Document.depth) := by
  refine ((definition_keeps hk).bind fun d =>
    (definition_keeps hk).many.bind_pure fun ds => Document.mk (d :: ds)).mono ?_
  rintro m doc w ⟨d, u, _, ⟨hd, hdd⟩, ⟨ds, hds, rfl⟩, rfl⟩
  refine ⟨.intro (.cons hd hds.within.1) (by simp), Document.depth_le_iff.2 ?_⟩
  simpa using ⟨hdd, hds.within.2⟩

end Rule

end GraphQL
