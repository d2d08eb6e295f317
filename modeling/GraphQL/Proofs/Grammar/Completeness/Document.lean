/-
The rules for definitions and documents find their derivations.

* `Rule.read_definition` — definitions of every kind;
* `Rule.read_document` — whole documents, up to the end of the input.

Design notes: only an alternative of a union could be taken for more of the
definition in front of it.
-/
import GraphQL.Proofs.Grammar.Completeness.Nested
import GraphQL.Proofs.Grammar.Soundness.Document

namespace GraphQL

open Phrase

/-! ### Where spellings start -/

section Opens

variable {w : List Lexeme}

theorem Default.opens {c : ValueContext} {v : Value} (h : Default c v w) :
    Opens [.punctuator .equals] w := by
  obtain ⟨he, _⟩ := h
  exact he.opens.append _

theorem VariableDefinition.Derives.opens {d : VariableDefinition} (h : d.Derives w) :
    Opens [.punctuator .dollar] w := by
  obtain ⟨⟨hd, _⟩, _, _, _⟩ := h
  exact (hd.opens.append _).append _

theorem InputValueDefinition.Derives.opens {d : InputValueDefinition} (h : d.Derives w) :
    Opens [.name] w := by
  obtain ⟨hn, _, _, _⟩ := h
  exact Opens.append (Terminal.opens hn) _

theorem FieldDefinition.Derives.opens {d : FieldDefinition} (h : d.Derives w) :
    Opens [.name] w := by
  obtain ⟨hn, _, _, _⟩ := h
  exact Opens.append (Terminal.opens hn) _

theorem Alternative.opens {n : Name} (h : Alternative n w) : Opens [.punctuator .pipe] w := by
  obtain ⟨hp, _⟩ := h
  exact hp.opens.append _

theorem ObjectType.Derives.opens {t : ObjectType} (h : t.Derives w) : Opens [.name] w := by
  obtain ⟨hk, _, _, _⟩ := h
  exact hk.opens.append _

theorem TypeDefinition.Derives.opens {d : TypeDefinition} (h : d.Derives w) : Opens [.name] w := by
  cases h with
  | scalar hk _ | interface hk _ _ | union hk _ _ _ _ | enum hk _ _ | inputObject hk _ _ =>
    exact hk.opens.append _
  | object h => exact h.opens

theorem Definition.Derives.opens {d : Definition} (h : d.Derives w) :
    Opens [.punctuator .braceOpen, .name] w := by
  cases h with
  | operation h =>
    cases h with
    | bare h => exact h.opens.mono (by decide)
    | keyword hk _ _ _ _ => exact (hk.opens.append _).mono (by decide)
  | fragment h =>
    obtain ⟨hk, _, _, _, _⟩ := h
    exact (hk.opens.append _).mono (by decide)
  | type h => exact h.opens.mono (by decide)
  | extension hk _ => exact (hk.opens.append _).mono (by decide)

end Opens

/-- A keyword in view tells which definition it opens. -/
theorem Reserved.definitionKeyword? {r : Keyword} {w : List Lexeme} (h : Reserved r w)
    (hr : r.opensDefinition = true) (rest : List Lexeme) :
    (front (w ++ rest)).definitionKeyword? = some r := by
  obtain ⟨hx⟩ := h
  obtain ⟨hn, ht⟩ := Lexeme.isKeyword_iff.1 hx
  obtain ⟨text, hv, hk⟩ := Option.bind_eq_some_iff.1 ht
  simp [Lexeme.definitionKeyword?, hn, hv, Keyword.definitionOfText?, hk, hr]

namespace Rule

variable {k : Reader} {b : Nat} {w : List Lexeme}

/-! ### Operations and fragments -/

theorem read_defaultValue (hk : k.Covers b) {c : ValueContext} {d? : Option Value}
    (h : Maybe (Default c) d? w) (hd : optionalDepth Value.depth d? ≤ b) {rest : List Lexeme}
    (hrest : Avoids [.punctuator .equals] rest) :
    (defaultValue c).read k (w ++ rest) = .accept d? rest := by
  refine read_ifNext (h.bounded hd) (fun v w h => h.1.opens) (fun v w h => ?_) hrest
  obtain ⟨⟨he, hv⟩, hd⟩ := h
  rw [List.append_assoc, read_symbol_bind hk.goesOn he]
  exact read_nested_value hk hv hd rest

/-- A type and what it falls back on, which is found by its equals sign. -/
theorem read_typed (hk : k.Covers b) {α : Type} {c : ValueContext} {t : TypeRef}
    {d? : Option Value} {wt wd rest : List Lexeme} (ht : t.Derives wt)
    (h : Maybe (Default c) d? wd) (hdt : t.depth ≤ b) (hd : optionalDepth Value.depth d? ≤ b)
    (hrest : Avoids [.punctuator .bang, .punctuator .equals] rest)
    (f : TypeRef → Option Value → α) :
    (nested .typeRef >>= fun t => defaultValue c >>= fun d? => pure (f t d?)).read k
      (wt ++ (wd ++ rest)) = .accept (f t d?) rest := by
  have hdefault : Avoids [.punctuator .bang] (wd ++ rest) :=
    (h.mayOpen fun _ _ h => h.opens).avoids (by decide) (hrest.mono (by decide))
  rw [read_bind_accept (read_nested_typeRef hk ht hdt hdefault),
    read_bind_accept (read_defaultValue hk h hd (hrest.mono (by decide)))]
  rfl

theorem read_variableDefinition (hk : k.Covers b) {d : VariableDefinition} (h : d.Derives w)
    (hd : d.depth ≤ b) {rest : List Lexeme}
    (hrest : Avoids [.punctuator .bang, .punctuator .equals] rest) :
    variableDefinition.read k (w ++ rest) = .accept d rest := by
  obtain ⟨hv, hs, ht, hdef⟩ := h
  obtain ⟨hdt, hdd⟩ := VariableDefinition.depth_le_iff.1 hd
  simp only [List.append_assoc]
  rw [variableDefinition, read_bind_accept (read_var hk hv _), read_symbol_bind hk.goesOn hs]
  exact read_typed hk ht hdef hdt hdd hrest (VariableDefinition.mk _)

theorem read_operationBody (hk : k.Covers b) {o : OperationKind} {n? : Option Name}
    {vs : List VariableDefinition} {ds : List Directive} {ss : SelectionSet}
    {wn wv wd ws : List Lexeme} (hn : Maybe Name.Derives n? wn)
    (hv : Parenthesized VariableDefinition.Derives vs wv) (hm : Many Directive.Derives ds wd)
    (hs : ss.Derives ws) (hd : OperationDefinition.depth ⟨o, n?, vs, ds, ss⟩ ≤ b)
    (rest : List Lexeme) :
    (operationBody o).read k (wn ++ (wv ++ (wd ++ (ws ++ rest)))) =
      .accept ⟨o, n?, vs, ds, ss⟩ rest := by
  obtain ⟨hdv, hdm, hds⟩ := OperationDefinition.depth_le_iff.1 hd
  -- From the back to the front: no part starts like one that may be missing before it.
  have hset : Avoids [.name, .punctuator .parenOpen, .punctuator .atSign] (ws ++ rest) :=
    hs.opens.avoids (by decide)
  have hmarks : Avoids [.name, .punctuator .parenOpen] (wd ++ (ws ++ rest)) :=
    (hm.mayOpen fun _ _ h => h.opens).avoids (by decide) (hset.mono (by decide))
  have hvars : Avoids [.name] (wv ++ (wd ++ (ws ++ rest))) :=
    hv.mayOpen.avoids (by decide) (hmarks.mono (by decide))
  obtain ⟨vs?, hread, rfl⟩ := read_parenthesized hk.goesOn (fun d w h => h.1.opens)
    (fun d w rest h hrest => read_variableDefinition hk h.1 h.2 hrest) (by decide) (by decide)
    (hv.bounded hdv) (hmarks.mono (by decide))
  rw [operationBody, read_bind_accept (read_ifNext hn (fun _ _ h => Terminal.opens h)
      (fun _ _ h => read_name hk.goesOn h _) hvars), read_bind_accept hread,
    read_bind_accept (read_directives hk hm hdm (hset.mono (by decide))),
    read_bind_accept (read_nested_selectionSet hk hs hds rest)]
  rfl

theorem read_fragmentDefinition (hk : k.Covers b) {d : FragmentDefinition} (h : d.Derives w)
    (hd : d.depth ≤ b) (rest : List Lexeme) :
    fragmentDefinition.read k (w ++ rest) = .accept d rest := by
  obtain ⟨hw, hn, ⟨ho, ht⟩, hm, hs⟩ := h
  obtain ⟨hdm, hds⟩ := FragmentDefinition.depth_le_iff.1 hd
  simp only [List.append_assoc]
  rw [fragmentDefinition, read_keyword_bind hk.goesOn hw,
    read_bind_accept (read_fragmentName hk hn _), read_keyword_bind hk.goesOn ho,
    read_name_bind hk.goesOn ht,
    read_bind_accept (read_directives hk hm hdm (hs.opens.avoids (by decide))),
    read_bind_accept (read_nested_selectionSet hk hs hds rest)]
  rfl

/-! ### Types -/

theorem read_inputValue (hk : k.Covers b) {d : InputValueDefinition} (h : d.Derives w)
    (hd : d.depth ≤ b) {rest : List Lexeme}
    (hrest : Avoids [.punctuator .bang, .punctuator .equals] rest) :
    inputValue.read k (w ++ rest) = .accept d rest := by
  obtain ⟨hn, hs, ht, hdef⟩ := h
  obtain ⟨hdt, hdd⟩ := InputValueDefinition.depth_le_iff.1 hd
  simp only [List.append_assoc]
  rw [inputValue, read_name_bind hk.goesOn hn, read_symbol_bind hk.goesOn hs]
  exact read_typed hk ht hdef hdt hdd hrest (InputValueDefinition.mk _)

theorem read_fieldDefinition (hk : k.Covers b) {d : FieldDefinition} (h : d.Derives w)
    (hd : d.depth ≤ b) {rest : List Lexeme} (hrest : Avoids [.punctuator .bang] rest) :
    fieldDefinition.read k (w ++ rest) = .accept d rest := by
  obtain ⟨hn, ha, hs, ht⟩ := h
  obtain ⟨hda, hdt⟩ := FieldDefinition.depth_le_iff.1 hd
  obtain ⟨as?, hread, rfl⟩ := read_parenthesized hk.goesOn (fun d w h => h.1.opens)
    (fun d w rest h hrest => read_inputValue hk h.1 h.2 hrest) (by decide) (by decide)
    (ha.bounded hda) (hs.opens.avoids (by decide))
  simp only [List.append_assoc]
  rw [fieldDefinition, read_name_bind hk.goesOn hn, read_bind_accept hread,
    read_symbol_bind hk.goesOn hs, read_bind_accept (read_nested_typeRef hk ht hdt hrest)]
  rfl

theorem read_fields (hk : k.Covers b) {fs : List FieldDefinition} (h : FieldBlock fs w)
    (hd : fieldsDepth fs ≤ b) (rest : List Lexeme) :
    fields.read k (w ++ rest) = .accept fs rest :=
  read_oneOrMore hk.goesOn (fun d w h => h.1.opens)
    (fun d w rest h hrest => read_fieldDefinition hk h.1 h.2 hrest) (by decide) (by decide)
    (h.bounded (fieldsDepth_le_iff.1 hd)) rest

/-- The interfaces of an object type end where its fields start. -/
theorem read_interfaces (hk : k.Covers b) {is : List Name} (h : Interfaces is w)
    {rest : List Lexeme} (hrest : (front rest).kind = .punctuator .braceOpen) :
    interfaces.read k (w ++ rest) = .accept is rest := by
  rw [interfaces]
  cases h with
  | none =>
    have hno : Lexeme.isKeyword .implements (front ([] ++ rest)) = false := by
      rw [← Bool.not_eq_true, List.nil_append, Lexeme.isKeyword_iff, hrest]
      simp
    rw [read_bind_accept (read_ifNext_none hno _)]
    rfl
  | some hw h hne =>
    cases h with
    | nil => exact absurd rfl hne
    | @cons n ns wn ws hn hs =>
      obtain ⟨hx⟩ := hw
      -- The names go on up to the brace, so nothing else can stop them.
      have hothers : (many (!Lexeme.hasKind Punctuator.braceOpen ·) name done).read k (ws ++ rest) =
          .accept ns rest := by
        refine read_many (F := [.name]) (S := []) (fun _ _ h => Terminal.opens h) (fun x hx => ?_)
          (fun n w rest h _ => read_name hk.goesOn h rest) (by decide) hs ?_ (by simp [Avoids])
        · simp [Lexeme.hasKind, List.mem_singleton.1 hx]
        · simp [Lexeme.hasKind, hrest]
      rw [read_bind_accept (read_ifNext_some hx (by
        rw [List.append_assoc, read_keyword_bind hk.goesOn (.intro hx), List.append_assoc,
          read_name_bind hk.goesOn hn, read_bind_accept hothers]
        rfl))]
      rfl

theorem read_objectType (hk : k.Covers b) {t : ObjectType} (h : t.Derives w)
    (hd : fieldsDepth t.fields ≤ b) (rest : List Lexeme) :
    objectType.read k (w ++ rest) = .accept t rest := by
  obtain ⟨hw, hn, hi, hf⟩ := h
  have hbrace := List.mem_singleton.1 (hf.opens.append rest).front_mem
  simp only [List.append_assoc]
  rw [objectType, read_keyword_bind hk.goesOn hw, read_name_bind hk.goesOn hn,
    read_bind_accept (read_interfaces hk hi hbrace), read_bind_accept (read_fields hk hf hd rest)]
  rfl

theorem read_interfaceType (hk : k.Covers b) {n : Name} {fs : List FieldDefinition}
    {wk wn wf : List Lexeme} (hw : Reserved .interface wk) (hn : n.Derives wn)
    (hf : FieldBlock fs wf) (hd : fieldsDepth fs ≤ b) (rest : List Lexeme) :
    interfaceType.read k (wk ++ (wn ++ wf) ++ rest) = .accept ⟨n, fs⟩ rest := by
  simp only [List.append_assoc]
  rw [interfaceType, read_keyword_bind hk.goesOn hw, read_name_bind hk.goesOn hn,
    read_bind_accept (read_fields hk hf hd rest)]
  rfl

theorem read_unionType (hk : k.Covers b) {n m : Name} {ms : List Name}
    {wk wn e wm ws : List Lexeme} (hw : Reserved .union wk) (hn : n.Derives wn)
    (he : Symbol .equals e) (hm : m.Derives wm) (hs : Many Alternative ms ws) {rest : List Lexeme}
    (hrest : Avoids [.punctuator .pipe] rest) :
    unionType.read k (wk ++ (wn ++ (e ++ (wm ++ ws))) ++ rest) = .accept ⟨n, m :: ms⟩ rest := by
  have hothers : (many (Lexeme.hasKind Punctuator.pipe)
      (expect Punctuator.pipe >>= fun _ => name) done).read k (ws ++ rest) = .accept ms rest := by
    refine read_many (S := []) (fun _ _ h => Alternative.opens h) (fun x hx => ?_)
      (fun m w rest h _ => ?_) (by decide) hs (hrest.hasKind (by simp)) (by simp [Avoids])
    · simpa [Lexeme.hasKind] using hx
    · obtain ⟨hp, hm⟩ := h
      rw [List.append_assoc, read_symbol_bind hk.goesOn hp]
      exact read_name hk.goesOn hm rest
  simp only [List.append_assoc]
  rw [unionType, read_keyword_bind hk.goesOn hw, read_name_bind hk.goesOn hn,
    read_symbol_bind hk.goesOn he, read_name_bind hk.goesOn hm, read_bind_accept hothers]
  rfl

theorem read_scalarType (hk : k.Covers b) {n : Name} {wk wn : List Lexeme}
    (hw : Reserved .scalar wk) (hn : n.Derives wn) (rest : List Lexeme) :
    scalarType.read k (wk ++ wn ++ rest) = .accept ⟨n⟩ rest := by
  rw [scalarType, List.append_assoc, read_keyword_bind hk.goesOn hw, read_name_bind hk.goesOn hn]
  rfl

theorem read_enumType (hk : k.Covers b) {n : Name} {vs : List EnumValueDefinition}
    {wk wn wv : List Lexeme} (hw : Reserved .enum wk) (hn : n.Derives wn)
    (hv : Enclosed .braceOpen EnumValueDefinition.Derives .braceClose vs wv) (rest : List Lexeme) :
    enumType.read k (wk ++ (wn ++ wv) ++ rest) = .accept ⟨n, vs⟩ rest := by
  have hvalues : (oneOrMore .braceOpen (EnumValueDefinition.mk <$> name) .braceClose).read k
      (wv ++ rest) = .accept vs rest :=
    read_oneOrMore hk.goesOn (F := [.name]) (S := []) (fun d w h => Terminal.opens h)
      (fun d w rest h _ => read_map_accept (read_name hk.goesOn h rest) EnumValueDefinition.mk)
      (by decide) (by decide) hv rest
  simp only [List.append_assoc]
  rw [enumType, read_keyword_bind hk.goesOn hw, read_name_bind hk.goesOn hn,
    read_bind_accept hvalues]
  rfl

theorem read_inputObjectType (hk : k.Covers b) {n : Name} {fs : List InputValueDefinition}
    {wk wn wf : List Lexeme} (hw : Reserved .input wk) (hn : n.Derives wn)
    (hf : Enclosed .braceOpen InputValueDefinition.Derives .braceClose fs wf)
    (hd : ∀ f ∈ fs, f.depth ≤ b) (rest : List Lexeme) :
    inputObjectType.read k (wk ++ (wn ++ wf) ++ rest) = .accept ⟨n, fs⟩ rest := by
  have hfields := read_oneOrMore hk.goesOn (fun d w h => h.1.opens)
    (fun d w rest h hrest => read_inputValue hk h.1 h.2 hrest) (by decide) (by decide)
    (hf.bounded hd) rest
  simp only [List.append_assoc]
  rw [inputObjectType, read_keyword_bind hk.goesOn hw, read_name_bind hk.goesOn hn,
    read_bind_accept hfields]
  rfl

/-! ### Documents -/

/-- Reads a definition that a keyword opens. -/
def openedBy : Option Keyword → Rule Definition
  | some .query | some .mutation | some .subscription => Definition.operation <$> namedOperation
  | some .fragment => Definition.fragment <$> fragmentDefinition
  | some .type => (Definition.type ∘ TypeDefinition.object) <$> objectType
  | some .interface => (Definition.type ∘ TypeDefinition.interface) <$> interfaceType
  | some .union => (Definition.type ∘ TypeDefinition.union) <$> unionType
  | some .scalar => (Definition.type ∘ TypeDefinition.scalar) <$> scalarType
  | some .enum => (Definition.type ∘ TypeDefinition.enum) <$> enumType
  | some .input => (Definition.type ∘ TypeDefinition.inputObject) <$> inputObjectType
  | some .extend => Definition.extension <$> typeExtension
  | _ => refuse (.unexpected [])

theorem definition_eq :
    definition = look fun x =>
      if x.hasKind Punctuator.braceOpen then Definition.operation <$> bareOperation
      else openedBy x.definitionKeyword? := rfl

/-- The keyword in view decides how a definition is read. -/
theorem read_definition_opened {r : Keyword} {wk u rest : List Lexeme} (hw : Reserved r wk)
    (hr : r.opensDefinition = true) :
    definition.read k (wk ++ u ++ rest) = (openedBy (some r)).read k (wk ++ u ++ rest) := by
  have hbrace : Avoids [.punctuator .braceOpen] (wk ++ (u ++ rest)) := hw.opens.avoids (by decide)
  rw [List.append_assoc, definition_eq, read, hbrace.hasKind (by simp), if_neg (by simp),
    hw.definitionKeyword? hr (u ++ rest)]

theorem read_operation (hk : k.Covers b) {o : OperationDefinition} (h : o.Derives w)
    (hd : o.depth ≤ b) (rest : List Lexeme) :
    definition.read k (w ++ rest) = .accept (.operation o) rest := by
  cases h with
  | bare h =>
    have hset := read_nested_selectionSet hk h (OperationDefinition.depth_le_iff.1 hd).2.2 rest
    rw [definition_eq, read, if_pos (h.opens.hasKind rest)]
    refine read_map_accept ?_ Definition.operation
    rw [bareOperation, read_bind_accept hset]
    rfl
  | @keyword o n? vs ds ss wk wn wv wd ws hw hn hv hm hs =>
    have hbody := read_operationBody hk hn hv hm hs hd rest
    have hopen : openedBy (some o.keyword) = Definition.operation <$> namedOperation := by
      cases o <;> rfl
    have hopens : o.keyword.opensDefinition = true := by cases o <;> rfl
    rw [read_definition_opened hw hopens, hopen]
    simp only [List.append_assoc]
    obtain ⟨hx⟩ := hw
    have hkind := read_lexeme hk.goesOn (by simp [(Lexeme.isKeyword_iff.1 hx).1])
      operationKind (operationKind_eq hx) (wn ++ (wv ++ (wd ++ (ws ++ rest))))
    refine read_map_accept ?_ Definition.operation
    rw [namedOperation_eq, read_bind_accept hkind, hbody]

theorem read_typeDefinition (hk : k.Covers b) {d : TypeDefinition} (h : d.Derives w)
    (hd : d.depth ≤ b) {rest : List Lexeme} (hrest : Avoids [.punctuator .pipe] rest) :
    definition.read k (w ++ rest) = .accept (.type d) rest := by
  cases h with
  | scalar hw hn =>
    rw [read_definition_opened hw rfl]
    exact read_map_accept (read_scalarType hk hw hn rest) (Definition.type ∘ .scalar)
  | object h =>
    have hread := read_objectType hk h hd rest
    obtain ⟨hw, hn, hi, hf⟩ := h
    rw [read_definition_opened hw rfl]
    exact read_map_accept hread (Definition.type ∘ .object)
  | interface hw hn hf =>
    rw [read_definition_opened hw rfl]
    exact read_map_accept (read_interfaceType hk hw hn hf hd rest) (Definition.type ∘ .interface)
  | union hw hn he hm hs =>
    rw [read_definition_opened hw rfl]
    exact read_map_accept (read_unionType hk hw hn he hm hs hrest) (Definition.type ∘ .union)
  | enum hw hn hv =>
    rw [read_definition_opened hw rfl]
    exact read_map_accept (read_enumType hk hw hn hv rest) (Definition.type ∘ .enum)
  | inputObject hw hn hf =>
    have hdf := TypeDefinition.depth_inputObject_le_iff.1 hd
    rw [read_definition_opened hw rfl]
    exact read_map_accept (read_inputObjectType hk hw hn hf hdf rest)
      (Definition.type ∘ .inputObject)

theorem read_definition (hk : k.Covers b) {d : Definition} (h : d.Derives w) (hd : d.depth ≤ b)
    {rest : List Lexeme} (hrest : Avoids [.punctuator .pipe] rest) :
    definition.read k (w ++ rest) = .accept d rest := by
  cases h with
  | operation h => exact read_operation hk h hd rest
  | fragment h =>
    have hread := read_fragmentDefinition hk h hd rest
    obtain ⟨hw, hn, ht, hm, hs⟩ := h
    rw [read_definition_opened hw rfl]
    exact read_map_accept hread Definition.fragment
  | type h => exact read_typeDefinition hk h hd hrest
  | extension hw h =>
    rw [read_definition_opened hw rfl]
    refine read_map_accept ?_ Definition.extension
    rw [typeExtension, List.append_assoc, read_keyword_bind hk.goesOn hw,
      read_bind_accept (read_objectType hk h hd rest)]
    rfl

/-- The definitions of a document are read up to the end of the input. -/
theorem read_document (hk : k.Covers b) {d : Document} (h : d.Derives w) (hd : d.depth ≤ b)
    {rest : List Lexeme} (hrest : (front rest).kind = .endOfInput) :
    document.read k (w ++ rest) = .accept d rest := by
  obtain ⟨h, hne⟩ := h
  have hds := Document.depth_le_iff.1 hd
  cases h with
  | nil => exact absurd rfl hne
  | @cons d ds u w h hs =>
    have hend : Avoids [.punctuator .pipe] rest := by simp [Avoids, hrest]
    have hnext : Avoids [.punctuator .pipe] (w ++ rest) :=
      (hs.mayOpen fun _ _ h => h.opens).avoids (by decide) hend
    have hothers : (many (!Lexeme.hasKind .endOfInput ·) definition done).read k (w ++ rest) =
        .accept ds rest := by
      refine read_many (F := [.punctuator .braceOpen, .name]) (fun d w h => h.1.opens)
        (fun x hx => ?_) (fun d w rest h hrest => read_definition hk h.1 h.2 hrest) (by decide)
        (hs.bounded fun d hd => hds d (by simp [hd])) ?_ hend
      · simp only [List.mem_cons, List.not_mem_nil, or_false] at hx
        rcases hx with hx | hx <;> simp [Lexeme.hasKind, hx]
      · simp [Lexeme.hasKind, hrest]
    rw [document, List.append_assoc,
      read_bind_accept (read_definition hk h (hds d (by simp)) hnext),
      read_bind_accept hothers]
    rfl

end Rule

end GraphQL
