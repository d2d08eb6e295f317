/-
How trees are written and read, one step at a time.

* `Shape.Content` — what stands directly in a tree of some shape;
* `Shape.write`, `Shape.Reads` — how the tree is written, and from what it is
  read;
* `Shaped` — a codec that does so for all trees of a type;
* `TreeType.shaped` — the codec of each type of tree follows its shape.

Design notes: what is inside a tree is left to its own codec, so nothing here is
an induction.  Where types contain one another, their functions are first shown
to be those of the codecs for lists, options and fields.
-/
import GraphQL.Proofs.Json.Schema

namespace GraphQL

open Codec Json

/-! ### What stands in a tree -/

/-- The trees of a type. -/
abbrev TreeType.Carrier : TreeType → Type
  | argument => Argument
  | definition => Definition
  | directive => Directive
  | document => Document
  | enumType => EnumType
  | enumValueDefinition => EnumValueDefinition
  | field => Field
  | fieldDefinition => FieldDefinition
  | fragmentDefinition => FragmentDefinition
  | fragmentSpread => FragmentSpread
  | inlineFragment => InlineFragment
  | inputObjectType => InputObjectType
  | inputValueDefinition => InputValueDefinition
  | interfaceType => InterfaceType
  | name => Name
  | objectField => ObjectField
  | objectType => ObjectType
  | operationDefinition => OperationDefinition
  | operationKind => OperationKind
  | scalarType => ScalarType
  | selection => Selection
  | selectionSet => SelectionSet
  | typeDefinition => TypeDefinition
  | typeExtension => TypeExtension
  | typeRef => TypeRef
  | unionType => UnionType
  | value => Value
  | var => Variable
  | variableDefinition => VariableDefinition

instance TreeType.codec : (t : TreeType) → Codec t.Carrier
  | argument => inferInstanceAs (Codec Argument)
  | definition => inferInstanceAs (Codec Definition)
  | directive => inferInstanceAs (Codec Directive)
  | document => inferInstanceAs (Codec Document)
  | enumType => inferInstanceAs (Codec EnumType)
  | enumValueDefinition => inferInstanceAs (Codec EnumValueDefinition)
  | field => inferInstanceAs (Codec Field)
  | fieldDefinition => inferInstanceAs (Codec FieldDefinition)
  | fragmentDefinition => inferInstanceAs (Codec FragmentDefinition)
  | fragmentSpread => inferInstanceAs (Codec FragmentSpread)
  | inlineFragment => inferInstanceAs (Codec InlineFragment)
  | inputObjectType => inferInstanceAs (Codec InputObjectType)
  | inputValueDefinition => inferInstanceAs (Codec InputValueDefinition)
  | interfaceType => inferInstanceAs (Codec InterfaceType)
  | name => inferInstanceAs (Codec Name)
  | objectField => inferInstanceAs (Codec ObjectField)
  | objectType => inferInstanceAs (Codec ObjectType)
  | operationDefinition => inferInstanceAs (Codec OperationDefinition)
  | operationKind => inferInstanceAs (Codec OperationKind)
  | scalarType => inferInstanceAs (Codec ScalarType)
  | selection => inferInstanceAs (Codec Selection)
  | selectionSet => inferInstanceAs (Codec SelectionSet)
  | typeDefinition => inferInstanceAs (Codec TypeDefinition)
  | typeExtension => inferInstanceAs (Codec TypeExtension)
  | typeRef => inferInstanceAs (Codec TypeRef)
  | unionType => inferInstanceAs (Codec UnionType)
  | value => inferInstanceAs (Codec Value)
  | var => inferInstanceAs (Codec Variable)
  | variableDefinition => inferInstanceAs (Codec VariableDefinition)

/-- What can stand in a field of a record or in an alternative. -/
abbrev Schema.Carrier : Schema → Type
  | text => String
  | flag => Bool
  | tree t => t.Carrier
  | optional t => Option t.Carrier
  | list t => List t.Carrier

instance Schema.codec : (s : Schema) → Codec s.Carrier
  | text => inferInstanceAs (Codec String)
  | flag => inferInstanceAs (Codec Bool)
  | tree t => t.codec
  | optional t => inferInstanceAs (Codec (Option t.Carrier))
  | list t => inferInstanceAs (Codec (List t.Carrier))

/-- Reads a field of a record: only an option may be missing. -/
def Schema.read? (members : List (String × Json)) (field : String) : (s : Schema) → Option s.Carrier
  | text => (required members field : Option String)
  | flag => (required members field : Option Bool)
  | tree t => (required members field : Option t.Carrier)
  | optional t => (Json.optional members field : Option (Option t.Carrier))
  | list t => (required members field : Option (List t.Carrier))

/-- What stands in the fields of a record. -/
def Values : List (String × Schema) → Type
  | [] => Unit
  | field :: fields => field.2.Carrier × Values fields

/-- Writes the fields of a record. -/
def Values.write : (fields : List (String × Schema)) → Values fields → List (String × Json)
  | [], _ => []
  | field :: fields, (v, vs) => (field.1, encode v) :: write fields vs

/-- The fields of a record are read from the members of an object. -/
def Values.Reads (members : List (String × Json)) :
    (fields : List (String × Schema)) → Values fields → Prop
  | [], _ => True
  | field :: fields, (v, vs) => field.2.read? members field.1 = some v ∧ Reads members fields vs

namespace Shape

/-- What stands directly in a tree. -/
abbrev Content : Shape → Type
  | record fields => Values fields
  | sum alternatives => (p : {p // p ∈ alternatives}) × p.1.2.Carrier
  | unit names => {name // name ∈ names}

/-- How a tree is written, given what stands in it. -/
def write : (s : Shape) → s.Content → Json
  | record fields, vs => .object (Values.write fields vs)
  | sum _, ⟨p, v⟩ => .object [(p.1.1, encode v)]
  | unit _, name => .string name.1

/-- From which JSON values a tree is read, given what stands in it. -/
def Reads : (s : Shape) → Json → s.Content → Prop
  | record fields, j, vs => ∃ members, j = .object members ∧ Values.Reads members fields vs
  | sum _, j, ⟨p, v⟩ => ∃ payload, j = .object [(p.1.1, payload)] ∧ decode? payload = some v
  | unit _, j, name => j.unitVariant? = some name.1

end Shape

/-- A codec that writes and reads trees as a shape says. -/
structure Shaped (α : Type) [Codec α] (s : Shape) where
  content : α → s.Content
  /-- Whatever can stand in a tree of the shape stands in one. -/
  surjective : ∀ x, ∃ a, content a = x
  encode_eq : ∀ a, encode a = s.write (content a)
  decode?_eq_some_iff : ∀ j a, decode? j = some a ↔ s.Reads j (content a)

/-! ### Types that contain one another -/

section

variable {α : Type} [Codec α]

/-- Writing one item after the other is writing a list. -/
theorem Codec.eq_map_encode {f : List α → List Json} (hnil : f [] = [])
    (hcons : ∀ a as, f (a :: as) = encode a :: f as) (as : List α) : f as = as.map encode := by
  induction as with
  | nil => exact hnil
  | cons a as ih => rw [hcons, ih, List.map_cons]

/-- Reading one item after the other is reading a list. -/
theorem Codec.eq_decodeItems? {f : List Json → Option (List α)} (hnil : f [] = some [])
    (hcons : ∀ j js, f (j :: js) = do return (← decode? j) :: (← f js)) (js : List Json) :
    f js = decodeItems? js := by
  induction js with
  | nil => exact hnil
  | cons j js ih => rw [hcons, ih, decodeItems?]

/-- Reading the first member of a name is reading a field. -/
theorem Json.eq_required {field : String} {f : List (String × Json) → Option α}
    (hnil : f [] = none)
    (hcons : ∀ name j members,
      f ((name, j) :: members) = if field == name then decode? j else f members)
    (members : List (String × Json)) : f members = required members field := by
  induction members with
  | nil => exact hnil
  | cons p members ih =>
    rw [hcons, ih, required, required, List.lookup_cons]
    cases field == p.1 <;> rfl

end

theorem Value.toJsonItems_eq (vs : List Value) : Value.toJsonItems vs = vs.map encode :=
  eq_map_encode rfl (fun _ _ => rfl) vs

theorem ObjectField.toJsonItems_eq (fs : List ObjectField) :
    ObjectField.toJsonItems fs = fs.map encode :=
  eq_map_encode rfl (fun _ _ => rfl) fs

theorem Selection.toJsonItems_eq (ss : List Selection) :
    Selection.toJsonItems ss = ss.map encode :=
  eq_map_encode rfl (fun _ _ => rfl) ss

theorem Value.ofArray?_eq (j : Json) : Value.ofArray? j = decode? j := by
  cases j with
  | array items => exact eq_decodeItems? (f := Value.ofItems?) rfl (fun _ _ => rfl) items
  | _ => rfl

theorem ObjectField.ofArray?_eq (j : Json) : ObjectField.ofArray? j = decode? j := by
  cases j with
  | array items => exact eq_decodeItems? (f := ObjectField.ofItems?) rfl (fun _ _ => rfl) items
  | _ => rfl

theorem Selection.ofArray?_eq (j : Json) : Selection.ofArray? j = decode? j := by
  cases j with
  | array items => exact eq_decodeItems? (f := Selection.ofItems?) rfl (fun _ _ => rfl) items
  | _ => rfl

theorem Value.ofMember?_eq (field : String) (members : List (String × Json)) :
    Value.ofMember? field members = required members field :=
  eq_required rfl (fun _ _ _ => rfl) members

theorem Selection.ofRequired?_eq (field : String) (members : List (String × Json)) :
    Selection.ofRequired? field members = required members field :=
  eq_required rfl (fun _ j _ => by rw [Selection.ofRequired?, Selection.ofArray?_eq]) members

theorem SelectionSet.ofRequired?_eq (field : String) (members : List (String × Json)) :
    SelectionSet.ofRequired? field members = required members field :=
  eq_required rfl (fun _ _ _ => rfl) members

theorem SelectionSet.ofNullable?_eq (j : Json) : SelectionSet.ofNullable? j = decode? j := by
  cases j with
  | object members =>
    cases h : Selection.ofRequired? "selections" members <;>
      simp [SelectionSet.ofNullable?, decode?, SelectionSet.ofJson?, h]
  | _ => rfl

theorem SelectionSet.ofOptional?_eq (field : String) (members : List (String × Json)) :
    SelectionSet.ofOptional? field members = Json.optional members field := by
  induction members with
  | nil => rfl
  | cons p members ih =>
    rw [SelectionSet.ofOptional?, ih, SelectionSet.ofNullable?_eq, Json.optional, Json.optional,
      List.lookup_cons]
    cases field == p.1 <;> rfl

theorem ObjectField.ofJson?_eq (j : Json) : ObjectField.ofJson? j = do
    let members ← j.members?
    return ⟨← required members "name", ← required members "value"⟩ := by
  cases j with
  | object members => simp [ObjectField.ofJson?, Value.ofMember?_eq, members?]
  | _ => rfl

theorem SelectionSet.ofJson?_eq (j : Json) : SelectionSet.ofJson? j = do
    let members ← j.members?
    return ⟨← required members "selections"⟩ := by
  cases j with
  | object members =>
    show SelectionSet.mk <$> Selection.ofRequired? "selections" members = _
    rw [Selection.ofRequired?_eq, Option.map_eq_map, Option.map_eq_bind]
    rfl
  | _ => rfl

theorem InlineFragment.ofJson?_eq (j : Json) : InlineFragment.ofJson? j = do
    let members ← j.members?
    return ⟨← Json.optional members "type_condition", ← required members "directives",
      ← required members "selection_set"⟩ := by
  cases j with
  | object members => simp [InlineFragment.ofJson?, SelectionSet.ofRequired?_eq, members?]
  | _ => rfl

theorem Field.ofJson?_eq (j : Json) : Field.ofJson? j = do
    let members ← j.members?
    return ⟨← Json.optional members "alias", ← required members "name",
      ← required members "arguments", ← required members "directives",
      ← Json.optional members "selection_set"⟩ := by
  cases j with
  | object members => simp [Field.ofJson?, SelectionSet.ofOptional?_eq, members?]
  | _ => rfl

/-! ### Each type follows its shape -/

@[simp] theorem Json.members?_eq_some_iff {j : Json} {members : List (String × Json)} :
    j.members? = some members ↔ j = .object members := by
  cases j <;> simp [members?]

/-- A codec of records.  Fields may be read in any order. -/
def Shaped.ofRecord {α : Type} [Codec α] {fields : List (String × Schema)}
    (values : α → Values fields) (surjective : ∀ vs, ∃ a, values a = vs)
    (encode_eq : ∀ a, encode a = .object (Values.write fields (values a)) := by rintro ⟨⟩; rfl)
    (decode?_eq_some_iff : ∀ j a, decode? j = some a ↔
      ∃ members, j = .object members ∧ Values.Reads members fields (values a) := by
        rintro j ⟨⟩
        simp only [decode?, ObjectField.ofJson?_eq, SelectionSet.ofJson?_eq,
          InlineFragment.ofJson?_eq, Field.ofJson?_eq, Option.bind_eq_bind, Option.bind_eq_some_iff,
          members?_eq_some_iff]
        refine exists_congr fun members => and_congr_right fun _ => ?_
        dsimp only [Values.Reads, Schema.read?]
        -- each side says that every field is read, but in an order of its own
        grind) :
    Shaped α (.record fields) where
  content := values
  surjective := surjective
  encode_eq := encode_eq
  decode?_eq_some_iff := decode?_eq_some_iff

/-- A codec of alternatives. -/
def Shaped.ofSum {α : Type} [Codec α] {alternatives : List (String × Schema)}
    (content : α → (p : {p // p ∈ alternatives}) × p.1.2.Carrier)
    (surjective : ∀ x, ∃ a, content a = x)
    (encode_eq : ∀ a, encode a = .object [((content a).1.1.1, encode (content a).2)] := by
      rintro ⟨⟩ <;> rfl)
    (decode?_eq_some_iff : ∀ j a, decode? j = some a ↔ ∃ payload,
      j = .object [((content a).1.1.1, payload)] ∧ decode? payload = some (content a).2 := by
        intro j a
        constructor
        · intro h
          -- nothing but an object of one member is read
          obtain ⟨tag, payload, rfl⟩ : ∃ tag payload, j = .object [(tag, payload)] := by
            rcases j with _ | _ | _ | _ | _ | (_ | ⟨⟨tag, payload⟩, _ | _⟩)
            case object.cons.nil => exact ⟨tag, payload, rfl⟩
            all_goals cases h
          simp only [decode?, Value.ofJson?, TypeRef.ofJson?, Selection.ofJson?, Value.ofArray?_eq,
            ObjectField.ofArray?_eq] at h
          split at h
          all_goals first
            | cases h
            | obtain ⟨v, hv, rfl⟩ := Option.map_eq_some_iff.1 h
              exact ⟨payload, rfl, hv⟩
        · rintro ⟨payload, rfl, h⟩
          cases a
          all_goals
            simp only [decode?, Value.ofJson?, TypeRef.ofJson?, Selection.ofJson?,
              Value.ofArray?_eq, ObjectField.ofArray?_eq]
            exact Option.map_eq_some_iff.2 ⟨_, h, rfl⟩) :
    Shaped α (.sum alternatives) where
  content := content
  surjective := surjective
  encode_eq := encode_eq
  decode?_eq_some_iff := decode?_eq_some_iff

def Name.shaped : Shaped Name (TreeType.shape .name) :=
  .ofRecord (fun n => (n.text, ())) fun (text, ()) => ⟨⟨text⟩, rfl⟩

def Variable.shaped : Shaped Variable (TreeType.shape .var) :=
  .ofRecord (fun v => (v.name, ())) fun (n, ()) => ⟨⟨n⟩, rfl⟩

def ObjectField.shaped : Shaped ObjectField (TreeType.shape .objectField) :=
  .ofRecord (fun f => (f.name, f.value, ())) fun (n, v, ()) => ⟨⟨n, v⟩, rfl⟩

def Value.shaped : Shaped Value (TreeType.shape .value) :=
  .ofSum
    (fun
      | .var v => ⟨⟨("Variable", .tree .var), by simp⟩, v⟩
      | .int text => ⟨⟨("Int", .text), by simp⟩, text⟩
      | .float text => ⟨⟨("Float", .text), by simp⟩, text⟩
      | .string contents => ⟨⟨("String", .text), by simp⟩, contents⟩
      | .boolean b => ⟨⟨("Boolean", .flag), by simp⟩, b⟩
      | .enum text => ⟨⟨("Enum", .text), by simp⟩, text⟩
      | .list items => ⟨⟨("List", .list .value), by simp⟩, items⟩
      | .object fields => ⟨⟨("Object", .list .objectField), by simp⟩, fields⟩)
    (fun ⟨⟨p, h⟩, v⟩ => by
      simp only [List.mem_cons, List.not_mem_nil, or_false] at h
      rcases h with rfl | rfl | rfl | rfl | rfl | rfl | rfl | rfl
      · exact ⟨.var v, rfl⟩
      · exact ⟨.int v, rfl⟩
      · exact ⟨.float v, rfl⟩
      · exact ⟨.string v, rfl⟩
      · exact ⟨.boolean v, rfl⟩
      · exact ⟨.enum v, rfl⟩
      · exact ⟨.list v, rfl⟩
      · exact ⟨.object v, rfl⟩)
    (fun v => by
      cases v with
      | list items =>
        show Json.object [("List", .array (Value.toJsonItems items))] = _
        rw [Value.toJsonItems_eq]
        rfl
      | object fields =>
        show Json.object [("Object", .array (ObjectField.toJsonItems fields))] = _
        rw [ObjectField.toJsonItems_eq]
        rfl
      | _ => rfl)

def TypeRef.shaped : Shaped TypeRef (TreeType.shape .typeRef) :=
  .ofSum
    (fun
      | .named n => ⟨⟨("Named", .tree .name), by simp⟩, n⟩
      | .list t => ⟨⟨("List", .tree .typeRef), by simp⟩, t⟩
      | .nonNull t => ⟨⟨("NonNull", .tree .typeRef), by simp⟩, t⟩)
    fun ⟨⟨p, h⟩, t⟩ => by
      simp only [List.mem_cons, List.not_mem_nil, or_false] at h
      rcases h with rfl | rfl | rfl
      · exact ⟨.named t, rfl⟩
      · exact ⟨.list t, rfl⟩
      · exact ⟨.nonNull t, rfl⟩

def Argument.shaped : Shaped Argument (TreeType.shape .argument) :=
  .ofRecord (fun a => (a.name, a.value, ())) fun (n, v, ()) => ⟨⟨n, v⟩, rfl⟩

def Directive.shaped : Shaped Directive (TreeType.shape .directive) :=
  .ofRecord (fun d => (d.arguments, d.name, ())) fun (as, n, ()) => ⟨⟨n, as⟩, rfl⟩

def FragmentSpread.shaped : Shaped FragmentSpread (TreeType.shape .fragmentSpread) :=
  .ofRecord (fun s => (s.directives, s.name, ())) fun (ds, n, ()) => ⟨⟨n, ds⟩, rfl⟩

def Field.shaped : Shaped Field (TreeType.shape .field) :=
  .ofRecord (fun f => (f.alias?, f.arguments, f.directives, f.name, f.selectionSet?, ()))
    (fun (a?, as, ds, n, ss?, ()) => ⟨⟨a?, n, as, ds, ss?⟩, rfl⟩)
    fun ⟨_, _, _, _, ss?⟩ => by cases ss? <;> rfl

def InlineFragment.shaped : Shaped InlineFragment (TreeType.shape .inlineFragment) :=
  .ofRecord (fun f => (f.directives, f.selectionSet, f.typeCondition?, ()))
    fun (ds, ss, t?, ()) => ⟨⟨t?, ds, ss⟩, rfl⟩

def SelectionSet.shaped : Shaped SelectionSet (TreeType.shape .selectionSet) :=
  .ofRecord (fun ss => (ss.selections, ())) (fun (ss, ()) => ⟨⟨ss⟩, rfl⟩) fun ⟨ss⟩ => by
    show Json.object [("selections", .array (Selection.toJsonItems ss))] = _
    rw [Selection.toJsonItems_eq]
    rfl

def Selection.shaped : Shaped Selection (TreeType.shape .selection) :=
  .ofSum
    (fun
      | .field f => ⟨⟨("Field", .tree .field), by simp⟩, f⟩
      | .spread s => ⟨⟨("FragmentSpread", .tree .fragmentSpread), by simp⟩, s⟩
      | .inline f => ⟨⟨("InlineFragment", .tree .inlineFragment), by simp⟩, f⟩)
    fun ⟨⟨p, h⟩, x⟩ => by
      simp only [List.mem_cons, List.not_mem_nil, or_false] at h
      rcases h with rfl | rfl | rfl
      · exact ⟨.field x, rfl⟩
      · exact ⟨.spread x, rfl⟩
      · exact ⟨.inline x, rfl⟩

def OperationKind.shaped : Shaped OperationKind (TreeType.shape .operationKind) where
  content
    | .query => ⟨"Query", by simp⟩
    | .mutation => ⟨"Mutation", by simp⟩
    | .subscription => ⟨"Subscription", by simp⟩
  surjective := fun ⟨name, h⟩ => by
    simp only [List.mem_cons, List.not_mem_nil, or_false] at h
    rcases h with rfl | rfl | rfl
    · exact ⟨.query, rfl⟩
    · exact ⟨.mutation, rfl⟩
    · exact ⟨.subscription, rfl⟩
  encode_eq k := by cases k <;> rfl
  decode?_eq_some_iff j k := by
    simp only [decode?, Option.bind_eq_bind, Option.bind_eq_some_iff]
    constructor
    · rintro ⟨tag, htag, h⟩
      split at h <;> cases h <;> exact htag
    · cases k <;> exact fun h => ⟨_, h, rfl⟩

def VariableDefinition.shaped : Shaped VariableDefinition (TreeType.shape .variableDefinition) :=
  .ofRecord (fun d => (d.default?, d.type, d.var, ())) fun (d?, t, v, ()) => ⟨⟨v, t, d?⟩, rfl⟩

def OperationDefinition.shaped :
    Shaped OperationDefinition (TreeType.shape .operationDefinition) :=
  .ofRecord
    (fun d => (d.directives, d.name?, d.operation, d.selectionSet, d.variableDefinitions, ()))
    fun (ds, n?, k, ss, vs, ()) => ⟨⟨k, n?, vs, ds, ss⟩, rfl⟩

def FragmentDefinition.shaped : Shaped FragmentDefinition (TreeType.shape .fragmentDefinition) :=
  .ofRecord (fun d => (d.directives, d.name, d.selectionSet, d.typeCondition, ()))
    fun (ds, n, ss, t, ()) => ⟨⟨n, t, ds, ss⟩, rfl⟩

def InputValueDefinition.shaped :
    Shaped InputValueDefinition (TreeType.shape .inputValueDefinition) :=
  .ofRecord (fun d => (d.default?, d.name, d.type, ())) fun (d?, n, t, ()) => ⟨⟨n, t, d?⟩, rfl⟩

def FieldDefinition.shaped : Shaped FieldDefinition (TreeType.shape .fieldDefinition) :=
  .ofRecord (fun d => (d.arguments, d.type, d.name, ())) fun (as, t, n, ()) => ⟨⟨n, as, t⟩, rfl⟩

def EnumValueDefinition.shaped :
    Shaped EnumValueDefinition (TreeType.shape .enumValueDefinition) :=
  .ofRecord (fun d => (d.name, ())) fun (n, ()) => ⟨⟨n⟩, rfl⟩

def ScalarType.shaped : Shaped ScalarType (TreeType.shape .scalarType) :=
  .ofRecord (fun t => (t.name, ())) fun (n, ()) => ⟨⟨n⟩, rfl⟩

def ObjectType.shaped : Shaped ObjectType (TreeType.shape .objectType) :=
  .ofRecord (fun t => (t.fields, t.interfaces, t.name, ())) fun (fs, is, n, ()) =>
    ⟨⟨n, is, fs⟩, rfl⟩

def InterfaceType.shaped : Shaped InterfaceType (TreeType.shape .interfaceType) :=
  .ofRecord (fun t => (t.fields, t.name, ())) fun (fs, n, ()) => ⟨⟨n, fs⟩, rfl⟩

def UnionType.shaped : Shaped UnionType (TreeType.shape .unionType) :=
  .ofRecord (fun t => (t.name, t.members, ())) fun (n, ms, ()) => ⟨⟨n, ms⟩, rfl⟩

def EnumType.shaped : Shaped EnumType (TreeType.shape .enumType) :=
  .ofRecord (fun t => (t.name, t.values, ())) fun (n, vs, ()) => ⟨⟨n, vs⟩, rfl⟩

def InputObjectType.shaped : Shaped InputObjectType (TreeType.shape .inputObjectType) :=
  .ofRecord (fun t => (t.fields, t.name, ())) fun (fs, n, ()) => ⟨⟨n, fs⟩, rfl⟩

def TypeDefinition.shaped : Shaped TypeDefinition (TreeType.shape .typeDefinition) :=
  .ofSum
    (fun
      | .scalar t => ⟨⟨("Scalar", .tree .scalarType), by simp⟩, t⟩
      | .object t => ⟨⟨("Object", .tree .objectType), by simp⟩, t⟩
      | .interface t => ⟨⟨("Interface", .tree .interfaceType), by simp⟩, t⟩
      | .union t => ⟨⟨("Union", .tree .unionType), by simp⟩, t⟩
      | .enum t => ⟨⟨("Enum", .tree .enumType), by simp⟩, t⟩
      | .inputObject t => ⟨⟨("InputObject", .tree .inputObjectType), by simp⟩, t⟩)
    fun ⟨⟨p, h⟩, t⟩ => by
      simp only [List.mem_cons, List.not_mem_nil, or_false] at h
      rcases h with rfl | rfl | rfl | rfl | rfl | rfl
      · exact ⟨.scalar t, rfl⟩
      · exact ⟨.object t, rfl⟩
      · exact ⟨.interface t, rfl⟩
      · exact ⟨.union t, rfl⟩
      · exact ⟨.enum t, rfl⟩
      · exact ⟨.inputObject t, rfl⟩

def TypeExtension.shaped : Shaped TypeExtension (TreeType.shape .typeExtension) :=
  .ofRecord (fun e => (e.definition, ())) fun (t, ()) => ⟨⟨t⟩, rfl⟩

def Definition.shaped : Shaped Definition (TreeType.shape .definition) :=
  .ofSum
    (fun
      | .operation d => ⟨⟨("OperationDefinition", .tree .operationDefinition), by simp⟩, d⟩
      | .fragment d => ⟨⟨("FragmentDefinition", .tree .fragmentDefinition), by simp⟩, d⟩
      | .type d => ⟨⟨("TypeDefinition", .tree .typeDefinition), by simp⟩, d⟩
      | .extension d => ⟨⟨("TypeExtension", .tree .typeExtension), by simp⟩, d⟩)
    fun ⟨⟨p, h⟩, d⟩ => by
      simp only [List.mem_cons, List.not_mem_nil, or_false] at h
      rcases h with rfl | rfl | rfl | rfl
      · exact ⟨.operation d, rfl⟩
      · exact ⟨.fragment d, rfl⟩
      · exact ⟨.type d, rfl⟩
      · exact ⟨.extension d, rfl⟩

def Document.shaped : Shaped Document (TreeType.shape .document) :=
  .ofRecord (fun d => (d.definitions, ())) fun (ds, ()) => ⟨⟨ds⟩, rfl⟩

/-- The codec of each type of tree follows the shape of the type. -/
def TreeType.shaped : (t : TreeType) → Shaped t.Carrier t.shape
  | argument => Argument.shaped
  | definition => Definition.shaped
  | directive => Directive.shaped
  | document => Document.shaped
  | enumType => EnumType.shaped
  | enumValueDefinition => EnumValueDefinition.shaped
  | field => Field.shaped
  | fieldDefinition => FieldDefinition.shaped
  | fragmentDefinition => FragmentDefinition.shaped
  | fragmentSpread => FragmentSpread.shaped
  | inlineFragment => InlineFragment.shaped
  | inputObjectType => InputObjectType.shaped
  | inputValueDefinition => InputValueDefinition.shaped
  | interfaceType => InterfaceType.shaped
  | name => Name.shaped
  | objectField => ObjectField.shaped
  | objectType => ObjectType.shaped
  | operationDefinition => OperationDefinition.shaped
  | operationKind => OperationKind.shaped
  | scalarType => ScalarType.shaped
  | selection => Selection.shaped
  | selectionSet => SelectionSet.shaped
  | typeDefinition => TypeDefinition.shaped
  | typeExtension => TypeExtension.shaped
  | typeRef => TypeRef.shaped
  | unionType => UnionType.shaped
  | value => Value.shaped
  | var => Variable.shaped
  | variableDefinition => VariableDefinition.shaped

end GraphQL
