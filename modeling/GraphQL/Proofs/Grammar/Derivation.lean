/-
The grammar of documents, as derivations.

Each kind of part derives the lists of lexemes that spell it.  Nothing here
looks ahead: where the language has a choice, so has the grammar.

* `Value.Derives`, `TypeRef.Derives`, `SelectionSet.Derives` — the constructs
  that can contain themselves;
* `Definition.Derives`, `Document.Derives` — definitions and whole documents.

Design notes: every production is one constructor, and its doc comment gives
the production in the usual brackets.  A lexeme counts by its kind and, if it
is a name, number or string, by its text; keywords are names with a given
text.
-/
import GraphQL.Grammar.Document

namespace GraphQL

/-! ### Lexemes and lists -/

theorem Lexeme.isKeyword_iff {x : Lexeme} {k : Keyword} :
    x.isKeyword k = true ↔ x.kind = .name ∧ x.value.bind Keyword.ofText? = some k := by
  simp [Lexeme.isKeyword, Lexeme.isName, Option.bind_eq_some_iff, Keyword.ofText?_eq_some_iff]

/-- No lexeme is two keywords. -/
theorem Lexeme.isKeyword_ne {x : Lexeme} {a b : Keyword} (h : x.isKeyword a = true) (hab : a ≠ b) :
    x.isKeyword b = false := by
  rw [← Bool.not_eq_true, Lexeme.isKeyword_iff]
  rintro ⟨_, hb⟩
  rw [(Lexeme.isKeyword_iff.1 h).2] at hb
  exact hab (Option.some.inj hb)

/-- A lexeme of a given kind, which stands for its text. -/
inductive Terminal (k : TokenKind) : String → List Lexeme → Prop
  | intro {x : Lexeme} (hx : x.kind = k) : Terminal k x.text [x]

/-- A punctuator. -/
inductive Symbol (p : Punctuator) : List Lexeme → Prop
  | intro {x : Lexeme} (hx : x.kind = .punctuator p) : Symbol p [x]

/-- A keyword. -/
inductive Reserved (k : Keyword) : List Lexeme → Prop
  | intro {x : Lexeme} (hx : x.isKeyword k = true) : Reserved k [x]

/-- Any number of items, one after the other. -/
inductive Many {α : Type} (item : α → List Lexeme → Prop) : List α → List Lexeme → Prop
  | nil : Many item [] []
  | cons {a : α} {as : List α} {w ws : List Lexeme} (h : item a w) (hs : Many item as ws) :
    Many item (a :: as) (w ++ ws)

/-- An item, or nothing. -/
inductive Maybe {α : Type} (item : α → List Lexeme → Prop) : Option α → List Lexeme → Prop
  | none : Maybe item none []
  | some {a : α} {w : List Lexeme} (h : item a w) : Maybe item (some a) w

/-- At least one item between an opening and a closing punctuator. -/
inductive Enclosed {α : Type} (opening : Punctuator) (item : α → List Lexeme → Prop)
    (close : Punctuator) : List α → List Lexeme → Prop
  | intro {as : List α} {o w c : List Lexeme} (ho : Symbol opening o) (h : Many item as w)
    (hne : as ≠ []) (hc : Symbol close c) : Enclosed opening item close as (o ++ (w ++ c))

/-- The same in parentheses, or nothing at all if there are no items. -/
inductive Parenthesized {α : Type} (item : α → List Lexeme → Prop) :
    List α → List Lexeme → Prop
  | none : Parenthesized item [] []
  | some {as : List α} {w : List Lexeme} (h : Enclosed .parenOpen item .parenClose as w) :
    Parenthesized item as w

/-- Name. -/
def Name.Derives (n : Name) (w : List Lexeme) : Prop := Terminal .name n.text w

/-- Any name but `on`. -/
inductive FragmentName : Name → List Lexeme → Prop
  | intro {x : Lexeme} (hx : x.kind = .name) (hon : x.isKeyword .on = false) :
    FragmentName ⟨x.text⟩ [x]

/-- `$` Name. -/
inductive Variable.Derives : Variable → List Lexeme → Prop
  | intro {n : Name} {d w : List Lexeme} (hd : Symbol .dollar d) (hn : n.Derives w) :
    Variable.Derives ⟨n⟩ (d ++ w)

/-! ### Values and types -/

mutual

/-- The spellings of a value. -/
inductive Value.Derives (c : ValueContext) : Value → List Lexeme → Prop
  /-- Variable, outside of default values. -/
  | var {v : Variable} {w : List Lexeme} (hc : c = .argument) (h : v.Derives w) :
    Value.Derives c (.var v) w
  | int {t : String} {w : List Lexeme} (h : Terminal .int t w) : Value.Derives c (.int t) w
  | float {t : String} {w : List Lexeme} (h : Terminal .float t w) : Value.Derives c (.float t) w
  | string {t : String} {w : List Lexeme} (h : Terminal .string t w) :
    Value.Derives c (.string t) w
  /-- `true`. -/
  | true {w : List Lexeme} (h : Reserved .trueLiteral w) : Value.Derives c (.boolean true) w
  /-- `false`. -/
  | false {w : List Lexeme} (h : Reserved .falseLiteral w) : Value.Derives c (.boolean false) w
  /-- Any name but `true`, `false` and `null`. -/
  | enum {x : Lexeme} (hx : x.kind = .name) (ht : x.isKeyword .trueLiteral = Bool.false)
    (hf : x.isKeyword .falseLiteral = Bool.false) (hn : x.isKeyword .nullLiteral = Bool.false) :
    Value.Derives c (.enum x.text) [x]
  /-- `[` Value* `]`. -/
  | list {vs : List Value} {o w e : List Lexeme} (ho : Symbol .bracketOpen o)
    (h : Many (Value.Derives c) vs w) (he : Symbol .bracketClose e) :
    Value.Derives c (.list vs) (o ++ (w ++ e))
  /-- `{` ObjectField* `}`. -/
  | object {fs : List ObjectField} {o w e : List Lexeme} (ho : Symbol .braceOpen o)
    (h : Many (ObjectField.Derives c) fs w) (he : Symbol .braceClose e) :
    Value.Derives c (.object fs) (o ++ (w ++ e))

/-- Name `:` Value. -/
inductive ObjectField.Derives (c : ValueContext) : ObjectField → List Lexeme → Prop
  | intro {n : Name} {v : Value} {wn s wv : List Lexeme} (hn : n.Derives wn)
    (hs : Symbol .colon s) (hv : Value.Derives c v wv) :
    ObjectField.Derives c ⟨n, v⟩ (wn ++ (s ++ wv))

end

mutual

/-- The spellings of a type: one without mark, with or without `!` behind it. -/
inductive TypeRef.Derives : TypeRef → List Lexeme → Prop
  | nullable {t : TypeRef} {w : List Lexeme} (h : TypeRef.DerivesNullable t w) :
    TypeRef.Derives t w
  /-- NullableType `!`. -/
  | nonNull {t : TypeRef} {w b : List Lexeme} (h : TypeRef.DerivesNullable t w)
    (hb : Symbol .bang b) : TypeRef.Derives (.nonNull t) (w ++ b)

/-- The spellings of a type without non-null mark. -/
inductive TypeRef.DerivesNullable : TypeRef → List Lexeme → Prop
  | named {n : Name} {w : List Lexeme} (h : n.Derives w) : TypeRef.DerivesNullable (.named n) w
  /-- `[` Type `]`. -/
  | list {t : TypeRef} {o w e : List Lexeme} (ho : Symbol .bracketOpen o)
    (h : TypeRef.Derives t w) (he : Symbol .bracketClose e) :
    TypeRef.DerivesNullable (.list t) (o ++ (w ++ e))

end

/-! ### Selections -/

/-- Name `:` Value. -/
inductive Argument.Derives : Argument → List Lexeme → Prop
  | intro {n : Name} {v : Value} {wn s wv : List Lexeme} (hn : n.Derives wn)
    (hs : Symbol .colon s) (hv : v.Derives .argument wv) :
    Argument.Derives ⟨n, v⟩ (wn ++ (s ++ wv))

/-- `@` Name Arguments?. -/
inductive Directive.Derives : Directive → List Lexeme → Prop
  | intro {n : Name} {as : List Argument} {m wn wa : List Lexeme} (hm : Symbol .atSign m)
    (hn : n.Derives wn) (ha : Parenthesized Argument.Derives as wa) :
    Directive.Derives ⟨n, as⟩ (m ++ (wn ++ wa))

/-- Name `:`. -/
inductive Alias : Name → List Lexeme → Prop
  | intro {n : Name} {w s : List Lexeme} (hn : n.Derives w) (hs : Symbol .colon s) :
    Alias n (w ++ s)

/-- `on` Name. -/
inductive TypeCondition : Name → List Lexeme → Prop
  | intro {n : Name} {o w : List Lexeme} (ho : Reserved .on o) (hn : n.Derives w) :
    TypeCondition n (o ++ w)

mutual

/-- The spellings of a selection. -/
inductive Selection.Derives : Selection → List Lexeme → Prop
  | field {f : Field} {w : List Lexeme} (h : Field.Derives f w) : Selection.Derives (.field f) w
  /-- `...` FragmentName Directive*. -/
  | spread {n : Name} {ds : List Directive} {e wn wd : List Lexeme} (he : Symbol .ellipsis e)
    (hn : FragmentName n wn) (hd : Many Directive.Derives ds wd) :
    Selection.Derives (.spread ⟨n, ds⟩) (e ++ (wn ++ wd))
  /-- `...` TypeCondition? Directive* SelectionSet. -/
  | inline {t? : Option Name} {ds : List Directive} {ss : SelectionSet} {e wt wd ws : List Lexeme}
    (he : Symbol .ellipsis e) (ht : Maybe TypeCondition t? wt) (hd : Many Directive.Derives ds wd)
    (hs : SelectionSet.Derives ss ws) :
    Selection.Derives (.inline ⟨t?, ds, ss⟩) (e ++ (wt ++ (wd ++ ws)))

/-- Alias? Name Arguments? Directive* SelectionSet?. -/
inductive Field.Derives : Field → List Lexeme → Prop
  | intro {a? : Option Name} {n : Name} {as : List Argument} {ds : List Directive}
    {ss? : Option SelectionSet} {wl wn wa wd ws : List Lexeme} (hl : Maybe Alias a? wl)
    (hn : n.Derives wn) (ha : Parenthesized Argument.Derives as wa)
    (hd : Many Directive.Derives ds wd) (hs : Maybe SelectionSet.Derives ss? ws) :
    Field.Derives ⟨a?, n, as, ds, ss?⟩ (wl ++ (wn ++ (wa ++ (wd ++ ws))))

/-- `{` Selection+ `}`. -/
inductive SelectionSet.Derives : SelectionSet → List Lexeme → Prop
  | intro {ss : List Selection} {o w e : List Lexeme} (ho : Symbol .braceOpen o)
    (h : Many Selection.Derives ss w) (hne : ss ≠ []) (he : Symbol .braceClose e) :
    SelectionSet.Derives ⟨ss⟩ (o ++ (w ++ e))

end

/-! ### Operations and fragments -/

/-- `=` Value. -/
inductive Default (c : ValueContext) : Value → List Lexeme → Prop
  | intro {v : Value} {e w : List Lexeme} (he : Symbol .equals e) (hv : v.Derives c w) :
    Default c v (e ++ w)

/-- Variable `:` Type Default?. -/
inductive VariableDefinition.Derives : VariableDefinition → List Lexeme → Prop
  | intro {v : Variable} {t : TypeRef} {d? : Option Value} {wv s wt wd : List Lexeme}
    (hv : v.Derives wv) (hs : Symbol .colon s) (ht : t.Derives wt)
    (hd : Maybe (Default .variableDefault) d? wd) :
    VariableDefinition.Derives ⟨v, t, d?⟩ (wv ++ (s ++ (wt ++ wd)))

/-- The spellings of an operation. -/
inductive OperationDefinition.Derives : OperationDefinition → List Lexeme → Prop
  /-- SelectionSet. -/
  | bare {ss : SelectionSet} {w : List Lexeme} (h : ss.Derives w) :
    OperationDefinition.Derives ⟨.query, none, [], [], ss⟩ w
  /-- Keyword Name? VariableDefinitions? Directive* SelectionSet. -/
  | keyword {k : OperationKind} {n? : Option Name} {vs : List VariableDefinition}
    {ds : List Directive} {ss : SelectionSet} {wk wn wv wd ws : List Lexeme}
    (hk : Reserved k.keyword wk) (hn : Maybe Name.Derives n? wn)
    (hv : Parenthesized VariableDefinition.Derives vs wv) (hd : Many Directive.Derives ds wd)
    (hs : ss.Derives ws) :
    OperationDefinition.Derives ⟨k, n?, vs, ds, ss⟩ (wk ++ (wn ++ (wv ++ (wd ++ ws))))

/-- `fragment` FragmentName TypeCondition Directive* SelectionSet. -/
inductive FragmentDefinition.Derives : FragmentDefinition → List Lexeme → Prop
  | intro {n t : Name} {ds : List Directive} {ss : SelectionSet} {wk wn wt wd ws : List Lexeme}
    (hk : Reserved .fragment wk) (hn : FragmentName n wn) (ht : TypeCondition t wt)
    (hd : Many Directive.Derives ds wd) (hs : ss.Derives ws) :
    FragmentDefinition.Derives ⟨n, t, ds, ss⟩ (wk ++ (wn ++ (wt ++ (wd ++ ws))))

/-! ### Types -/

/-- Name `:` Type Default?. -/
inductive InputValueDefinition.Derives : InputValueDefinition → List Lexeme → Prop
  | intro {n : Name} {t : TypeRef} {d? : Option Value} {wn s wt wd : List Lexeme}
    (hn : n.Derives wn) (hs : Symbol .colon s) (ht : t.Derives wt)
    (hd : Maybe (Default .inputDefault) d? wd) :
    InputValueDefinition.Derives ⟨n, t, d?⟩ (wn ++ (s ++ (wt ++ wd)))

/-- Name InputValueDefinitions? `:` Type. -/
inductive FieldDefinition.Derives : FieldDefinition → List Lexeme → Prop
  | intro {n : Name} {as : List InputValueDefinition} {t : TypeRef} {wn wa s wt : List Lexeme}
    (hn : n.Derives wn) (ha : Parenthesized InputValueDefinition.Derives as wa)
    (hs : Symbol .colon s) (ht : t.Derives wt) :
    FieldDefinition.Derives ⟨n, as, t⟩ (wn ++ (wa ++ (s ++ wt)))

/-- `{` FieldDefinition+ `}`. -/
abbrev FieldBlock : List FieldDefinition → List Lexeme → Prop :=
  Enclosed .braceOpen FieldDefinition.Derives .braceClose

/-- EnumValue: Name. -/
def EnumValueDefinition.Derives (d : EnumValueDefinition) (w : List Lexeme) : Prop :=
  d.name.Derives w

/-- The spellings of the interfaces of an object type. -/
inductive Interfaces : List Name → List Lexeme → Prop
  | none : Interfaces [] []
  /-- `implements` Name+. -/
  | some {ns : List Name} {wk w : List Lexeme} (hk : Reserved .implements wk)
    (h : Many Name.Derives ns w) (hne : ns ≠ []) : Interfaces ns (wk ++ w)

/-- `|` Name. -/
inductive Alternative : Name → List Lexeme → Prop
  | intro {n : Name} {p w : List Lexeme} (hp : Symbol .pipe p) (hn : n.Derives w) :
    Alternative n (p ++ w)

/-- `type` Name Interfaces FieldBlock. -/
inductive ObjectType.Derives : ObjectType → List Lexeme → Prop
  | intro {n : Name} {is : List Name} {fs : List FieldDefinition} {wk wn wi wf : List Lexeme}
    (hk : Reserved .type wk) (hn : n.Derives wn) (hi : Interfaces is wi) (hf : FieldBlock fs wf) :
    ObjectType.Derives ⟨n, is, fs⟩ (wk ++ (wn ++ (wi ++ wf)))

/-- The spellings of a type definition. -/
inductive TypeDefinition.Derives : TypeDefinition → List Lexeme → Prop
  /-- `scalar` Name. -/
  | scalar {n : Name} {wk wn : List Lexeme} (hk : Reserved .scalar wk) (hn : n.Derives wn) :
    TypeDefinition.Derives (.scalar ⟨n⟩) (wk ++ wn)
  | object {t : ObjectType} {w : List Lexeme} (h : t.Derives w) :
    TypeDefinition.Derives (.object t) w
  /-- `interface` Name FieldBlock. -/
  | interface {n : Name} {fs : List FieldDefinition} {wk wn wf : List Lexeme}
    (hk : Reserved .interface wk) (hn : n.Derives wn) (hf : FieldBlock fs wf) :
    TypeDefinition.Derives (.interface ⟨n, fs⟩) (wk ++ (wn ++ wf))
  /-- `union` Name `=` Name Alternative*. -/
  | union {n m : Name} {ms : List Name} {wk wn e wm ws : List Lexeme} (hk : Reserved .union wk)
    (hn : n.Derives wn) (he : Symbol .equals e) (hm : m.Derives wm) (hs : Many Alternative ms ws) :
    TypeDefinition.Derives (.union ⟨n, m :: ms⟩) (wk ++ (wn ++ (e ++ (wm ++ ws))))
  /-- `enum` Name `{` EnumValue+ `}`. -/
  | enum {n : Name} {vs : List EnumValueDefinition} {wk wn wv : List Lexeme}
    (hk : Reserved .enum wk) (hn : n.Derives wn)
    (hv : Enclosed .braceOpen EnumValueDefinition.Derives .braceClose vs wv) :
    TypeDefinition.Derives (.enum ⟨n, vs⟩) (wk ++ (wn ++ wv))
  /-- `input` Name `{` InputValueDefinition+ `}`. -/
  | inputObject {n : Name} {fs : List InputValueDefinition} {wk wn wf : List Lexeme}
    (hk : Reserved .input wk) (hn : n.Derives wn)
    (hf : Enclosed .braceOpen InputValueDefinition.Derives .braceClose fs wf) :
    TypeDefinition.Derives (.inputObject ⟨n, fs⟩) (wk ++ (wn ++ wf))

/-! ### Documents -/

/-- The spellings of a definition. -/
inductive Definition.Derives : Definition → List Lexeme → Prop
  | operation {d : OperationDefinition} {w : List Lexeme} (h : d.Derives w) :
    Definition.Derives (.operation d) w
  | fragment {d : FragmentDefinition} {w : List Lexeme} (h : d.Derives w) :
    Definition.Derives (.fragment d) w
  | type {d : TypeDefinition} {w : List Lexeme} (h : d.Derives w) : Definition.Derives (.type d) w
  /-- `extend` ObjectType. -/
  | extension {t : ObjectType} {wk w : List Lexeme} (hk : Reserved .extend wk) (h : t.Derives w) :
    Definition.Derives (.extension ⟨t⟩) (wk ++ w)

/-- Definition+. -/
inductive Document.Derives : Document → List Lexeme → Prop
  | intro {ds : List Definition} {w : List Lexeme} (h : Many Definition.Derives ds w)
    (hne : ds ≠ []) : Document.Derives ⟨ds⟩ w

end GraphQL
