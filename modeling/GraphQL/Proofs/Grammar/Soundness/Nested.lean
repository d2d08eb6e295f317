/-
The rules of the grammar keep to its derivations.

* `Rule.value_keeps`, `Rule.typeRef_keeps`, `Rule.selectionSet_keeps` — the
  nested constructs, one level above what the reader provides;
* `Reader.within_keeps` — hence every reader keeps to the grammar.

Design notes: the phrase of a rule is composed along the rule, and then shown
to be covered by the derivations of its kind of part.
-/
import GraphQL.Proofs.Grammar.Phrase

namespace GraphQL

open Phrase

/-- What spells a nested construct. -/
def Nested.Derives : (n : Nested) → n.Tree → List Lexeme → Prop
  | value c => Value.Derives c
  | typeRef => TypeRef.Derives
  | selectionSet => SelectionSet.Derives

/-- The levels of a nested construct. -/
def Nested.depth : (n : Nested) → n.Tree → Nat
  | value _ => Value.depth
  | typeRef => TypeRef.depth
  | selectionSet => SelectionSet.depth

/-- The spellings of a nested construct within some levels. -/
abbrev Nested.phrase (n : Nested) : Phrase n.Tree := within n.Derives n.depth

/-- The spellings of a nested construct, whose inside is within some levels. -/
def Nested.above (n : Nested) : Phrase n.Tree := fun m => n.phrase (m + 1)

/-- A reader keeps to the grammar within `b` levels. -/
def Reader.Keeps (k : Reader) (b : Nat) : Prop :=
  ∀ n ws, (k.enter n ws).Keeps n.phrase b ws

namespace Rule

variable {k : Reader} {b : Nat}

theorem name_keeps : name.Keeps k b (flat Name.Derives) := by
  refine ((Keeps.expect .name).map Name.mk).mono ?_
  rintro m n w ⟨t, ht, rfl⟩
  exact ht

theorem var_keeps : var.Keeps k b (flat Variable.Derives) := by
  refine ((Keeps.symbol .dollar).bind fun _ => name_keeps.bind_pure Variable.mk).mono ?_
  rintro m v w ⟨_, d, _, hd, ⟨n, hn, rfl⟩, rfl⟩
  exact .intro hd hn

/-! ### Spellings of nested constructs -/

theorem viable_nested (n : Nested) : n.phrase.Viable [] := by
  cases n with
  | value c =>
    exact .of_derives (Value.Derives.int (Terminal.intro (x := ⟨.int, none⟩) rfl))
  | typeRef =>
    exact .of_derives (.nullable (.named (Terminal.intro (x := ⟨.name, none⟩) rfl :
      Name.Derives ⟨_⟩ _)))
  | selectionSet =>
    have hn : Name.Derives ⟨_⟩ _ := Terminal.intro (x := ⟨.name, none⟩) rfl
    have hf : Field.Derives _ _ := .intro .none hn .none .nil .none
    exact .of_derives (SelectionSet.Derives.intro
      (.intro (rfl : (Lexeme.ofPunctuator .braceOpen).kind = _)) (.cons (.field hf) .nil) (by simp)
      (.intro (rfl : (Lexeme.ofPunctuator .braceClose).kind = _)))

theorem viable_above (n : Nested) : n.above.Viable [] := by
  obtain ⟨t, w, m, h⟩ := viable_nested n
  exact ⟨t, w, m, fun b hb => h (b + 1) (by omega)⟩

theorem nested_keeps (hk : k.Keeps b) (n : Nested) : (nested n).Keeps k b n.phrase := by
  refine ⟨viable_nested n, fun ws => ?_⟩
  show ((k.enter n ws).andThen _).Keeps _ _ _
  have h := hk n ws
  generalize k.enter n ws = v at h
  cases v <;> exact h

/-! ### Values and types -/

theorem objectField_keeps (hk : k.Keeps b) (c : ValueContext) :
    (objectField c).Keeps k b (within (ObjectField.Derives c) (·.value.depth)) := by
  refine (name_keeps.bind fun n => (Keeps.symbol .colon).bind fun _ =>
    (nested_keeps hk (.value c)).bind_pure (ObjectField.mk n)).mono ?_
  rintro m f w ⟨n, u, _, hn, ⟨_, s, _, hs, ⟨v, hv, rfl⟩, rfl⟩, rfl⟩
  exact ⟨.intro hn hs hv.1, hv.2⟩

/-- What a name in the place of a value means. -/
theorem nameValue_eq_ok {x : Lexeme} {v : Value} {c : ValueContext} (hx : x.kind = .name)
    (h : nameValue x = .ok v) : v.Derives c [x] ∧ v.depth = 1 := by
  rw [nameValue] at h
  split at h
  · next ht =>
    cases h
    exact ⟨.true (.intro (Lexeme.isKeyword_iff.2 ⟨hx, ht⟩)), rfl⟩
  · next hf =>
    cases h
    exact ⟨.false (.intro (Lexeme.isKeyword_iff.2 ⟨hx, hf⟩)), rfl⟩
  · cases h
  · next ht hf hn =>
    cases h
    have hno {r : Keyword} (hr : x.value.bind Keyword.ofText? ≠ some r) :
        x.isKeyword r = false := by
      rw [← Bool.not_eq_true, Lexeme.isKeyword_iff]
      exact fun h => hr h.2
    exact ⟨.enum hx (hno ht) (hno hf) (hno hn), rfl⟩

/-- Of all names only `null` is refused in the place of a value. -/
theorem nameValue_eq_error {x : Lexeme} {r : Refusal} (hx : x.kind = .name)
    (h : nameValue x = .error r) : x.isKeyword .nullLiteral = true := by
  rw [nameValue] at h
  split at h
  · cases h
  · cases h
  · next hn => exact Lexeme.isKeyword_iff.2 ⟨hx, hn⟩
  · cases h

theorem literal_keeps {c : ValueContext} {t : TokenKind} {f : String → Value}
    (hd : ∀ {s w}, Terminal t s w → (f s).Derives c w) (hf : ∀ s, (f s).depth = 1) :
    (f <$> Rule.expect t).Keeps k b (Nested.value c).above := by
  refine ((Keeps.expect t).map f).mono ?_
  rintro m v w ⟨s, hs, rfl⟩
  exact ⟨hd hs, by simp [Nested.depth, hf]⟩

theorem value_keeps (hk : k.Keeps b) (c : ValueContext) :
    (value c).Keeps k b (Nested.value c).above := by
  have hp := viable_above (.value c)
  -- A name is judged once it is taken, so the lexeme itself has to be kept in view.
  refine ⟨hp, fun ws => ?_⟩
  rw [value, Rule.read]
  split
  · refine (((nested_keeps hk (.value c)).zeroOrMore .bracketOpen .bracketClose).map
      Value.list |>.mono ?_).read ws
    rintro m v w ⟨vs, ⟨o, u, e, ho, hv, he, rfl⟩, rfl⟩
    exact ⟨.list ho hv.within.1 he, Value.depth_list_le_iff.2 hv.within.2⟩
  · refine (((objectField_keeps hk c).zeroOrMore .braceOpen .braceClose).map
      Value.object |>.mono ?_).read ws
    rintro m v w ⟨vs, ⟨o, u, e, ho, hv, he, rfl⟩, rfl⟩
    exact ⟨.object ho hv.within.1 he, Value.depth_object_le_iff.2 hv.within.2⟩
  · exact (literal_keeps .int fun _ => rfl).read ws
  · exact (literal_keeps .float fun _ => rfl).read ws
  · exact (literal_keeps .string fun _ => rfl).read ws
  · next hx =>
    rw [read_take_done]
    refine Reader.take_keeps hp (fun v hv m _ => ?_) fun r => nameValue_eq_error hx
    obtain ⟨hd, h1⟩ := nameValue_eq_ok hx hv
    exact ⟨hd, by simp [Nested.depth, h1]⟩
  · split
    · next hc =>
      refine ((var_keeps.map Value.var).mono ?_).read ws
      rintro m v w ⟨u, hu, rfl⟩
      exact ⟨.var (by cases c <;> simp [ValueContext.objection?] at hc ⊢) hu, by
        simp [Nested.depth, Value.depth]⟩
    · exact (Keeps.refuse hp _).read ws
  · exact (Keeps.refuse hp _).read ws

theorem nullableType_keeps (hk : k.Keeps b) :
    nullableType.Keeps k b fun m t w => TypeRef.DerivesNullable t w ∧ t.depth ≤ m + 1 := by
  refine .look fun x => .ite (fun _ => ?_) fun _ => ?_
  · refine ((Keeps.symbol .bracketOpen).bind fun _ => (nested_keeps hk .typeRef).bind fun t =>
      (Keeps.symbol .bracketClose).bind_pure fun _ => TypeRef.list t).mono ?_
    rintro m t w ⟨_, o, _, ho, ⟨i, u, _, hi, ⟨_, he, rfl⟩, rfl⟩, rfl⟩
    exact ⟨.list ho hi.1 he, Nat.succ_le_succ hi.2⟩
  · refine (name_keeps.map TypeRef.named).mono ?_
    rintro m t w ⟨n, hn, rfl⟩
    exact ⟨.named hn, by simp [TypeRef.depth]⟩

/-- A type with its non-null mark, if it has one. -/
def marked (t : TypeRef) (mark? : Option String) : TypeRef :=
  if mark?.isSome then .nonNull t else t

theorem typeRef_eq :
    typeRef = nullableType >>= fun t =>
      ifNext (Lexeme.hasKind Punctuator.bang) (Rule.expect Punctuator.bang) >>= fun mark? =>
        pure (marked t mark?) := by
  rw [typeRef]
  congr
  funext t
  congr
  funext mark?
  cases mark? <;> rfl

theorem typeRef_keeps (hk : k.Keeps b) : typeRef.Keeps k b Nested.typeRef.above := by
  rw [typeRef_eq]
  refine ((nullableType_keeps hk).bind fun t =>
    (Keeps.symbol .bang).ifNext.bind_pure (marked t)).mono ?_
  rintro m t w ⟨i, u, v, ⟨hi, hd⟩, ⟨o, ho, rfl⟩, rfl⟩
  cases ho with
  | none =>
    rw [List.append_nil]
    exact ⟨.nullable hi, hd⟩
  | some hb => exact ⟨.nonNull hi hb, hd⟩

/-! ### Selections -/

theorem argument_keeps (hk : k.Keeps b) :
    argument.Keeps k b (within Argument.Derives (·.value.depth)) := by
  refine (name_keeps.bind fun n => (Keeps.symbol .colon).bind fun _ =>
    (nested_keeps hk (.value .argument)).bind_pure (Argument.mk n)).mono ?_
  rintro m a w ⟨n, u, _, hn, ⟨_, s, _, hs, ⟨v, hv, rfl⟩, rfl⟩, rfl⟩
  exact ⟨.intro hn hs hv.1, hv.2⟩

theorem arguments_keeps (hk : k.Keeps b) :
    arguments.Keeps k b fun m as w =>
      Parenthesized Argument.Derives as w ∧ ∀ a ∈ as, a.value.depth ≤ m := by
  refine (((argument_keeps hk).oneOrMore .parenOpen .parenClose).ifNext.bind_pure
    (Option.getD · [])).mono ?_
  rintro m as w ⟨as?, h, rfl⟩
  exact Parenthesized.of_maybe h

theorem directive_keeps (hk : k.Keeps b) :
    directive.Keeps k b (within Directive.Derives Directive.depth) := by
  refine ((Keeps.symbol .atSign).bind fun _ => name_keeps.bind fun n =>
    (arguments_keeps hk).bind_pure (Directive.mk n)).mono ?_
  rintro m d w ⟨_, s, _, hs, ⟨n, u, _, hn, ⟨as, ⟨ha, hd⟩, rfl⟩, rfl⟩, rfl⟩
  exact ⟨.intro hs hn ha, argumentsDepth_le_iff.2 hd⟩

theorem directives_keeps (hk : k.Keeps b) :
    directives.Keeps k b (within Directive.Derives Directive.depth).many :=
  (directive_keeps hk).many

/-- The name of a field whose first name is an alias if there is a second. -/
def named (first : Name) : Option Name → Option Name × Name
  | some second => (some first, second)
  | none => (none, first)

theorem field_eq :
    field = name >>= fun first =>
      ifNext (Lexeme.hasKind Punctuator.colon)
        (Rule.expect Punctuator.colon >>= fun _ => name) >>= fun second =>
      arguments >>= fun as => directives >>= fun ds =>
      ifNext (Lexeme.hasKind Punctuator.braceOpen) (nested .selectionSet) >>= fun ss? =>
        pure ⟨(named first second).1, (named first second).2, as, ds, ss?⟩ := by
  rw [field]
  congr
  funext first
  congr
  funext second
  congr
  funext as
  congr
  funext ds
  congr
  funext ss?
  cases second <;> rfl

theorem field_keeps (hk : k.Keeps b) : field.Keeps k b (within Field.Derives Field.depth) := by
  rw [field_eq]
  refine (name_keeps.bind fun first =>
    ((Keeps.symbol .colon).bind fun _ => name_keeps).ifNext.bind fun second =>
    (arguments_keeps hk).bind fun as => (directives_keeps hk).bind fun ds =>
    (nested_keeps hk .selectionSet).ifNext.bind_pure fun ss? =>
      (⟨(named first second).1, (named first second).2, as, ds, ss?⟩ : Field)).mono ?_
  rintro m f w ⟨first, u, _, hn, ⟨second, v, _, hs, ⟨as, wa, _, ⟨ha, hda⟩, ⟨ds, wd, _, hd,
    ⟨ss?, hss, rfl⟩, rfl⟩, rfl⟩, rfl⟩, rfl⟩
  have hdepth : (Field.mk (named first second).1 (named first second).2 as ds ss?).depth ≤ m :=
    Field.depth_le_iff.2 ⟨hda, hd.within.2, hss.within.2⟩
  refine ⟨?_, hdepth⟩
  cases hs with
  | none =>
    have h := Field.Derives.intro .none hn ha hd.within.1 hss.within.1
    exact h
  | some hs =>
    obtain ⟨_, c, x, hc, hx, rfl⟩ := hs
    have h := Field.Derives.intro (.some (.intro hn hc)) hx ha hd.within.1 hss.within.1
    simpa only [List.append_assoc, named] using h

theorem fragmentName_keeps : fragmentName.Keeps k b (flat FragmentName) := by
  have hp : (flat FragmentName).Viable [] :=
    ⟨⟨""⟩, [⟨.name, none⟩], 0, fun _ _ => FragmentName.intro (x := ⟨.name, none⟩) rfl rfl⟩
  -- The lexeme that is refused as `on` is the one that would be taken as a name.
  refine ⟨hp, fun ws => ?_⟩
  rw [fragmentName, Rule.read]
  split
  · exact ⟨[], rfl, hp⟩
  · next hon =>
    rw [name, read_map_expect]
    split
    · next hx =>
      refine Reader.take_keeps hp (fun n hn m _ => ?_) (fun e he => ?_)
      · cases hn
        exact .intro hx (by simpa using hon)
      · cases he
    · exact ⟨[], rfl, hp⟩

/-- The spellings of what follows the dots of a fragment. -/
def afterDots (s : Selection) (w : List Lexeme) : Prop :=
  ∀ e, Symbol .ellipsis e → s.Derives (e ++ w)

theorem fragment_keeps (hk : k.Keeps b) :
    fragment.Keeps k b (within Selection.Derives Selection.depth) := by
  -- What is read behind the dots depends on the lexeme there, so the dots are split off.
  have htail : ∀ x : Lexeme, Rule.Keeps k b
      (if x.hasKind .name && !x.isKeyword .on then
        fragmentName >>= fun n => directives >>= fun ds => pure (Selection.spread ⟨n, ds⟩)
      else
        ifNext (Lexeme.isKeyword .on) (Rule.keyword .on >>= fun _ => name) >>= fun t? =>
        directives >>= fun ds => nested .selectionSet >>= fun ss =>
          pure (Selection.inline ⟨t?, ds, ss⟩))
      (within afterDots Selection.depth) := by
    intro x
    refine .ite (fun _ => ?_) fun _ => ?_
    · refine (fragmentName_keeps.bind fun n =>
        (directives_keeps hk).bind_pure fun ds => Selection.spread ⟨n, ds⟩).mono ?_
      rintro m s w ⟨n, wn, wd, hn, ⟨ds, hd, rfl⟩, rfl⟩
      exact ⟨fun e he => .spread he hn hd.within.1, directivesDepth_le_iff.2 hd.within.2⟩
    · refine (((Keeps.keyword .on).bind fun _ => name_keeps).ifNext.bind fun t? =>
        (directives_keeps hk).bind fun ds => (nested_keeps hk .selectionSet).bind_pure fun ss =>
          Selection.inline ⟨t?, ds, ss⟩).mono ?_
      rintro m s w ⟨t?, wt, _, ht, ⟨ds, wd, ws, hd, ⟨ss, hss, rfl⟩, rfl⟩, rfl⟩
      have hc : Maybe TypeCondition t? wt := by
        cases ht with
        | none => exact .none
        | some h =>
          obtain ⟨_, o, u, ho, hn, rfl⟩ := h
          exact .some (.intro ho hn)
      exact ⟨fun e he => .inline he hc hd.within.1 hss.1,
        InlineFragment.depth_le_iff.2 ⟨hd.within.2, hss.2⟩⟩
  refine ((Keeps.symbol .ellipsis).bind fun _ => Keeps.look htail).mono ?_
  rintro m s w ⟨_, e, u, he, ⟨hs, hd⟩, rfl⟩
  exact ⟨hs e he, hd⟩

theorem selection_keeps (hk : k.Keeps b) :
    selection.Keeps k b (within Selection.Derives Selection.depth) := by
  refine .look fun x => .ite (fun _ => fragment_keeps hk) fun _ => ?_
  refine ((field_keeps hk).map Selection.field).mono ?_
  rintro m s w ⟨f, hf, rfl⟩
  exact ⟨.field hf.1, hf.2⟩

theorem selectionSet_keeps (hk : k.Keeps b) :
    selectionSet.Keeps k b Nested.selectionSet.above := by
  refine (((selection_keeps hk).oneOrMore .braceOpen .braceClose).map SelectionSet.mk).mono ?_
  rintro m s w ⟨ss, hss, rfl⟩
  obtain ⟨ho, h, hne, he⟩ := hss.within.1
  exact ⟨.intro ho h hne he, SelectionSet.depth_le_iff.2 hss.within.2⟩

end Rule

theorem Nested.rule_keeps {k : Reader} {b : Nat} (hk : k.Keeps b) (n : Nested) :
    n.rule.Keeps k b n.above := by
  cases n with
  | value c => exact Rule.value_keeps hk c
  | typeRef => exact Rule.typeRef_keeps hk
  | selectionSet => exact Rule.selectionSet_keeps hk

/-- Whatever its budget, a reader keeps to the grammar within this budget. -/
theorem Reader.within_keeps (breaksOff : Bool) (budget : Nat) :
    (within breaksOff budget).Keeps budget := by
  -- What is viable inside a construct is so with one level more for the construct.
  have hviable {n : Nested} {w : List Lexeme} (h : n.above.Viable w) : n.phrase.Viable w := by
    obtain ⟨t, v, m, ht⟩ := h
    refine ⟨t, v, m + 1, fun c hc => ?_⟩
    obtain ⟨c, rfl⟩ : ∃ d, c = d + 1 := ⟨c - 1, by omega⟩
    exact ht c (by omega)
  induction budget with
  | zero => exact fun n ws => ⟨[], rfl, Rule.viable_nested n⟩
  | succ budget ih =>
    intro n ws
    have h := (n.rule_keeps ih).read ws
    show (n.rule.read (within breaksOff budget) ws).Keeps n.phrase (budget + 1) ws
    cases hv : n.rule.read (within breaksOff budget) ws with
    | accept t rest =>
      rw [hv] at h
      obtain ⟨w, hw, ht⟩ := h
      refine ⟨w, hw, fun m hm => ?_⟩
      -- A construct takes one level of the budget, and what is inside it has the others.
      obtain ⟨m, rfl⟩ : ∃ c, m = c + 1 := ⟨m - 1, by omega⟩
      exact ht m (by omega)
    | refuse _ rest | tooDeep rest =>
      rw [hv] at h
      obtain ⟨w, hw, h⟩ := h
      exact ⟨w, hw, hviable h⟩
    | broken =>
      rw [hv] at h
      obtain ⟨w, rest, hw, h, hr⟩ := h
      exact ⟨w, rest, hw, hviable h, hr⟩

end GraphQL
