/-
The rules of the grammar find its derivations.

* `Rule.read_value`, `Rule.read_typeRef`, `Rule.read_selectionSet` — what
  spells a nested construct is read as this construct, within a budget that
  covers its levels;
* `Reader.within_covers` — hence a budget covers all that is nested within it.

Design notes: there is one lemma for each production, by cases on its
derivation; what may follow a spelling is a hypothesis of the lemma.
-/
import GraphQL.Proofs.Grammar.Lookahead
import GraphQL.Proofs.Grammar.Soundness.Nested

namespace GraphQL

open Phrase

/-- What may not follow a nested construct, since it would be taken for more of it. -/
def Nested.stops : Nested → List TokenKind
  | value _ | selectionSet => []
  | typeRef => [.punctuator .bang]

/-- A reader finds everything that is nested within `b` levels. -/
structure Reader.Covers (k : Reader) (b : Nat) : Prop where
  goesOn : k.breaksOff = false
  enter {n : Nested} {t : n.Tree} {w rest : List Lexeme} (h : n.phrase b t w)
    (hrest : Avoids n.stops rest) : k.enter n (w ++ rest) = .accept t rest

/-! ### Where spellings start -/

/-- The kinds of lexemes that a value starts with. -/
def valueKinds : List TokenKind :=
  [.punctuator .bracketOpen, .punctuator .braceOpen, .punctuator .dollar, .name, .int, .float,
    .string]

theorem Value.Derives.opens {c : ValueContext} {v : Value} {w : List Lexeme}
    (h : v.Derives c w) : Opens valueKinds w := by
  cases h with
  | var _ h =>
    obtain ⟨hd, _⟩ := h
    exact (hd.opens.append _).mono (by decide)
  | int h | float h | string h => exact h.opens.mono (by decide)
  | true h | false h => exact h.opens.mono (by decide)
  | enum hx _ _ _ => exact ⟨_, [], rfl, by simp [hx, valueKinds]⟩
  | list ho _ _ | object ho _ _ => exact (ho.opens.append _).mono (by decide)

section Opens

variable {w : List Lexeme}

theorem ObjectField.Derives.opens {c : ValueContext} {f : ObjectField} (h : f.Derives c w) :
    Opens [.name] w := by
  obtain ⟨hn, _, _⟩ := h
  exact Opens.append (Terminal.opens hn) _

theorem Argument.Derives.opens {a : Argument} (h : a.Derives w) : Opens [.name] w := by
  obtain ⟨hn, _, _⟩ := h
  exact Opens.append (Terminal.opens hn) _

theorem Directive.Derives.opens {d : Directive} (h : d.Derives w) :
    Opens [.punctuator .atSign] w := by
  obtain ⟨hm, _, _⟩ := h
  exact hm.opens.append _

theorem Alias.opens {n : Name} (h : Alias n w) : Opens [.name] w := by
  obtain ⟨hn, _⟩ := h
  exact Opens.append (Terminal.opens hn) _

theorem SelectionSet.Derives.opens {ss : SelectionSet} (h : ss.Derives w) :
    Opens [.punctuator .braceOpen] w := by
  obtain ⟨ho, _, _, _⟩ := h
  exact ho.opens.append _

theorem Field.Derives.opens {f : Field} (h : f.Derives w) : Opens [.name] w := by
  obtain ⟨hl, hn, _, _, _⟩ := h
  cases hl with
  | none => exact Opens.append (Terminal.opens hn) _
  | some hl => exact hl.opens.append _

theorem Selection.Derives.opens {s : Selection} (h : s.Derives w) :
    Opens [.name, .punctuator .ellipsis] w := by
  cases h with
  | field h => exact h.opens.mono (by decide)
  | spread he _ _ | inline he _ _ _ => exact (he.opens.append _).mono (by decide)

end Opens

theorem Symbol.front_eq {p : Punctuator} {w : List Lexeme} (h : Symbol p w) (rest : List Lexeme) :
    (front (w ++ rest)).kind = .punctuator p := by
  simpa using (h.opens.append rest).front_mem

theorem Terminal.front_eq {t : TokenKind} {s : String} {w : List Lexeme} (h : Terminal t s w)
    (rest : List Lexeme) : (front (w ++ rest)).kind = t := by
  simpa using (h.opens.append rest).front_mem

namespace Rule

variable {k : Reader} {b : Nat} {w : List Lexeme}

theorem read_nested (hk : k.Covers b) {n : Nested} {t : n.Tree} (h : n.phrase b t w)
    {rest : List Lexeme} (hrest : Avoids n.stops rest) :
    (nested n).read k (w ++ rest) = .accept t rest := by
  show (k.enter n (w ++ rest)).andThen _ = _
  rw [hk.enter h hrest]
  rfl

/-! ### Values and types -/

theorem read_var (hk : k.Covers b) {v : Variable} (h : v.Derives w) (rest : List Lexeme) :
    var.read k (w ++ rest) = .accept v rest := by
  obtain ⟨hd, hn⟩ := h
  rw [var, List.append_assoc, read_symbol_bind hk.goesOn hd, read_name_bind hk.goesOn hn]
  rfl

/-- Nothing that follows can be taken for more of a value. -/
theorem read_nested_value (hk : k.Covers b) {c : ValueContext} {v : Value} (h : v.Derives c w)
    (hd : v.depth ≤ b) (rest : List Lexeme) :
    (nested (.value c)).read k (w ++ rest) = .accept v rest :=
  read_nested hk (n := .value c) ⟨h, hd⟩ (by simp [Avoids, Nested.stops])

theorem read_nested_typeRef (hk : k.Covers b) {t : TypeRef} (h : t.Derives w) (hd : t.depth ≤ b)
    {rest : List Lexeme} (hrest : Avoids [.punctuator .bang] rest) :
    (nested .typeRef).read k (w ++ rest) = .accept t rest :=
  read_nested hk (n := .typeRef) ⟨h, hd⟩ hrest

theorem read_nested_selectionSet (hk : k.Covers b) {ss : SelectionSet} (h : ss.Derives w)
    (hd : ss.depth ≤ b) (rest : List Lexeme) :
    (nested .selectionSet).read k (w ++ rest) = .accept ss rest :=
  read_nested hk (n := .selectionSet) ⟨h, hd⟩ (by simp [Avoids, Nested.stops])

theorem read_objectField (hk : k.Covers b) {c : ValueContext} {f : ObjectField}
    (h : f.Derives c w) (hd : f.value.depth ≤ b) (rest : List Lexeme) :
    (objectField c).read k (w ++ rest) = .accept f rest := by
  obtain ⟨hn, hs, hv⟩ := h
  rw [objectField, List.append_assoc, List.append_assoc, read_name_bind hk.goesOn hn,
    read_symbol_bind hk.goesOn hs, read_bind_accept (read_nested_value hk hv hd rest)]
  rfl

/-- A keyword in the place of a value is what it means, and any other name is
an enum value. -/
theorem nameValue_eq (x : Lexeme) (hx : x.kind = .name) :
    nameValue x =
      if x.isKeyword .trueLiteral then .ok (.boolean true)
      else if x.isKeyword .falseLiteral then .ok (.boolean false)
      else if x.isKeyword .nullLiteral then
        .error (.unexpected ["`null` is not a supported value literal"])
      else .ok (.enum x.text) := by
  simp only [Lexeme.isKeyword_iff, hx, true_and]
  rw [nameValue]
  split
  · next h => simp [h]
  · next h => simp [h]
  · next h => simp [h]
  · next ht hf hn => rw [if_neg ht, if_neg hf, if_neg hn]

theorem read_value (hk : k.Covers b) {c : ValueContext} {v : Value} (h : v.Derives c w)
    (hd : v.depth ≤ b + 1) (rest : List Lexeme) :
    (value c).read k (w ++ rest) = .accept v rest := by
  rw [value, read]
  cases h with
  | var hc h =>
    obtain ⟨hs, hn⟩ := h
    rw [List.append_assoc, hs.front_eq, hc, ← List.append_assoc]
    exact read_map_accept (read_var hk (.intro hs hn) rest) Value.var
  | int h =>
    rw [h.front_eq]
    exact read_map_accept (read_terminal hk.goesOn (by decide) h rest) Value.int
  | float h =>
    rw [h.front_eq]
    exact read_map_accept (read_terminal hk.goesOn (by decide) h rest) Value.float
  | string h =>
    rw [h.front_eq]
    exact read_map_accept (read_terminal hk.goesOn (by decide) h rest) Value.string
  | true h =>
    obtain ⟨hx⟩ := h
    have hn := (Lexeme.isKeyword_iff.1 hx).1
    rw [List.singleton_append, front_cons, hn]
    refine read_lexeme hk.goesOn (by simp [hn]) nameValue ?_ rest
    rw [nameValue_eq _ hn, if_pos hx]
  | false h =>
    obtain ⟨hx⟩ := h
    have hn := (Lexeme.isKeyword_iff.1 hx).1
    rw [List.singleton_append, front_cons, hn]
    refine read_lexeme hk.goesOn (by simp [hn]) nameValue ?_ rest
    rw [nameValue_eq _ hn, Lexeme.isKeyword_ne hx (by decide : _ ≠ Keyword.trueLiteral), hx]
    rfl
  | enum hx ht hf hn =>
    rw [List.singleton_append, front_cons, hx]
    refine read_lexeme hk.goesOn (by simp [hx]) nameValue ?_ rest
    rw [nameValue_eq _ hx, ht, hf, hn]
    rfl
  | list ho h he =>
    rw [List.append_assoc, ho.front_eq, ← List.append_assoc]
    have hitems := h.bounded (Value.depth_list_le_iff.1 hd)
    refine read_map_accept (read_zeroOrMore hk.goesOn (S := []) (fun v w h => h.1.opens)
      (fun v w rest h _ => ?_) (by decide) (by decide) ho hitems he rest) Value.list
    exact read_nested_value hk h.1 h.2 rest
  | object ho h he =>
    rw [List.append_assoc, ho.front_eq, ← List.append_assoc]
    have hfields := h.bounded (Value.depth_object_le_iff.1 hd)
    refine read_map_accept (read_zeroOrMore hk.goesOn (S := []) (fun f w h => h.1.opens)
      (fun f w rest h _ => ?_) (by decide) (by decide) ho hfields he rest) Value.object
    exact read_objectField hk h.1 h.2 rest

theorem read_nullableType (hk : k.Covers b) {t : TypeRef} (h : TypeRef.DerivesNullable t w)
    (hd : t.depth ≤ b + 1) (rest : List Lexeme) :
    nullableType.read k (w ++ rest) = .accept t rest := by
  rw [nullableType, read]
  cases h with
  | named hn =>
    have hname : (front (w ++ rest)).kind = .name := Terminal.front_eq hn rest
    rw [if_neg (by simp [Lexeme.hasKind, hname])]
    exact read_map_accept (read_name hk.goesOn hn rest) TypeRef.named
  | list ho h he =>
    have hitem : TypeRef.depth _ ≤ b := Nat.le_of_succ_le_succ hd
    rw [List.append_assoc, if_pos (ho.opens.hasKind _),
      read_symbol_bind hk.goesOn ho, List.append_assoc,
      read_bind_accept (read_nested_typeRef hk h hitem (he.opens.avoids (by decide))),
      read_symbol_bind hk.goesOn he]
    rfl

theorem read_typeRef (hk : k.Covers b) {t : TypeRef} (h : t.Derives w) (hd : t.depth ≤ b + 1)
    {rest : List Lexeme} (hrest : Avoids [.punctuator .bang] rest) :
    typeRef.read k (w ++ rest) = .accept t rest := by
  rw [typeRef_eq]
  cases h with
  | nullable h =>
    have hno := hrest.hasKind (by simp : .punctuator .bang ∈ _)
    rw [read_bind_accept (read_nullableType hk h hd rest),
      read_bind_accept (read_ifNext_none hno _)]
    rfl
  | nonNull h hb =>
    have hyes := hb.opens.hasKind rest
    obtain ⟨hx⟩ := hb
    rw [List.append_assoc, read_bind_accept (read_nullableType hk h hd _),
      read_bind_accept (read_ifNext_some hyes (read_terminal hk.goesOn (by simp) (.intro hx) rest))]
    rfl

/-! ### Selections -/

theorem read_argument (hk : k.Covers b) {a : Argument} (h : a.Derives w) (hd : a.value.depth ≤ b)
    (rest : List Lexeme) : argument.read k (w ++ rest) = .accept a rest := by
  obtain ⟨hn, hs, hv⟩ := h
  rw [argument, List.append_assoc, List.append_assoc, read_name_bind hk.goesOn hn,
    read_symbol_bind hk.goesOn hs, read_bind_accept (read_nested_value hk hv hd rest)]
  rfl

theorem read_arguments (hk : k.Covers b) {as : List Argument}
    (h : Parenthesized Argument.Derives as w) (hd : ∀ a ∈ as, a.value.depth ≤ b)
    {rest : List Lexeme} (hrest : Avoids [.punctuator .parenOpen] rest) :
    arguments.read k (w ++ rest) = .accept as rest := by
  obtain ⟨as?, hread, rfl⟩ := read_parenthesized hk.goesOn (S := []) (fun a w h => h.1.opens)
    (fun a w rest h _ => read_argument hk h.1 h.2 rest) (by decide) (by decide) (h.bounded hd) hrest
  rw [arguments, read_bind_accept hread]
  rfl

theorem read_directive (hk : k.Covers b) {d : Directive} (h : d.Derives w) (hd : d.depth ≤ b)
    {rest : List Lexeme} (hrest : Avoids [.punctuator .parenOpen] rest) :
    directive.read k (w ++ rest) = .accept d rest := by
  obtain ⟨hm, hn, ha⟩ := h
  rw [directive, List.append_assoc, List.append_assoc, read_symbol_bind hk.goesOn hm,
    read_name_bind hk.goesOn hn,
    read_bind_accept (read_arguments hk ha (argumentsDepth_le_iff.1 hd) hrest)]
  rfl

theorem read_directives (hk : k.Covers b) {ds : List Directive} (h : Many Directive.Derives ds w)
    (hd : ∀ d ∈ ds, d.depth ≤ b) {rest : List Lexeme}
    (hrest : Avoids [.punctuator .parenOpen, .punctuator .atSign] rest) :
    directives.read k (w ++ rest) = .accept ds rest := by
  refine read_many (fun d w h => h.1.opens) (fun x hx => ?_)
    (fun d w rest h hrest => read_directive hk h.1 h.2 hrest) (by decide) (h.bounded hd)
    (hrest.hasKind (by decide)) (hrest.mono (by decide))
  simpa [Lexeme.hasKind] using hx

/-- What may not follow a field. -/
def fieldStops : List TokenKind :=
  [.punctuator .colon, .punctuator .parenOpen, .punctuator .atSign, .punctuator .braceOpen]

theorem read_field (hk : k.Covers b) {f : Field} (h : f.Derives w) (hd : f.depth ≤ b)
    {rest : List Lexeme} (hrest : Avoids fieldStops rest) :
    field.read k (w ++ rest) = .accept f rest := by
  cases h with
  | @intro a? n as ds ss? wl wn wa wd ws hl hn ha hm hs =>
    obtain ⟨hda, hdm, hds⟩ := Field.depth_le_iff.1 hd
    -- From the back to the front: what follows a part does not start like the part before it.
    have hset : Avoids [.punctuator .colon, .punctuator .parenOpen, .punctuator .atSign]
        (ws ++ rest) :=
      (hs.mayOpen fun _ _ h => h.opens).avoids (by decide) (hrest.mono (by decide))
    have hmarks : Avoids [.punctuator .colon, .punctuator .parenOpen] (wd ++ (ws ++ rest)) :=
      (hm.mayOpen fun _ _ h => h.opens).avoids (by decide) (hset.mono (by decide))
    have hargs : Avoids [.punctuator .colon] (wa ++ (wd ++ (ws ++ rest))) :=
      ha.mayOpen.avoids (by decide) (hmarks.mono (by decide))
    have hbelow : (ifNext (Lexeme.hasKind Punctuator.braceOpen) (nested .selectionSet)).read k
        (ws ++ rest) = .accept ss? rest :=
      read_ifNext (hs.bounded hds) (fun _ _ h => h.1.opens)
        (fun _ _ h => read_nested_selectionSet hk h.1 h.2 rest) (hrest.mono (by decide))
    rw [field_eq]
    simp only [List.append_assoc]
    -- The first name is the alias only if a colon follows.
    cases hl with
    | none =>
      rw [List.nil_append, read_name_bind hk.goesOn hn,
        read_bind_accept (read_ifNext_none (hargs.hasKind (by decide)) _),
        read_bind_accept (read_arguments hk ha hda (hmarks.mono (by decide))),
        read_bind_accept (read_directives hk hm hdm (hset.mono (by decide))),
        read_bind_accept hbelow]
      rfl
    | some hl =>
      obtain ⟨hm', hc⟩ := hl
      rw [List.append_assoc, read_name_bind hk.goesOn hm',
        read_bind_accept (read_ifNext_some (hc.opens.hasKind _) (by
          rw [read_symbol_bind hk.goesOn hc]
          exact read_name hk.goesOn hn _)),
        read_bind_accept (read_arguments hk ha hda (hmarks.mono (by decide))),
        read_bind_accept (read_directives hk hm hdm (hset.mono (by decide))),
        read_bind_accept hbelow]
      rfl

theorem read_fragmentName (hk : k.Covers b) {n : Name} (h : FragmentName n w)
    (rest : List Lexeme) : fragmentName.read k (w ++ rest) = .accept n rest := by
  obtain ⟨hx, hon⟩ := h
  rw [fragmentName, read, List.singleton_append, front_cons, if_neg (by simp [hon]),
    ← List.singleton_append]
  exact read_name hk.goesOn (.intro hx : Name.Derives ⟨_⟩ _) rest

/-- A type condition is found by the keyword in front of it. -/
theorem read_typeCondition (hk : k.Covers b) {t? : Option Name} (h : Maybe TypeCondition t? w)
    {rest : List Lexeme} (hrest : Avoids [.name] rest) :
    (ifNext (Lexeme.isKeyword .on) (keyword .on >>= fun _ => name)).read k (w ++ rest) =
      .accept t? rest := by
  cases h with
  | none =>
    refine read_ifNext_none ?_ _
    rw [← Bool.not_eq_true, List.nil_append, Lexeme.isKeyword_iff]
    exact fun hon => hrest (by simp [hon.1])
  | some h =>
    obtain ⟨ho, hn⟩ := h
    obtain ⟨hx⟩ := ho
    refine read_ifNext_some hx ?_
    rw [List.append_assoc, read_keyword_bind hk.goesOn (.intro hx)]
    exact read_name hk.goesOn hn rest

/-- Dots and a name other than `on` can only be a spread. -/
theorem read_spread (hk : k.Covers b) {n : Name} {ds : List Directive}
    {e wn wd rest : List Lexeme} (he : Symbol .ellipsis e) (hn : FragmentName n wn)
    (hm : Many Directive.Derives ds wd) (hd : ∀ d ∈ ds, d.depth ≤ b)
    (hrest : Avoids [.punctuator .parenOpen, .punctuator .atSign] rest) :
    fragment.read k (e ++ (wn ++ wd) ++ rest) = .accept (.spread ⟨n, ds⟩) rest := by
  have hspread : ((front (wn ++ (wd ++ rest))).hasKind .name &&
      !(front (wn ++ (wd ++ rest))).isKeyword .on) = true := by
    obtain ⟨hx, hon⟩ := hn
    simp [Lexeme.hasKind, hx, hon]
  rw [fragment, List.append_assoc, List.append_assoc, read_symbol_bind hk.goesOn he, read,
    if_pos hspread, read_bind_accept (read_fragmentName hk hn _),
    read_bind_accept (read_directives hk hm hd hrest)]
  rfl

/-- Dots and anything else can only be a fragment in place. -/
theorem read_inline (hk : k.Covers b) {t? : Option Name} {ds : List Directive}
    {ss : SelectionSet} {e wt wd ws : List Lexeme} (he : Symbol .ellipsis e)
    (ht : Maybe TypeCondition t? wt) (hm : Many Directive.Derives ds wd) (hs : ss.Derives ws)
    (hd : InlineFragment.depth ⟨t?, ds, ss⟩ ≤ b) (rest : List Lexeme) :
    fragment.read k (e ++ (wt ++ (wd ++ ws)) ++ rest) = .accept (.inline ⟨t?, ds, ss⟩) rest := by
  obtain ⟨hdm, hds⟩ := InlineFragment.depth_le_iff.1 hd
  have hset : Avoids [.name, .punctuator .parenOpen, .punctuator .atSign] (ws ++ rest) :=
    hs.opens.avoids (by decide)
  have hmarks : Avoids [.name] (wd ++ (ws ++ rest)) :=
    (hm.mayOpen fun _ _ h => h.opens).avoids (by decide) (hset.mono (by decide))
  -- Only a name other than `on` makes a spread, and no inline fragment goes on with one.
  have hinline : ¬((front (wt ++ (wd ++ (ws ++ rest)))).hasKind .name &&
      !(front (wt ++ (wd ++ (ws ++ rest)))).isKeyword .on) = true := by
    cases ht with
    | none => rw [List.nil_append, hmarks.hasKind (by simp)]; simp
    | some ht =>
      obtain ⟨⟨hx⟩, _⟩ := ht
      simp [hx]
  simp only [List.append_assoc]
  rw [fragment, read_symbol_bind hk.goesOn he, read, if_neg hinline,
    read_bind_accept (read_typeCondition hk ht hmarks),
    read_bind_accept (read_directives hk hm hdm (hset.mono (by decide))),
    read_bind_accept (read_nested_selectionSet hk hs hds rest)]
  rfl

theorem read_selection (hk : k.Covers b) {s : Selection} (h : s.Derives w) (hd : s.depth ≤ b)
    {rest : List Lexeme} (hrest : Avoids fieldStops rest) :
    selection.read k (w ++ rest) = .accept s rest := by
  rw [selection, read]
  cases h with
  | field h =>
    have hname : Avoids [.punctuator .ellipsis] (w ++ rest) := h.opens.avoids (by decide)
    rw [hname.hasKind (by simp)]
    exact read_map_accept (read_field hk h hd hrest) Selection.field
  | spread he hn hm =>
    rw [if_pos ((he.opens.append _).hasKind rest)]
    exact read_spread hk he hn hm (directivesDepth_le_iff.1 hd) (hrest.mono (by decide))
  | inline he ht hm hs =>
    rw [if_pos ((he.opens.append _).hasKind rest)]
    exact read_inline hk he ht hm hs hd rest

theorem read_selectionSet (hk : k.Covers b) {ss : SelectionSet} (h : ss.Derives w)
    (hd : ss.depth ≤ b + 1) (rest : List Lexeme) :
    selectionSet.read k (w ++ rest) = .accept ss rest := by
  obtain ⟨ho, h, hne, he⟩ := h
  have hitems := Enclosed.intro ho (h.bounded (SelectionSet.depth_le_iff.1 hd)) hne he
  exact read_map_accept (read_oneOrMore hk.goesOn (fun s w h => h.1.opens)
    (fun s w rest h hrest => read_selection hk h.1 h.2 hrest) (by decide) (by decide) hitems rest)
    SelectionSet.mk

end Rule

/-- A budget of levels is enough for all that is nested within them. -/
theorem Reader.within_covers (budget : Nat) : (within false budget).Covers budget := by
  induction budget with
  | zero =>
    refine ⟨by simp, fun {n t w rest} h _ => ?_⟩
    -- Every nested construct is a level of its own.
    have hpos : 1 ≤ n.depth t := by
      cases n with
      | value c => cases t <;> simp [Nested.depth, Value.depth]
      | typeRef => exact TypeRef.depth_pos t
      | selectionSet => cases t; simp [Nested.depth, SelectionSet.depth]
    have := h.2
    omega
  | succ budget ih =>
    refine ⟨by simp, fun {n t w rest} h hrest => ?_⟩
    show n.rule.read (within false budget) (w ++ rest) = .accept t rest
    cases n with
    | value c => exact Rule.read_value ih h.1 h.2 rest
    | typeRef => exact Rule.read_typeRef ih h.1 h.2 hrest
    | selectionSet => exact Rule.read_selectionSet ih h.1 h.2 rest

end GraphQL
