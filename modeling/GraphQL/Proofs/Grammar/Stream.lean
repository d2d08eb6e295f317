/-
Streams and the lexemes they show.

A token stream that is about to show some tokens behaves on every rule as the
list of their lexemes does.

* `TokenStream.Shows` — the tokens that a stream has still to show;
* `Rule.read_describes` — following a rule along a stream and along a list of
  lexemes leads to the same;
* `Document.ofItems_eq_ok_iff`, `Document.ofItems_eq_error` — when a document
  is read from items, and which token an error is about.

Design notes: the items of a source are tokens up to the first fault, if there
is one; nothing behind a fault is ever asked for.  A source without a fault is
continued by the end of the input, placed behind its last token.
-/
import GraphQL.Proofs.Grammar.Verdict

namespace GraphQL

/-- The place behind the last of some tokens. -/
def endOf (ts : List Token) : Position := (ts.getLast?.map (·.span.stop)).getD .zero

@[simp] theorem endOf_append_singleton (ts : List Token) (t : Token) :
    endOf (ts ++ [t]) = t.span.stop := by
  simp [endOf]

/-- Before the first token stands the end of the input that a fresh stream shows. -/
theorem endOf_endAt_zero_cons (ts : List Token) : endOf (.endAt .zero :: ts) = endOf ts := by
  cases ts <;> rfl

/-- The token in view while `us`, the last of the tokens `all`, are left. -/
def viewed (all us : List Token) : Token :=
  match us with
  | [] => .endAt (endOf all)
  | t :: _ => t

/-- The token in view while as many of the tokens `all` are left as there are
lexemes in `rest`. -/
def blamed (all : List Token) (rest : List Lexeme) : Token :=
  viewed all (all.drop (all.length - rest.length))

theorem blamed_map_toLexeme (pre us : List Token) :
    blamed (pre ++ us) (us.map Token.toLexeme) = viewed (pre ++ us) us := by
  simp [blamed]

/-- What a source holds behind the tokens it starts with: nothing, or a fault. -/
def IsTail (tail : List Item) : Prop := tail = [] ∨ ∃ e more, tail = .error e :: more

/-- A source starts with a fault, or it is made of tokens and what is behind them. -/
theorem items_cases (items : List Item) :
    (∃ e more, items = .error e :: more) ∨
      ∃ (ts : List Token) (tail : List Item), items = ts.map .ok ++ tail ∧ IsTail tail ∧
        (ts ≠ [] ∨ tail = []) := by
  induction items with
  | nil => exact .inr ⟨[], [], rfl, .inl rfl, .inr rfl⟩
  | cons item items ih =>
    cases item with
    | error e => exact .inl ⟨e, items, rfl⟩
    | ok t =>
      rcases ih with ⟨e, more, rfl⟩ | ⟨ts, tail, rfl, htail, _⟩
      · exact .inr ⟨[t], _, rfl, .inr ⟨e, more, rfl⟩, .inl (by simp)⟩
      · exact .inr ⟨t :: ts, tail, rfl, htail, .inl (by simp)⟩

/-- The stream shows the tokens `us`, the last of `all`, one after the other.
Behind them come the items `tail`. -/
inductive TokenStream.Shows (all : List Token) (tail : List Item) : TokenStream → List Token → Prop
  | stop {s : TokenStream} (hc : s.current = .endAt (endOf all)) (ht : tail = []) :
    Shows all tail s []
  | more {s : TokenStream} {t : Token} {pre us : List Token} (ha : all = pre ++ t :: us)
      (hc : s.current = t) (hr : s.rest = us.map .ok ++ tail) : Shows all tail s (t :: us)

namespace TokenStream.Shows

variable {all us : List Token} {tail : List Item} {s : TokenStream}

theorem current_eq (h : s.Shows all tail us) : s.current = blamed all (us.map Token.toLexeme) := by
  cases h with
  | stop hc _ => simpa [blamed, viewed] using hc
  | more ha hc _ =>
    subst ha
    rw [blamed_map_toLexeme]
    exact hc

theorem front_eq (h : s.Shows all tail us) :
    front (us.map Token.toLexeme) = s.current.toLexeme := by
  cases h with
  | stop hc _ => rw [hc]; rfl
  | more _ hc _ => rw [hc]; rfl

theorem size_eq (h : s.Shows all tail us) :
    s.size = if (front (us.map Token.toLexeme)).kind = .endOfInput then 0
      else us.length + tail.length := by
  rw [h.front_eq, TokenStream.size, TokenStream.atEnd]
  cases h with
  | stop hc _ => simp [hc, Token.endAt]
  | more _ hc hr => simp [hr, Nat.add_right_comm]

/-- Whether a token was taken shows in the size of the stream. -/
theorem size_lt_iff {s' : TokenStream} {vs : List Token} (h : s.Shows all tail us)
    (h' : s'.Shows all tail vs)
    (hl : Leaves (us.map Token.toLexeme) (vs.map Token.toLexeme)) :
    s'.size < s.size ↔ vs.length < us.length := by
  rw [h.size_eq, h'.size_eq]
  rcases hl.eq_or_lt with he | ⟨hlt, hk⟩
  · have := congrArg List.length he
    simp only [List.length_map] at this
    simp [he, this]
  · simp only [List.length_map] at hlt
    rw [if_neg hk]
    split <;> omega

/-- A token in view that does not end the input is given out, and the next one
is shown, unless the source breaks off there. -/
theorem advance {t : Token} (h : s.Shows all tail (t :: us)) (htail : IsTail tail) :
    (us = [] ∧ ∃ e more, tail = .error e :: more ∧ s.advance.1 = .error e) ∨
      ((us ≠ [] ∨ tail = []) ∧ ∃ s', s.advance = (.ok t, s') ∧ s'.Shows all tail us) := by
  cases h with
  | @more _ pre _ ha hc hr =>
    cases us with
    | cons u us =>
      refine .inr ⟨.inl (by simp), _, by simp [TokenStream.advance, hr, hc]; rfl, ?_⟩
      exact .more (by simp [ha] : all = (pre ++ [t]) ++ u :: us) rfl rfl
    | nil =>
      -- Behind the last token the source ends or breaks off.
      rcases htail with rfl | ⟨e, more, rfl⟩
      · refine .inr ⟨.inr rfl, _, by simp [TokenStream.advance, hr, hc]; rfl, ?_⟩
        refine .stop ?_ rfl
        rw [ha, endOf_append_singleton]
      · exact .inl ⟨rfl, e, more, rfl, by simp [TokenStream.advance, hr]⟩

end TokenStream.Shows

/-! ### Following a rule -/

/-- An outcome of following a rule along a stream is the one that a verdict on
its lexemes foretells. -/
def Verdict.Describes (limit : Nat) (all : List Token) (tail : List Item) {α : Type}
    (v : Verdict α) (o : Outcome α) : Prop :=
  match v with
  | accept a rest =>
    ∃ s us, o = .ok a s ∧ rest = us.map Token.toLexeme ∧ s.Shows all tail us
  | refuse r rest => ∃ s, o = .error (r.error (blamed all rest)) s
  | tooDeep rest => ∃ s, o = .error (.of (.tooDeep limit) (blamed all rest).span) s
  | broken => ∃ e more s, tail = .error e :: more ∧ o = .error (.ofLexical e) s

section Describes

variable {α β : Type} {limit : Nat} {all us : List Token} {tail : List Item} {s : TokenStream}

theorem Verdict.Describes.andThen {v : Verdict α} {o : Outcome α}
    {f : α → List Lexeme → Verdict β} {g : α → TokenStream → Outcome β}
    (hv : v.Describes limit all tail o)
    (hf : ∀ a s us, s.Shows all tail us →
      (f a (us.map Token.toLexeme)).Describes limit all tail (g a s)) :
    (v.andThen f).Describes limit all tail (o.andThen g) := by
  cases v with
  | accept a rest =>
    obtain ⟨s, us, rfl, rfl, hs⟩ := hv
    exact hf a s us hs
  | refuse r rest =>
    obtain ⟨s, rfl⟩ := hv
    exact ⟨s, rfl⟩
  | tooDeep rest =>
    obtain ⟨s, rfl⟩ := hv
    exact ⟨s, rfl⟩
  | broken =>
    obtain ⟨e, more, s, ht, rfl⟩ := hv
    exact ⟨e, more, s, ht, rfl⟩

theorem Verdict.Describes.toExcept_eq_ok_iff {v : Verdict α} {o : Outcome α} {a : α}
    (h : v.Describes limit all tail o) : o.toExcept = .ok a ↔ ∃ rest, v = .accept a rest := by
  cases v with
  | accept b rest =>
    obtain ⟨s, us, rfl, _, _⟩ := h
    simp [Outcome.toExcept]
  | refuse r rest =>
    obtain ⟨s, rfl⟩ := h
    simp [Outcome.toExcept]
  | tooDeep rest =>
    obtain ⟨s, rfl⟩ := h
    simp [Outcome.toExcept]
  | broken =>
    obtain ⟨e, more, s, _, rfl⟩ := h
    simp [Outcome.toExcept]

theorem Verdict.Describes.toExcept_eq_error {v : Verdict α} {o : Outcome α} {e : SyntaxError}
    (h : v.Describes limit all tail o) (he : o.toExcept = .error e) :
    (∃ r rest, v = .refuse r rest ∧ e = r.error (blamed all rest)) ∨
      (∃ rest, v = .tooDeep rest ∧ e = .of (.tooDeep limit) (blamed all rest).span) ∨
        ∃ f more, tail = .error f :: more ∧ v = .broken ∧ e = .ofLexical f := by
  cases v with
  | accept b rest =>
    obtain ⟨s, us, rfl, _, _⟩ := h
    cases he
  | refuse r rest =>
    obtain ⟨s, rfl⟩ := h
    cases he
    exact .inl ⟨r, rest, rfl, rfl⟩
  | tooDeep rest =>
    obtain ⟨s, rfl⟩ := h
    cases he
    exact .inr (.inl ⟨rest, rfl, rfl⟩)
  | broken =>
    obtain ⟨f, more, s, ht, rfl⟩ := h
    cases he
    exact .inr (.inr ⟨f, more, ht, rfl, rfl⟩)

theorem TokenStream.Shows.take (hs : s.Shows all tail us) (htail : IsTail tail) {k : Reader}
    (hk : k.breaksOff = !tail.isEmpty) (judge : Lexeme → Except Refusal β) :
    (k.take judge (us.map Token.toLexeme)).Describes limit all tail (s.take judge) := by
  have hcur := hs.current_eq
  have hfront := hs.front_eq
  unfold TokenStream.take
  cases us with
  | nil =>
    have hend : s.atEnd = true := by
      rw [TokenStream.atEnd, ← hfront]
      rfl
    rw [if_pos hend, hcur]
    exact ⟨s, rfl⟩
  | cons t us =>
    have hat : s.atEnd = (t.kind == .endOfInput) := by
      rw [TokenStream.atEnd, ← hfront]
      rfl
    rw [List.map_cons, Reader.take, hat]
    by_cases ht : t.kind = .endOfInput
    · rw [if_pos ht, if_pos (by simpa using ht), hcur]
      exact ⟨s, rfl⟩
    · rw [if_neg ht, if_neg (by simpa using ht : ¬(t.kind == .endOfInput) = true)]
      -- The next token is fetched before this one is judged, so a fault there comes first.
      rcases hs.advance htail with ⟨rfl, e, more, rfl, he⟩ | ⟨hne, s', ha, hs'⟩
      · rw [if_pos (by simp [hk])]
        generalize s.advance = p at he ⊢
        obtain ⟨item, s'⟩ := p
        subst he
        exact ⟨e, more, s', rfl, rfl⟩
      · have hb : ¬(k.breaksOff && (us.map Token.toLexeme).isEmpty) = true := by
          rcases hne with hne | rfl
          · simp [hne]
          · simp [hk]
        rw [if_neg hb, ha]
        -- Only the judgement of the token that was taken is left.
        have hview : blamed all ((t :: us).map Token.toLexeme) = t := by
          cases hs with
          | more hall _ _ => rw [hall, blamed_map_toLexeme]; rfl
        cases hj : judge t.toLexeme with
        | ok b => exact ⟨s', us, by simp [hj], rfl, hs'⟩
        | error r => exact ⟨s', by rw [← List.map_cons, hview]; simp [hj]⟩

theorem TokenStream.Shows.repeatWhile (hs : s.Shows all tail us) {test : Lexeme → Bool}
    {item : List Lexeme → Verdict β} {item' : TokenStream → Outcome β}
    (hl : ∀ ws, (item ws).Leaves ws)
    (hi : ∀ s us, s.Shows all tail us →
      (item (us.map Token.toLexeme)).Describes limit all tail (item' s)) :
    (Reader.repeatWhile test item (us.map Token.toLexeme)).Describes limit all tail
      (GraphQL.repeatWhile test item' s) := by
  -- Each item that takes a token leaves a shorter list, and one that takes none ends the loop.
  induction hn : us.length using Nat.strongRecOn generalizing s us with
  | _ n ih =>
    rw [Reader.repeatWhile, GraphQL.repeatWhile, hs.front_eq]
    split
    · have hm := hi s us hs
      have hml := hl (us.map Token.toLexeme)
      cases hv : item (us.map Token.toLexeme) with
      | accept b rest =>
        rw [hv] at hm hml
        obtain ⟨s', vs, ho, rfl, hs'⟩ := hm
        -- Both loops ask whether a token was taken, one of the list and one of the stream.
        simp only [ho, Verdict.andThen, List.length_map, hs.size_lt_iff hs' hml]
        split
        · next hlt =>
          refine Verdict.Describes.andThen (ih vs.length (by omega) hs' rfl) fun bs s'' ws h => ?_
          exact ⟨s'', ws, rfl, rfl, h⟩
        · exact ⟨s', vs, rfl, rfl, hs'⟩
      | refuse r rest =>
        rw [hv] at hm
        obtain ⟨s', ho⟩ := hm
        exact ⟨s', by rw [ho]⟩
      | tooDeep rest =>
        rw [hv] at hm
        obtain ⟨s', ho⟩ := hm
        exact ⟨s', by rw [ho]⟩
      | broken =>
        rw [hv] at hm
        obtain ⟨e, more, s', ht, ho⟩ := hm
        exact ⟨e, more, s', ht, by rw [ho]⟩
    · exact ⟨s, us, rfl, rfl, hs⟩

/-- Following a rule along a stream and along the lexemes it is going to show
leads to the same. -/
theorem Rule.read_describes {k : Reader} {enter : (n : Nested) → TokenStream → Outcome n.Tree}
    (htail : IsTail tail) (hb : k.breaksOff = !tail.isEmpty) (ha : k.Advances)
    (hk : ∀ n s us, s.Shows all tail us →
      (k.enter n (us.map Token.toLexeme)).Describes limit all tail (enter n s))
    (r : Rule α) (hs : s.Shows all tail us) :
    (r.read k (us.map Token.toLexeme)).Describes limit all tail (r.run enter s) := by
  induction r generalizing s us with
  | done a => exact ⟨s, us, rfl, rfl, hs⟩
  | look next ih =>
    rw [Rule.read, Rule.run, hs.front_eq]
    exact ih _ hs
  | take judge next ih => exact (hs.take htail hb judge).andThen fun b s us h => ih b h
  | refuse r => exact ⟨s, by rw [← hs.current_eq]; rfl⟩
  | nest n next ih => exact (hk n s us hs).andThen fun t s us h => ih t h
  | many test item next ihi ih =>
    exact (hs.repeatWhile (item.read_leaves ha) fun s us h => ihi h).andThen
      fun bs s us h => ih bs h

theorem TokenStream.Shows.enter (htail : IsTail tail) (budget : Nat) (n : Nested)
    (hs : s.Shows all tail us) :
    ((Reader.within (!tail.isEmpty) budget).enter n (us.map Token.toLexeme)).Describes limit all
      tail (GraphQL.enter limit budget n s) := by
  induction budget generalizing n s us with
  | zero => exact ⟨s, by rw [← hs.current_eq]; rfl⟩
  | succ budget ih =>
    exact Rule.read_describes htail (by simp) (Reader.within_advances _ budget)
      (fun n s us h => ih n h) n.rule hs

end Describes

/-! ### Whole documents -/

/-- A fresh stream shows the tokens of its source, once it has been advanced. -/
theorem TokenStream.new_shows {ts : List Token} {tail : List Item} (h : ts ≠ [] ∨ tail = []) :
    ∃ s, (TokenStream.new (ts.map .ok ++ tail)).advance = (.ok (.endAt .zero), s) ∧
      s.Shows ts tail ts := by
  cases ts with
  | nil =>
    have ht : tail = [] := by simpa using h
    subst ht
    exact ⟨_, rfl, .stop rfl rfl⟩
  | cons t ts => exact ⟨_, rfl, .more (List.nil_append _).symm rfl rfl⟩

namespace Document

/-- How a list of lexemes is read as a document. -/
def verdict (breaksOff : Bool) (maxDepth : Nat) (ws : List Lexeme) : Verdict Document :=
  Rule.document.read (Reader.within breaksOff maxDepth) ws

theorem document_describes (ts : List Token) {tail : List Item} (htail : IsTail tail)
    (h : ts ≠ [] ∨ tail = []) (options : ParseOptions) :
    (verdict (!tail.isEmpty) options.maxDepth (ts.map Token.toLexeme)).Describes options.maxDepth
      ts tail ((TokenStream.new (ts.map .ok ++ tail)).document options) := by
  obtain ⟨s, ha, hs⟩ := TokenStream.new_shows h
  rw [TokenStream.document, ha]
  exact Rule.read_describes htail (by simp) (Reader.within_advances _ _)
    (fun n s us h => h.enter htail options.maxDepth n) Rule.document hs

/-- When a document is read from tokens. -/
theorem ofItems_eq_ok_iff {options : ParseOptions} {ts : List Token} {d : Document} :
    ofItems options (ts.map .ok) = .ok d ↔
      ∃ rest, verdict false options.maxDepth (ts.map Token.toLexeme) = .accept d rest := by
  have h := document_describes ts (.inl rfl : IsTail []) (.inr rfl) options
  rw [List.append_nil] at h
  exact h.toExcept_eq_ok_iff

/-- Which token an error in a list of tokens is about. -/
theorem ofItems_eq_error {options : ParseOptions} {ts : List Token} {e : SyntaxError}
    (h : ofItems options (ts.map .ok) = .error e) :
    (∃ r rest, verdict false options.maxDepth (ts.map Token.toLexeme) = .refuse r rest ∧
        e = r.error (blamed ts rest)) ∨
      ∃ rest, verdict false options.maxDepth (ts.map Token.toLexeme) = .tooDeep rest ∧
        e = .of (.tooDeep options.maxDepth) (blamed ts rest).span := by
  have hd := document_describes ts (.inl rfl : IsTail []) (.inr rfl) options
  rw [List.append_nil] at hd
  rcases hd.toExcept_eq_error h with hr | hr | ⟨_, _, ht, _⟩
  · exact .inl hr
  · exact .inr hr
  · cases ht

/-- A source that breaks off is never read to its end. -/
theorem ofItems_fault {options : ParseOptions} {ts : List Token} {e : LexicalError}
    {more : List Item} {d : Document}
    (h : ofItems options (ts.map .ok ++ .error e :: more) = .ok d) :
    ∃ rest, rest ≠ [] ∧
      verdict true options.maxDepth (ts.map Token.toLexeme) = .accept d rest := by
  cases ts with
  | nil => cases h
  | cons t ts =>
    have hd := document_describes (t :: ts) (.inr ⟨e, more, rfl⟩ : IsTail (.error e :: more))
      (.inl (List.cons_ne_nil t ts)) options
    obtain ⟨rest, hr⟩ := hd.toExcept_eq_ok_iff.1 h
    rw [hr] at hd
    obtain ⟨s, us, _, rfl, hs⟩ := hd
    refine ⟨_, ?_, hr⟩
    cases hs with
    | stop _ ht => cases ht
    | more _ _ _ => simp

end Document

end GraphQL
