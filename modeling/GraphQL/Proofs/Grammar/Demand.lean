/-
What reading a document asks of its source.

A source has come to its end with the first item that nothing can follow, which
is an end of the input or a fault.  A source that runs dry before is continued
by an end of the input, so it has come to its end as well.

* `TokenStream.Alike` — two streams that cannot be told apart before both have
  come to their ends;
* `Rule.Leads.alike` — rules that look before they take do not tell them apart;
* `Document.reads_up_to_end` — so nothing behind the end of a source is asked
  for, and running dry is the same as an end of the input.

Design notes: the two streams are followed side by side, without the provisions
of `Rule.run`.  The token in view says whether a stream has come to its end,
and a rule that looks never takes that one.
-/
import GraphQL.Proofs.Grammar.Leads
import GraphQL.Proofs.Grammar.Stream

namespace GraphQL

/-- What a source has next behind a token that ends at a place, if nothing can
follow that. -/
inductive Ends (p : Position) : List Item → Item → Prop
  | dry : Ends p [] (.ok (.endAt p))
  | last {item : Item} {more : List Item} (h : item.isLast = true) : Ends p (item :: more) item

/-- Two streams that show the same token, and go on with the same tokens up to
the same end; `n` tokens come before it. -/
inductive TokenStream.Going (n : Nat) : TokenStream → TokenStream → Prop
  | intro {t : Token} {ts : List Token} {tail tail' : List Item} {last : Item} {pulls : Nat}
    (h : Ends (endOf (t :: ts)) tail last) (h' : Ends (endOf (t :: ts)) tail' last)
    (hn : pulls + ts.length ≤ n) :
    Going n ⟨t, ts.map .ok ++ tail, pulls⟩ ⟨t, ts.map .ok ++ tail', pulls⟩

/-- Two streams that go on alike, or show the same end of the input. -/
inductive TokenStream.Alike (n : Nat) : TokenStream → TokenStream → Prop
  | going {s s' : TokenStream} (h : s.Going n s') : Alike n s s'
  | ended {t : Token} {rest rest' : List Item} {pulls : Nat} (ht : t.kind = .endOfInput)
    (hn : pulls ≤ n + 1) : Alike n ⟨t, rest, pulls⟩ ⟨t, rest', pulls⟩

/-- How often the source had been asked for an item. -/
def Outcome.pulls {α : Type} : Outcome α → Nat
  | .ok _ s => s.pulls
  | .error _ s => s.pulls

/-- Two outcomes that say the same, and leave streams that are alike. -/
inductive Outcome.Alike (n : Nat) {α : Type} : Outcome α → Outcome α → Prop
  | ok {a : α} {s s' : TokenStream} (h : s.Alike n s') : Alike n (.ok a s) (.ok a s')
  | error {e : SyntaxError} {s s' : TokenStream} (hs : s.pulls ≤ n + 1) :
    Alike n (.error e s) (.error e s')

namespace Outcome.Alike

variable {α β : Type} {n : Nat} {o o' : Outcome α}

theorem andThen (h : o.Alike n o') {f : α → TokenStream → Outcome β}
    (hf : ∀ a s s', s.Alike n s' → (f a s).Alike n (f a s')) :
    (o.andThen f).Alike n (o'.andThen f) := by
  cases h with
  | ok hs => exact hf _ _ _ hs
  | error hs => exact .error hs

theorem toExcept_eq (h : o.Alike n o') : o'.toExcept = o.toExcept := by
  cases h <;> rfl

end Outcome.Alike

/-! ### One step -/

theorem Ends.isLast {p : Position} {tail : List Item} {item : Item} (h : Ends p tail item) :
    item.isLast = true := by
  cases h with
  | dry => rfl
  | last h => exact h

/-- Behind its last token a source gives out its end, or makes one up. -/
theorem Ends.advance {t : Token} {tail : List Item} {last : Item}
    (h : Ends t.span.stop tail last) (k : Nat) :
    ∃ rest, (TokenStream.mk t tail k).advance =
      match last with
      | .error e => (.error e, ⟨t, rest, k + 1⟩)
      | .ok u => (.ok t, ⟨u, rest, k + 1⟩) := by
  cases h with
  | dry => exact ⟨[], rfl⟩
  | @last _ more _ => cases last <;> exact ⟨more, rfl⟩

namespace TokenStream

variable {n : Nat} {s s' : TokenStream}

theorem Alike.current_eq (h : s.Alike n s') : s'.current = s.current := by
  cases h with
  | going h => cases h; rfl
  | ended _ _ => rfl

theorem Alike.pulls_le (h : s.Alike n s') : s.pulls ≤ n + 1 := by
  cases h with
  | going h =>
    obtain ⟨_, _, hn⟩ := h
    dsimp only
    omega
  | ended _ hn => exact hn

/-- Streams that do not show the end of the input go on. -/
theorem Alike.going_of_kind_ne (h : s.Alike n s') (hs : s.current.kind ≠ .endOfInput) :
    s.Going n s' := by
  cases h with
  | going h => exact h
  | ended ht _ => exact absurd ht hs

/-- Streams that go on give out the same token and go on alike, or they give
out the same fault. -/
theorem Going.advance (h : s.Going n s') :
    (∃ t u u', s.advance = (.ok t, u) ∧ s'.advance = (.ok t, u') ∧ u.Alike n u') ∨
      ∃ e u u', s.advance = (.error e, u) ∧ s'.advance = (.error e, u') ∧ u.pulls ≤ n + 1 := by
  obtain @⟨t, ts, tail, tail', last, pulls, h, h', hn⟩ := h
  cases ts with
  | cons u ts =>
    have hpulls : pulls + 1 + ts.length ≤ n := by
      rw [List.length_cons] at hn
      omega
    exact .inl ⟨t, _, _, rfl, rfl, .going (.intro h h' hpulls)⟩
  | nil =>
    -- The next item is the end, whether it is an item of the source or not.
    have hpulls : pulls + 1 ≤ n + 1 := Nat.succ_le_succ hn
    obtain ⟨rest, hs⟩ := h.advance pulls
    obtain ⟨rest', hs'⟩ := h'.advance pulls
    cases last with
    | error e => exact .inr ⟨e, _, _, hs, hs', hpulls⟩
    | ok u =>
      have hu : u.kind = .endOfInput := by simpa [Item.isLast] using h.isLast
      exact .inl ⟨t, _, _, hs, hs', .ended hu hpulls⟩

/-- A token is taken from both of two streams that go on alike, or from neither. -/
theorem Going.takeAny {β : Type} (h : s.Going n s') (judge : Lexeme → Except Refusal β) :
    (s.takeAny judge).Alike n (s'.takeAny judge) := by
  rw [TokenStream.takeAny, TokenStream.takeAny]
  rcases h.advance with ⟨t, u, u', hs, hs', hu⟩ | ⟨e, u, u', hs, hs', hu⟩
  · rw [hs, hs']
    dsimp only
    cases judge t.toLexeme with
    | ok b => exact .ok hu
    | error r => exact .error hu.pulls_le
  · rw [hs, hs']
    exact .error hu

end TokenStream

/-! ### Following a rule -/

/-- A rule that looks before it takes leads to the same along streams that are
alike. -/
theorem Rule.Leads.alike {limit budget : Nat} {α : Type} {r : Rule α} {s s' : TokenStream}
    {o : Outcome α} (h : r.Leads limit budget s o) {Known : Lexeme → Prop} (hr : r.Looks Known)
    (hs : Known s.current.toLexeme) {n : Nat} (ha : s.Alike n s') :
    ∃ o', r.Leads limit budget s' o' ∧ o.Alike n o' := by
  induction h generalizing Known s' with
  | done => exact ⟨_, .done, .ok ha⟩
  | look _ ih =>
    obtain ⟨o', ho', hoo'⟩ := ih (hr _ hs) rfl ha
    exact ⟨o', .look (ha.current_eq ▸ ho'), hoo'⟩
  | @takeFails _ _ _ judge _ _ _ _ ht =>
    have htake := (ha.going_of_kind_ne (hr.1 _ hs)).takeAny judge
    rw [ht] at htake
    generalize ho' : s'.takeAny judge = o' at htake
    cases htake with
    | error hpulls => exact ⟨_, .takeFails ho', .error hpulls⟩
  | @take _ _ _ judge _ _ _ b _ ht _ ih =>
    have htake := (ha.going_of_kind_ne (hr.1 _ hs)).takeAny judge
    rw [ht] at htake
    generalize ho' : s'.takeAny judge = o' at htake
    cases htake with
    | ok hu =>
      obtain ⟨o', hnext, hoo'⟩ := ih (hr.2 b) trivial hu
      exact ⟨o', .take ho' hnext, hoo'⟩
  | @refuse _ _ r s =>
    refine ⟨_, .refuse, ?_⟩
    rw [ha.current_eq]
    exact .error ha.pulls_le
  | nestTooDeep =>
    refine ⟨_, .nestTooDeep, ?_⟩
    rw [ha.current_eq]
    exact .error ha.pulls_le
  | @nestFails _ _ m _ _ _ _ _ ih =>
    have hm : m.rule.Looks fun _ => True := m.rule_looks
    obtain ⟨o', ho', hoo'⟩ := ih hm trivial ha
    cases hoo' with
    | error hpulls => exact ⟨_, .nestFails ho', .error hpulls⟩
  | @nest _ _ m _ _ _ t _ _ _ ih ihnext =>
    have hm : m.rule.Looks fun _ => True := m.rule_looks
    obtain ⟨o', ho', hoo'⟩ := ih hm trivial ha
    cases hoo' with
    | ok hu =>
      obtain ⟨o', hnext, hoo'⟩ := ihnext (hr t) trivial hu
      exact ⟨o', .nest ho' hnext, hoo'⟩
  | manyStops ht _ ih =>
    obtain ⟨o', hnext, hoo'⟩ := ih (hr.2.2 []) trivial ha
    exact ⟨o', .manyStops (ha.current_eq ▸ ht) hnext, hoo'⟩
  | manyFails ht _ ih =>
    obtain ⟨o', ho', hoo'⟩ := ih hr.1 ht ha
    cases hoo' with
    | error hpulls => exact ⟨_, .manyFails (ha.current_eq ▸ ht) ho', .error hpulls⟩
  | @manyMore _ _ _ test item next _ _ b _ ht _ _ ih ihmore =>
    have hmany : (Rule.many test item fun bs => next (b :: bs)).Looks fun _ => True :=
      ⟨hr.1, hr.2.1, fun bs => hr.2.2 (b :: bs)⟩
    obtain ⟨o', ho', hoo'⟩ := ih hr.1 ht ha
    cases hoo' with
    | ok hu =>
      obtain ⟨o', hmore, hoo'⟩ := ihmore hmany trivial hu
      exact ⟨o', .manyMore (ha.current_eq ▸ ht) ho' hmore, hoo'⟩

/-- Following a rule that looks before it takes does not tell streams apart that
are alike. -/
theorem Rule.run_alike {limit budget n : Nat} {α : Type} {r : Rule α}
    (hr : r.Looks fun _ => True) {s s' : TokenStream} (ha : s.Alike n s') :
    (r.run (enter limit budget) s).Alike n (r.run (enter limit budget) s') := by
  have hrun (s : TokenStream) : r.Leads limit budget s (r.run (enter limit budget) s) :=
    leads_run budget r hr trivial
  obtain ⟨o', ho', hoo'⟩ := (hrun s).alike hr trivial ha
  rwa [(hrun s').unique ho'] at hoo'

/-! ### Reading a document -/

/-- Sources with the same tokens up to the same end are read alike. -/
theorem TokenStream.document_alike (options : ParseOptions) {ts : List Token}
    {tail tail' : List Item} {last : Item} (h : Ends (endOf ts) tail last)
    (h' : Ends (endOf ts) tail' last) :
    ((new (ts.map .ok ++ tail)).document options).Alike ts.length
      ((new (ts.map .ok ++ tail')).document options) := by
  rw [← endOf_endAt_zero_cons] at h h'
  have hgoing : (new (ts.map .ok ++ tail)).Going ts.length (new (ts.map .ok ++ tail')) :=
    .intro h h' (Nat.le_of_eq (Nat.zero_add _))
  rw [Rule.document_eq_andThen, Rule.document_eq_andThen]
  exact (hgoing.takeAny _).andThen fun _ _ _ ha => Rule.run_alike Rule.document_looks ha

theorem Outcome.Alike.pulls_le {α : Type} {n : Nat} {o o' : Outcome α} (h : o.Alike n o') :
    o.pulls ≤ n + 1 := by
  cases h with
  | ok hs => exact hs.pulls_le
  | error hs => exact hs

/-- The tokens of a source up to its end. -/
theorem exists_ends (items : List Item) :
    ∃ (ts : List Token) (tail : List Item) (last : Item), items = ts.map .ok ++ tail ∧
      Ends (endOf ts) tail last ∧ ts.length = (items.takeWhile (!·.isLast)).length := by
  induction items with
  | nil => exact ⟨[], [], _, rfl, .dry, rfl⟩
  | cons item items ih =>
    by_cases hi : item.isLast = true
    · exact ⟨[], item :: items, item, rfl, .last hi, by simp [hi]⟩
    · obtain ⟨t, rfl⟩ : ∃ t, item = .ok t := by
        cases item with
        | ok t => exact ⟨t, rfl⟩
        | error e => exact absurd rfl hi
      obtain ⟨ts, tail, last, rfl, hends, hlen⟩ := ih
      -- A source that runs dry does so behind one token more.
      obtain ⟨last', hends'⟩ : ∃ last', Ends (endOf (t :: ts)) tail last' := by
        cases hends with
        | dry => exact ⟨_, .dry⟩
        | last hlast => exact ⟨_, .last hlast⟩
      exact ⟨t :: ts, tail, last', rfl, hends', by simp [hi, hlen]⟩

namespace Document

theorem ofItems_congr (options : ParseOptions) {ts : List Token} {tail tail' : List Item}
    {last : Item} (h : Ends (endOf ts) tail last) (h' : Ends (endOf ts) tail' last) :
    ofItems options (ts.map .ok ++ tail') = ofItems options (ts.map .ok ++ tail) :=
  (TokenStream.document_alike options h h').toExcept_eq

/-- Nothing behind the first end of the input or fault has any influence, and
no more than that is asked for.  A source that runs dry is read as if an end of
the input stood behind its last token.  Reading needs no provisions for any of
this. -/
theorem reads_up_to_end (options : ParseOptions) :
    (∀ (ts : List Token) (last : Item) (more more' : List Item), last.isLast = true →
      ofItems options (ts.map .ok ++ last :: more') =
        ofItems options (ts.map .ok ++ last :: more)) ∧
    (∀ ts : List Token, ofItems options (ts.map .ok) =
      ofItems options (ts.map .ok ++ [.ok (.endAt (endOf ts))])) ∧
    ∀ items : List Item,
      ((TokenStream.new items).document options).pulls ≤
        (items.takeWhile (!·.isLast)).length + 1 ∧
      ∀ o, Rule.source.Leads options.maxDepth options.maxDepth (TokenStream.new items) o ↔
        o = (TokenStream.new items).document options := by
  refine ⟨fun ts last more more' hlast => ?_, fun ts => ?_, fun items => ⟨?_, fun o => ?_⟩⟩
  · exact ofItems_congr options (.last hlast) (.last hlast)
  · have hend : Ends (endOf ts) [.ok (.endAt (endOf ts))] (.ok (.endAt (endOf ts))) := .last rfl
    have hdry := ofItems_congr options hend .dry
    rwa [List.append_nil] at hdry
  · obtain ⟨ts, tail, last, rfl, hends, hlen⟩ := exists_ends items
    rw [← hlen]
    exact (TokenStream.document_alike options hends hends).pulls_le
  · exact Rule.source_leads_iff

/-- A union without an end of the input, all in one place. -/
def unendedUnion : List Token :=
  [⟨.ofName "union", default⟩, ⟨.ofName "U", default⟩, ⟨.ofPunctuator .equals, default⟩,
    ⟨.ofName "A", default⟩]

/-- A member behind an end of the input is not asked for. -/
theorem reads_up_to_end_union :
    let last : Item := .ok (.endAt .zero)
    let member : List Item := [.ok ⟨.ofPunctuator .pipe, default⟩, .ok ⟨.ofName "B", default⟩]
    last.isLast = true ∧
      ofItems ⟨0⟩ (unendedUnion.map .ok ++ last :: member) =
        ofItems ⟨0⟩ (unendedUnion.map .ok ++ last :: []) ∧
      ((TokenStream.new (unendedUnion.map .ok ++ last :: member)).document ⟨0⟩).pulls ≤ 5 ∧
      ofItems ⟨0⟩ (unendedUnion.map .ok) = ofItems ⟨0⟩ (unendedUnion.map .ok ++ [last]) ∧
      (ofItems ⟨0⟩ (unendedUnion.map .ok)).isOk = true := by
  obtain ⟨hsame, hdry, hpulls⟩ := reads_up_to_end ⟨0⟩
  exact ⟨rfl, hsame unendedUnion _ [] _ rfl, (hpulls _).1, hdry unendedUnion, by decide +kernel⟩

end Document

end GraphQL
