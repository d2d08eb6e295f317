/-
Following rules without a net.

`Rule.run` never takes the end of the input, and it leaves a loop whose item
takes nothing.  `Rule.Leads` has no such provisions: the token in view is taken
whatever it is, and a loop goes on as long as its test holds, be it along a
stream that shows the end of the input for ever.

* `Rule.Leads` — what following a rule leads to, if it comes to an end;
* `Rule.Leads.unique` — a rule leads to one outcome at most;
* `Rule.leads_run` — a rule that looks before it takes leads to what `Rule.run`
  says, so it has no need of the provisions;
* `Rule.source_leads_iff` — hence reading a document needs none of them.

Design notes: `Rule.Leads` has one constructor for each step, so a statement on
whole runs is proved step by step.  A loop that has read an item is the same
loop with a continuation that receives one item more.
-/
import GraphQL.Grammar.Parse
import GraphQL.Proofs.Grammar.Looking

namespace GraphQL

/-- Takes the token in view, whatever it is, and judges it. -/
def TokenStream.takeAny {β : Type} (judge : Lexeme → Except Refusal β) (s : TokenStream) :
    Outcome β :=
  match s.advance with
  | (.error e, s') => .error (.ofLexical e) s'
  | (.ok t, s') =>
    match judge t.toLexeme with
    | .ok b => .ok b s'
    | .error r => .error (r.error t) s'

/-- The two ways of taking a token differ at the end of the input only. -/
theorem TokenStream.take_eq_takeAny {β : Type} (judge : Lexeme → Except Refusal β)
    {s : TokenStream} (hs : s.atEnd = false) : s.take judge = s.takeAny judge := by
  rw [take, hs]
  rfl

/-- What following a rule along a stream leads to, within a budget of levels. -/
inductive Rule.Leads (limit : Nat) :
    Nat → {α : Type} → Rule α → TokenStream → Outcome α → Prop
  | done {budget : Nat} {α : Type} {a : α} {s : TokenStream} :
    Leads limit budget (.done a) s (.ok a s)
  | look {budget : Nat} {α : Type} {next : Lexeme → Rule α} {s : TokenStream} {o : Outcome α}
    (h : Leads limit budget (next s.current.toLexeme) s o) : Leads limit budget (.look next) s o
  | takeFails {budget : Nat} {α β : Type} {judge : Lexeme → Except Refusal β} {next : β → Rule α}
    {s s' : TokenStream} {e : SyntaxError} (ht : s.takeAny judge = .error e s') :
    Leads limit budget (.take judge next) s (.error e s')
  | take {budget : Nat} {α β : Type} {judge : Lexeme → Except Refusal β} {next : β → Rule α}
    {s s' : TokenStream} {b : β} {o : Outcome α} (ht : s.takeAny judge = .ok b s')
    (h : Leads limit budget (next b) s' o) : Leads limit budget (.take judge next) s o
  | refuse {budget : Nat} {α : Type} {r : Refusal} {s : TokenStream} :
    Leads limit budget (.refuse r : Rule α) s (.error (r.error s.current) s)
  | nestTooDeep {α : Type} {n : Nested} {next : n.Tree → Rule α} {s : TokenStream} :
    Leads limit 0 (.nest n next) s (.error (.of (.tooDeep limit) s.current.span) s)
  | nestFails {budget : Nat} {α : Type} {n : Nested} {next : n.Tree → Rule α}
    {s s' : TokenStream} {e : SyntaxError} (h : Leads limit budget n.rule s (.error e s')) :
    Leads limit (budget + 1) (.nest n next) s (.error e s')
  | nest {budget : Nat} {α : Type} {n : Nested} {next : n.Tree → Rule α} {s s' : TokenStream}
    {t : n.Tree} {o : Outcome α} (h : Leads limit budget n.rule s (.ok t s'))
    (hnext : Leads limit (budget + 1) (next t) s' o) :
    Leads limit (budget + 1) (.nest n next) s o
  | manyStops {budget : Nat} {α β : Type} {test : Lexeme → Bool} {item : Rule β}
    {next : List β → Rule α} {s : TokenStream} {o : Outcome α}
    (ht : test s.current.toLexeme = false) (h : Leads limit budget (next []) s o) :
    Leads limit budget (.many test item next) s o
  | manyFails {budget : Nat} {α β : Type} {test : Lexeme → Bool} {item : Rule β}
    {next : List β → Rule α} {s s' : TokenStream} {e : SyntaxError}
    (ht : test s.current.toLexeme = true) (h : Leads limit budget item s (.error e s')) :
    Leads limit budget (.many test item next) s (.error e s')
  | manyMore {budget : Nat} {α β : Type} {test : Lexeme → Bool} {item : Rule β}
    {next : List β → Rule α} {s s' : TokenStream} {b : β} {o : Outcome α}
    (ht : test s.current.toLexeme = true) (h : Leads limit budget item s (.ok b s'))
    (hmore : Leads limit budget (.many test item fun bs => next (b :: bs)) s' o) :
    Leads limit budget (.many test item next) s o

/-- A rule does not lead to two outcomes. -/
theorem Rule.Leads.unique {limit budget : Nat} {α : Type} {r : Rule α} {s : TokenStream}
    {o o' : Outcome α} (h : r.Leads limit budget s o) (h' : r.Leads limit budget s o') :
    o' = o := by
  induction h with
  | done =>
    cases h'
    rfl
  | look _ ih =>
    cases h' with
    | look h' => exact ih h'
  | takeFails ht =>
    cases h' with
    | takeFails ht' => cases ht.symm.trans ht'; rfl
    | take ht' _ => cases ht.symm.trans ht'
  | take ht _ ih =>
    cases h' with
    | takeFails ht' => cases ht.symm.trans ht'
    | take ht' h' =>
      cases ht.symm.trans ht'
      exact ih h'
  | refuse =>
    cases h'
    rfl
  | nestTooDeep =>
    cases h'
    rfl
  | nestFails _ ih =>
    cases h' with
    | nestFails h' => cases ih h'; rfl
    | nest h' _ => cases ih h'
  | nest _ _ ih ihnext =>
    cases h' with
    | nestFails h' => cases ih h'
    | nest h' hnext' =>
      cases ih h'
      exact ihnext hnext'
  | manyStops ht _ ih =>
    cases h' with
    | manyStops _ h' => exact ih h'
    | manyFails ht' _ => cases ht.symm.trans ht'
    | manyMore ht' _ _ => cases ht.symm.trans ht'
  | manyFails ht _ ih =>
    cases h' with
    | manyStops ht' _ => cases ht.symm.trans ht'
    | manyFails _ h' => cases ih h'; rfl
    | manyMore _ h' _ => cases ih h'
  | manyMore ht _ _ ih ihmore =>
    cases h' with
    | manyStops ht' _ => cases ht.symm.trans ht'
    | manyFails _ h' => cases ih h'
    | manyMore _ h' hmore' =>
      cases ih h'
      exact ihmore hmore'

/-! ### The stream gets shorter -/

theorem Outcome.andThen_eq_ok_iff {α β : Type} {o : Outcome α} {f : α → TokenStream → Outcome β}
    {b : β} {s' : TokenStream} :
    o.andThen f = .ok b s' ↔ ∃ a s, o = .ok a s ∧ f a s = .ok b s' := by
  cases o with
  | ok a s =>
    constructor
    · exact fun h => ⟨a, s, rfl, h⟩
    · rintro ⟨_, _, ⟨⟩, h⟩
      exact h
  | error e s =>
    constructor
    · intro h
      cases h
    · rintro ⟨_, _, h, _⟩
      cases h

theorem Outcome.andThen_assoc {α β γ : Type} (o : Outcome α) (f : α → TokenStream → Outcome β)
    (g : β → TokenStream → Outcome γ) :
    (o.andThen f).andThen g = o.andThen fun a s => (f a s).andThen g := by
  cases o <;> rfl

/-- A token that is taken makes the stream shorter. -/
theorem TokenStream.size_take_lt {β : Type} {judge : Lexeme → Except Refusal β} {s s' : TokenStream}
    {b : β} (h : s.take judge = .ok b s') : s'.size < s.size := by
  rw [take] at h
  split at h
  · cases h
  · next hs =>
    split at h
    · cases h
    · next ha =>
      split at h
      · cases h
        exact size_advance_lt (by simpa using hs) ha
      · cases h

theorem size_repeatWhile_le {β : Type} {test : Lexeme → Bool} {item : TokenStream → Outcome β}
    (hi : ∀ s b s', item s = .ok b s' → s'.size ≤ s.size) {s s' : TokenStream} {bs : List β}
    (h : repeatWhile test item s = .ok bs s') : s'.size ≤ s.size := by
  fun_induction repeatWhile test item s generalizing bs with
  | case1 => cases h
  | case2 s ht b s₁ hb hlt ih =>
    obtain ⟨bs, s₂, hbs, h⟩ := Outcome.andThen_eq_ok_iff.1 h
    cases h
    exact Nat.le_trans (ih hbs) (Nat.le_of_lt hlt)
  | case3 s ht b s₁ hb hlt =>
    cases h
    exact hi _ _ _ hb
  | case4 s ht =>
    cases h
    exact Nat.le_refl _

/-- A rule makes no stream longer, and one that takes something makes it shorter. -/
theorem Rule.size_run {enter : (n : Nested) → TokenStream → Outcome n.Tree}
    (he : ∀ {n s t s'}, enter n s = .ok t s' → s'.size < s.size) {α : Type} (r : Rule α)
    {s s' : TokenStream} {a : α} (h : r.run enter s = .ok a s') :
    s'.size ≤ s.size ∧ (r.Takes → s'.size < s.size) := by
  induction r generalizing s s' with
  | done a =>
    cases h
    exact ⟨Nat.le_refl _, False.elim⟩
  | look next ih =>
    obtain ⟨hle, hlt⟩ := ih _ h
    exact ⟨hle, fun ht => hlt (ht _)⟩
  | take judge next ih =>
    obtain ⟨b, s₁, htake, h⟩ := Outcome.andThen_eq_ok_iff.1 h
    have hlt := TokenStream.size_take_lt htake
    have hle := (ih b h).1
    exact ⟨by omega, fun _ => by omega⟩
  | refuse r => cases h
  | nest n next ih =>
    obtain ⟨t, s₁, hn, h⟩ := Outcome.andThen_eq_ok_iff.1 h
    have hlt := he hn
    have hle := (ih t h).1
    exact ⟨by omega, fun _ => by omega⟩
  | many test item next ihi ih =>
    obtain ⟨bs, s₁, hbs, h⟩ := Outcome.andThen_eq_ok_iff.1 h
    have hle := size_repeatWhile_le (fun _ _ _ hb => (ihi hb).1) hbs
    obtain ⟨hle', hlt⟩ := ih bs h
    exact ⟨by omega, fun ht => by have := hlt (ht bs); omega⟩

theorem size_enter_lt {limit budget : Nat} {n : Nested} {s s' : TokenStream} {t : n.Tree}
    (h : enter limit budget n s = .ok t s') : s'.size < s.size := by
  induction budget generalizing n s s' with
  | zero => cases h
  | succ budget ih => exact (Rule.size_run ih n.rule h).2 n.rule_takes

/-! ### What rules lead to -/

namespace Rule

variable {limit budget : Nat} {α β : Type}

/-- A loop leads to what it leads to when it watches over its items. -/
theorem leads_many {test : Lexeme → Bool} {item : Rule β} {next : List β → Rule α}
    (hi : ∀ s, test s.current.toLexeme = true →
      item.Leads limit budget s (item.run (enter limit budget) s))
    (ht : item.Takes)
    (hnext : ∀ bs s, (next bs).Leads limit budget s ((next bs).run (enter limit budget) s))
    (s : TokenStream) :
    (many test item next).Leads limit budget s
      ((many test item next).run (enter limit budget) s) := by
  -- Each item makes the stream shorter, and the continuation grows with the items.
  induction hn : s.size using Nat.strongRecOn generalizing s next with
  | _ n ih =>
    rw [run, repeatWhile]
    by_cases htest : test s.current.toLexeme = true
    · rw [if_pos htest]
      have hitem := hi s htest
      cases hb : item.run (enter limit budget) s with
      | error e s' =>
        rw [hb] at hitem
        exact .manyFails htest hitem
      | ok b s' =>
        rw [hb] at hitem
        have hlt : s'.size < s.size := (size_run size_enter_lt item hb).2 ht
        simp only [if_pos hlt, Outcome.andThen_assoc]
        exact .manyMore htest hitem (ih s'.size (hn ▸ hlt) (fun bs => hnext (b :: bs)) s' rfl)
    · rw [if_neg htest]
      exact .manyStops (by simpa using htest) (hnext [] s)

/-- A nested construct leads to what it leads to when it is entered. -/
theorem leads_nest {n : Nested} {next : n.Tree → Rule α}
    (hn : ∀ b, budget = b + 1 → ∀ s, n.rule.Leads limit b s (n.rule.run (enter limit b) s))
    (hnext : ∀ t s, (next t).Leads limit budget s ((next t).run (enter limit budget) s))
    (s : TokenStream) :
    (nest n next).Leads limit budget s ((nest n next).run (enter limit budget) s) := by
  cases budget with
  | zero => exact .nestTooDeep
  | succ b =>
    have hrule := hn b rfl s
    show (nest n next).Leads limit (b + 1) s
      ((n.rule.run (enter limit b) s).andThen fun t s' => (next t).run (enter limit (b + 1)) s')
    cases ho : n.rule.run (enter limit b) s with
    | error e s' =>
      rw [ho] at hrule
      exact .nestFails hrule
    | ok t s' =>
      rw [ho] at hrule
      exact .nest hrule (hnext t s')

/-- A lexeme leads to what comes of taking it, whatever it is. -/
theorem leads_take {judge : Lexeme → Except Refusal β} {next : β → Rule α}
    (hnext : ∀ b s, (next b).Leads limit budget s ((next b).run (enter limit budget) s))
    (s : TokenStream) :
    (take judge next).Leads limit budget s
      ((s.takeAny judge).andThen fun b s' => (next b).run (enter limit budget) s') := by
  cases ho : s.takeAny judge with
  | error e s' => exact .takeFails ho
  | ok b s' => exact .take ho (hnext b s')

theorem leads_run_of_nested
    (hn : ∀ b, budget = b + 1 → ∀ (n : Nested) s,
      n.rule.Leads limit b s (n.rule.run (enter limit b) s))
    (r : Rule α) {Known : Lexeme → Prop} (hr : r.Looks Known) {s : TokenStream}
    (hs : Known s.current.toLexeme) : r.Leads limit budget s (r.run (enter limit budget) s) := by
  induction r generalizing Known s with
  | done a => exact .done
  | look next ih => exact .look (ih _ (hr _ hs) rfl)
  | take judge next ih =>
    -- The lexeme in view is known not to end the input.
    have hend : s.atEnd = false := by simpa [TokenStream.atEnd] using hr.1 _ hs
    rw [run, s.take_eq_takeAny judge hend]
    exact leads_take (fun b s => ih b (hr.2 b) trivial) s
  | refuse r => exact .refuse
  | nest n next ih =>
    exact leads_nest (fun b hb s => hn b hb n s) (fun t s => ih t (hr t) trivial) s
  | many test item next ihi ih =>
    exact leads_many (fun s ht => ihi hr.1 ht) hr.2.1 (fun bs s => ih bs (hr.2.2 bs) trivial) s

/-- A rule that looks before it takes leads to the outcome of following it. -/
theorem leads_run (budget : Nat) (r : Rule α) {Known : Lexeme → Prop} (hr : r.Looks Known)
    {s : TokenStream} (hs : Known s.current.toLexeme) :
    r.Leads limit budget s (r.run (enter limit budget) s) := by
  induction budget generalizing α r Known s with
  | zero => exact leads_run_of_nested (fun b hb => absurd hb (by simp)) r hr hs
  | succ budget ih =>
    refine leads_run_of_nested (fun b hb n s => ?_) r hr hs
    obtain rfl : budget = b := by omega
    exact ih n.rule (n.rule_looks : n.rule.Looks fun _ => True) trivial

/-- A document is read from a fresh stream by taking the token that it shows and
following the rule for documents. -/
def source : Rule Document := take (fun _ => .ok ()) fun _ => document

theorem document_eq_andThen (options : ParseOptions) (s : TokenStream) :
    s.document options = (s.takeAny fun _ => .ok ()).andThen fun _ s' =>
      document.run (enter options.maxDepth options.maxDepth) s' := by
  rw [TokenStream.document, TokenStream.takeAny]
  generalize s.advance = p
  obtain ⟨item, s'⟩ := p
  cases item <;> rfl

/-- Without any provisions, reading a document leads to the outcome of reading
it, and to no other. -/
theorem source_leads_iff {options : ParseOptions} {s : TokenStream} {o : Outcome Document} :
    source.Leads options.maxDepth options.maxDepth s o ↔ o = s.document options := by
  have hlooks : document.Looks fun _ => True := document_looks
  have hleads : source.Leads options.maxDepth options.maxDepth s (s.document options) := by
    rw [document_eq_andThen]
    exact leads_take (fun _ s => leads_run _ document hlooks trivial) s
  constructor
  · exact hleads.unique
  · rintro rfl
    exact hleads

end Rule

end GraphQL
