/-
What a token stream gives out.

A stream is one token behind its source.  Each call of `advance` asks the source for
one more item, shows it, and gives out the token that was shown before.

* `TokenStream.after` — a stream after a number of calls;
* `TokenStream.rest_after` — each call asks for the next item of the source;
* `TokenStream.passed_of_lt`, `TokenStream.passed_of_le` — what one more call adds to
  the tokens that have passed through, as long as the source has items and afterwards;
* `TokenStream.passes_on` — so tokens pass through a stream in their order, none of
  them lost or repeated, and faults are given out where they stand.

Design notes: the tokens given out and the one in view make up one list, and it is
this list that grows by one token with each token pulled.  Its last token says where
the source ran dry.
-/
import GraphQL.Proofs.Grammar.Stream

namespace GraphQL

/-- The tokens among some items. -/
def tokensOf (items : List Item) : List Token := items.filterMap Except.toOption

@[simp] theorem tokensOf_append (items items' : List Item) :
    tokensOf (items ++ items') = tokensOf items ++ tokensOf items' := List.filterMap_append

@[simp] theorem tokensOf_ok (t : Token) : tokensOf [.ok t] = [t] := rfl

@[simp] theorem tokensOf_error (e : LexicalError) : tokensOf [.error e] = [] := rfl

/-- Behind some tokens, any number of ends of the input stand in the same place. -/
theorem endOf_append_replicate (ts : List Token) (n : Nat) :
    endOf (ts ++ List.replicate n (.endAt (endOf ts))) = endOf ts := by
  cases n with
  | zero => rw [List.replicate_zero, List.append_nil]
  | succ n =>
    rw [List.replicate_succ', ← List.append_assoc, endOf_append_singleton]
    rfl

namespace TokenStream

/-! ### One call -/

section

variable {s : TokenStream} {rest : List Item}

theorem advance_of_nil (h : s.rest = []) :
    s.advance = (.ok s.current, ⟨.endAt s.current.span.stop, [], s.pulls + 1⟩) := by
  rw [advance, h]

theorem advance_of_ok {t : Token} (h : s.rest = .ok t :: rest) :
    s.advance = (.ok s.current, ⟨t, rest, s.pulls + 1⟩) := by
  rw [advance, h]

theorem advance_of_error {e : LexicalError} (h : s.rest = .error e :: rest) :
    s.advance = (.error e, ⟨s.current, rest, s.pulls + 1⟩) := by
  rw [advance, h]

/-- A call takes one item from the source. -/
theorem rest_advance : s.advance.2.rest = s.rest.tail := by
  cases h : s.rest with
  | nil => rw [advance_of_nil h, List.tail_nil]
  | cons item rest =>
    cases item with
    | ok t => rw [advance_of_ok h, List.tail_cons]
    | error e => rw [advance_of_error h, List.tail_cons]

/-- A fault is given out exactly by the call that pulls it. -/
theorem advance_eq_error_iff {e : LexicalError} :
    s.advance.1 = .error e ↔ s.rest.head? = some (.error e) := by
  cases h : s.rest with
  | nil => simp [advance_of_nil h]
  | cons item rest =>
    cases item with
    | ok t => simp [advance_of_ok h]
    | error e' => simp [advance_of_error h]

/-- A fault leaves the token in view. -/
theorem current_advance_of_error {e : LexicalError} (h : s.advance.1 = .error e) :
    s.advance.2.current = s.current := by
  obtain ⟨rest, hrest⟩ := List.head?_eq_some_iff.1 (advance_eq_error_iff.1 h)
  rw [advance_of_error hrest]

end

/-! ### A run of calls -/

/-- The stream after a number of calls. -/
def after (s : TokenStream) : Nat → TokenStream
  | 0 => s
  | n + 1 => (s.after n).advance.2

/-- What the call behind the first `n` gives out. -/
def answer (s : TokenStream) (n : Nat) : Item := (s.after n).advance.1

/-- What the first `n` calls give out. -/
def answers (s : TokenStream) (n : Nat) : List Item := (List.range n).map s.answer

/-- The tokens that the first `n` calls give out, and the one in view behind them. -/
def passed (s : TokenStream) (n : Nat) : List Token :=
  tokensOf (s.answers n) ++ [(s.after n).current]

theorem answers_add_one (s : TokenStream) (n : Nat) :
    s.answers (n + 1) = s.answers n ++ [s.answer n] := by
  rw [answers, answers, List.range_succ, List.map_append, List.map_singleton]

theorem endOf_passed (s : TokenStream) (n : Nat) :
    endOf (s.passed n) = (s.after n).current.span.stop := by
  rw [passed, endOf_append_singleton]

variable (items : List Item) (n : Nat)

/-- Each call asks for the next item of the source. -/
theorem rest_after : ((new items).after n).rest = items.drop n := by
  induction n with
  | zero => rfl
  | succ n ih => rw [after, rest_advance, ih, List.tail_drop]

theorem answer_eq_error_iff (e : LexicalError) :
    (new items).answer n = .error e ↔ items[n]? = some (.error e) := by
  rw [answer, advance_eq_error_iff, rest_after, List.head?_drop]

variable {items n}

/-- As long as the source has items, the token that was pulled passes, or none does if
it was a fault. -/
theorem passed_of_lt (hn : n < items.length) :
    (new items).passed (n + 1) = (new items).passed n ++ tokensOf [items[n]] := by
  have hrest : ((new items).after n).rest = items[n] :: items.drop (n + 1) := by
    rw [rest_after, List.drop_eq_getElem_cons hn]
  rw [passed, passed, answers_add_one, tokensOf_append, answer, after]
  cases hitem : items[n] with
  | ok t =>
    rw [hitem] at hrest
    rw [advance_of_ok hrest, tokensOf_ok, tokensOf_ok]
  | error e =>
    rw [hitem] at hrest
    rw [advance_of_error hrest, tokensOf_error, List.append_nil, List.append_nil]

/-- Afterwards, the end of the input does, behind what has passed until then. -/
theorem passed_of_le (hn : items.length ≤ n) :
    (new items).passed (n + 1) =
      (new items).passed n ++ [.endAt (endOf ((new items).passed n))] := by
  have hrest : ((new items).after n).rest = [] := by
    rw [rest_after, List.drop_of_length_le hn]
  rw [endOf_passed, passed, passed, answers_add_one, tokensOf_append, answer, after,
    advance_of_nil hrest, tokensOf_ok]

variable (items n)

/-- What has passed after `n` calls: the end of the input that a fresh stream shows, the
tokens pulled, and the end of the input once for each call that came too late. -/
theorem passed_eq :
    (new items).passed n = .endAt .zero :: tokensOf (items.take n)
      ++ List.replicate (n - items.length) (.endAt (endOf (tokensOf items))) := by
  induction n with
  | zero => simp [passed, answers, after, new, tokensOf]
  | succ n ih =>
    by_cases hn : n < items.length
    · have hnone : n - items.length = 0 := by omega
      have hnone' : n + 1 - items.length = 0 := by omega
      have htake : items.take (n + 1) = items.take n ++ [items[n]] := by
        rw [List.take_append_getElem]
      rw [passed_of_lt hn, ih, hnone, hnone', htake, tokensOf_append]
      simp only [List.replicate_zero, List.append_nil, List.cons_append]
    · have hle : items.length ≤ n := by omega
      have hall : items.take n = items := List.take_of_length_le hle
      have hall' : items.take (n + 1) = items := List.take_of_length_le (by omega)
      have hmore : n + 1 - items.length = (n - items.length) + 1 := by omega
      rw [hall] at ih
      have hend : endOf ((new items).passed n) = endOf (tokensOf items) := by
        have hstop := endOf_append_replicate (.endAt .zero :: tokensOf items) (n - items.length)
        rw [ih]
        simpa only [endOf_endAt_zero_cons] using hstop
      rw [passed_of_le hle, hend, ih, hall', hmore, List.replicate_succ', List.append_assoc]

/-- Tokens pass through a stream in their order.  Each call asks for the next item of
the source; a fault is given out by the call that pulls it, and leaves the token in
view.  The tokens given out and the one in view are the end of the input in front of
everything, which a fresh stream shows, the tokens pulled, and the end of the input
behind the last of them, once for each call made after the source ran dry. -/
theorem passes_on :
    (∀ k, ((new items).after k).rest = items.drop k) ∧
    (∀ k e, (new items).answer k = .error e ↔ items[k]? = some (.error e)) ∧
    (∀ k e, (new items).answer k = .error e →
      ((new items).after (k + 1)).current = ((new items).after k).current) ∧
    tokensOf ((new items).answers n) ++ [((new items).after n).current] =
      .endAt .zero :: tokensOf (items.take n)
        ++ List.replicate (n - items.length) (.endAt (endOf (tokensOf items))) :=
  ⟨rest_after items, answer_eq_error_iff items, fun _ _ h => current_advance_of_error h,
    passed_eq items n⟩

/-- A name. -/
def firstName : Token := ⟨.ofName "a", ⟨⟨0, 0, 0, 0⟩, ⟨1, 0, 1, 1⟩⟩⟩

/-- A fault behind `firstName`. -/
def strayMark : LexicalError := .of (.unexpectedCharacter '?') ⟨⟨1, 0, 1, 1⟩, ⟨2, 0, 2, 2⟩⟩

/-- A name behind `strayMark`. -/
def secondName : Token := ⟨.ofName "b", ⟨⟨2, 0, 2, 2⟩, ⟨3, 0, 3, 3⟩⟩⟩

/-- Five calls on two names with a fault between them, two of them too late. -/
theorem passes_on_secondName :
    let s := new [.ok firstName, .error strayMark, .ok secondName]
    let last := Token.endAt ⟨3, 0, 3, 3⟩
    s.answer 1 = .error strayMark ∧ (s.after 2).current = (s.after 1).current ∧
      tokensOf (s.answers 5) ++ [(s.after 5).current] =
        [.endAt .zero, firstName, secondName, last, last] := by
  obtain ⟨-, hfault, hkeeps, hpassed⟩ :=
    passes_on [.ok firstName, .error strayMark, .ok secondName] 5
  have h : (new [.ok firstName, .error strayMark, .ok secondName]).answer 1 = .error strayMark :=
    (hfault 1 strayMark).2 rfl
  exact ⟨h, hkeeps 1 strayMark h, hpassed⟩

end TokenStream

end GraphQL
