/-
The two ways of asking a lexer.

`nextToken` always has an answer.  `next?` has none any more once it has given out an
item that nothing can follow.  Both move one lexer on, so they may be mixed.

* `Lexer.nth` — the answers of `nextToken`, one after the other;
* `Lexer.nextToken_of_isLast` — behind an item that nothing can follow, a lexer stays
  where it is;
* `Lexer.Call`, `Lexer.transcript` — calls of either kind and what is answered;
* `Lexer.ask_marked` — what one call answers, and how it leaves the lexer;
* `Lexer.answers_mixed` — in any mixture of calls, those that are answered get the
  answers of `nextToken` in their order.

Design notes: `nextToken` does not look at the mark that `next?` leaves on a finished
lexer, and keeps it.  So all that has to be known of the calls made before are how many
of them were answered, and whether `next?` has finished.
-/
import GraphQL.Proofs.Lexical.Cursor
import GraphQL.Proofs.Lexical.Lexer

namespace GraphQL.Lexer

variable (l : Lexer)

/-- What `nextToken` answers after `n` calls. -/
def nth (n : Nat) : Item := (l.after n).nextToken.1

theorem after_add_one (n : Nat) : l.after (n + 1) = l.nextToken.2.after n := by
  induction n with
  | zero => rfl
  | succ n ih => rw [after, ih, after]

theorem nth_add_one (n : Nat) : l.nth (n + 1) = l.nextToken.2.nth n := by
  rw [nth, after_add_one, nth]

/-! ### The end -/

/-- Where nothing but ignored text is left, the end of the input is behind it. -/
theorem nextToken_of_stop {l : Lexer} (hl : l.failure? = none)
    (h : (splitIgnored false l.rest).2 = []) :
    l.nextToken = (.ok (.endAt (l.cursor.past (splitIgnored false l.rest).1).position),
      { l with cursor := l.cursor.past (splitIgnored false l.rest).1, rest := [] }) := by
  have hr : Scan.lexeme (splitIgnored false l.rest).2 = .ok ⟨⟨.endOfInput, none⟩, [], []⟩ := by
    rw [h]
    rfl
  exact nextToken_of_ok hl hr

/-- Behind an item that nothing can follow, a lexer stays where it is. -/
theorem nextToken_of_isLast {l : Lexer} (h : l.nextToken.1.isLast = true) :
    l.nextToken.2.nextToken = l.nextToken := by
  cases hl : l.failure? with
  | some e => rw [nextToken_of_failure hl, nextToken_of_failure hl]
  | none =>
    by_cases hstop : (splitIgnored false l.rest).2 = []
    · rw [nextToken_of_stop hl hstop]
      exact nextToken_of_stop hl rfl
    · cases hr : Scan.lexeme (splitIgnored false l.rest).2 with
      | error e => rw [nextToken_of_error hl hr, nextToken_of_failure rfl]
      | ok r =>
        -- As something is left, a lexeme is read, and that can be followed.
        rw [nextToken_of_ok hl hr] at h
        exact absurd (by simpa [Item.isLast] using h) (Scan.spellable_of_lexeme hstop hr).kind_ne

variable {l} in
theorem nextToken_after_of_isLast {n m : Nat} (h : (l.nth n).isLast = true) (hm : n ≤ m) :
    (l.after m).nextToken = (l.after n).nextToken := by
  induction hm with
  | refl => rfl
  | @step m hm ih =>
    have hlast : (l.after m).nextToken.1.isLast = true := by rwa [ih]
    rw [after, nextToken_of_isLast hlast, ih]

/-- Before its text is used up, a lexer comes to an item that nothing can follow. -/
theorem exists_nth_isLast : ∃ n ≤ l.rest.length, (l.nth n).isLast = true := by
  induction hs : l.rest.length using Nat.strongRecOn generalizing l with
  | _ size ih =>
    cases hlast : l.nextToken.1.isLast with
    | true => exact ⟨0, Nat.zero_le _, hlast⟩
    | false =>
      have hlt : l.nextToken.2.rest.length < size := hs ▸ length_rest_nextToken_lt rfl hlast
      obtain ⟨n, hn, hn'⟩ := ih _ hlt _ rfl
      exact ⟨n + 1, by omega, by rwa [nth_add_one]⟩

/-! ### Calls -/

/-- The two ways of asking a lexer. -/
inductive Call
  | nextToken
  | next
deriving DecidableEq

/-- Asks a lexer in one of the two ways. -/
def ask : Call → Option Item × Lexer
  | .nextToken => (some l.nextToken.1, l.nextToken.2)
  | .next => l.next?

/-- Some calls, one after the other, each with its answer. -/
def transcript (l : Lexer) : List Call → List (Call × Option Item)
  | [] => []
  | c :: cs => (c, (l.ask c).1) :: (l.ask c).2.transcript cs

theorem map_fst_transcript (calls : List Call) : (l.transcript calls).map Prod.fst = calls := by
  induction calls generalizing l with
  | nil => rfl
  | cons c cs ih => rw [transcript, List.map_cons, ih]

/-- How many calls were answered. -/
def answered (t : List (Call × Option Item)) : Nat := t.countP (·.2.isSome)

/-- Whether `next?` has given out an item that nothing can follow. -/
def ended (t : List (Call × Option Item)) : Bool :=
  t.any fun entry => entry.1 == .next && entry.2.any Item.isLast

@[simp] theorem answered_cons_none (c : Call) (t : List (Call × Option Item)) :
    answered ((c, none) :: t) = answered t := by
  simp [answered]

@[simp] theorem answered_cons_some (c : Call) (item : Item) (t : List (Call × Option Item)) :
    answered ((c, some item) :: t) = answered t + 1 := by
  simp [answered]

@[simp] theorem ended_cons (c : Call) (a : Option Item) (t : List (Call × Option Item)) :
    ended ((c, a) :: t) = (c == .next && a.any Item.isLast || ended t) := rfl

theorem ended_eq_true_iff {t : List (Call × Option Item)} :
    ended t = true ↔ ∃ item, (.next, some item) ∈ t ∧ item.isLast = true := by
  simp only [ended, List.any_eq_true, Bool.and_eq_true, beq_iff_eq, Option.any_eq_true]
  constructor
  · rintro ⟨⟨c, a⟩, hmem, rfl, item, rfl, hlast⟩
    exact ⟨item, hmem, hlast⟩
  · rintro ⟨item, hmem, hlast⟩
    exact ⟨_, hmem, rfl, item, rfl, hlast⟩

/-- A lexer with or without the mark of a finished one. -/
def marked (finished : Bool) : Lexer := { l with finished }

/-- `nextToken` neither looks at the mark nor changes it. -/
theorem nextToken_marked (b : Bool) :
    (l.marked b).nextToken = (l.nextToken.1, l.nextToken.2.marked b) := by
  cases hl : l.failure? with
  | some e => rw [nextToken_of_failure hl, nextToken_of_failure (l := l.marked b) hl]
  | none =>
    cases hr : Scan.lexeme (splitIgnored false l.rest).2 with
    | error e =>
      rw [nextToken_of_error hl hr, nextToken_of_error (l := l.marked b) hl hr]
      rfl
    | ok r =>
      rw [nextToken_of_ok hl hr, nextToken_of_ok (l := l.marked b) hl hr]
      rfl

/-- What one call answers behind `n` answers, and how it leaves the lexer. -/
theorem ask_marked (n : Nat) (b : Bool) (c : Call) :
    ((l.after n).marked b).ask c =
      if c = .next ∧ b = true then (none, (l.after n).marked b)
      else (some (l.nth n), (l.after (n + 1)).marked (b || c == .next && (l.nth n).isLast)) := by
  cases c with
  | nextToken =>
    rw [if_neg (by simp), ask, nextToken_marked, after, nth]
    cases b <;> rfl
  | next =>
    cases b with
    | true => rw [if_pos ⟨rfl, rfl⟩, ask, next?, marked, if_pos rfl]
    | false =>
      rw [if_neg (by simp), ask, next?, if_neg (by simp [marked]), nextToken_marked, after, nth]
      rfl

/-- Each call of a run is answered as the answers in front of it demand. -/
theorem answer_of_transcript {n : Nat} {b : Bool} {calls : List Call}
    {before later : List (Call × Option Item)} {c : Call} {a : Option Item}
    (h : ((l.after n).marked b).transcript calls = before ++ (c, a) :: later) :
    a = if c = .next ∧ (b || ended before) = true then none
      else some (l.nth (n + answered before)) := by
  induction before generalizing n b calls with
  | nil =>
    cases calls with
    | nil => cases h
    | cons c' cs =>
      rw [transcript, ask_marked] at h
      obtain ⟨hentry, -⟩ := List.cons_eq_cons.1 h
      obtain ⟨rfl, rfl⟩ := Prod.mk.inj hentry
      rw [apply_ite Prod.fst]
      simp [ended, answered]
  | cons entry before ih =>
    cases calls with
    | nil => cases h
    | cons c' cs =>
      rw [transcript, ask_marked] at h
      obtain ⟨rfl, hrest⟩ := List.cons_eq_cons.1 h
      by_cases hc : c' = .next ∧ b = true
      · -- This call is not answered, and nothing changes.
        rw [if_pos hc] at hrest ⊢
        rw [ih hrest, answered_cons_none, ended_cons, Option.any_none, Bool.and_false,
          Bool.false_or]
      · -- It is answered, and may be the one with which `next?` finishes.
        rw [if_neg hc] at hrest ⊢
        rw [ih hrest, answered_cons_some, ended_cons, Option.any_some, Bool.or_assoc,
          Nat.add_assoc n 1, Nat.add_comm 1]

/-- The answers of `nextToken` come to an item that nothing can follow, and do not change
from then on.  In any mixture of calls, `next?` has no answer exactly when it has given
out such an item before, and every other call gets the answer of `nextToken` that comes
next behind those given so far. -/
theorem answers_mixed (source : String) :
    (∃ n ≤ source.length, ((new source).nth n).isLast = true) ∧
    (∀ n m, ((new source).nth n).isLast = true → n ≤ m →
      (new source).nth m = (new source).nth n) ∧
    ∀ calls, ((new source).transcript calls).map Prod.fst = calls ∧
      ∀ before c a later, (new source).transcript calls = before ++ (c, a) :: later →
        (a = none ↔ c = .next ∧ ∃ item, (.next, some item) ∈ before ∧ item.isLast = true) ∧
        (a ≠ none → a = some ((new source).nth (answered before))) := by
  refine ⟨?_, fun n m h hm => ?_, fun calls => ⟨map_fst_transcript _ calls, ?_⟩⟩
  · rw [← String.length_toList]
    exact (new source).exists_nth_isLast
  · rw [nth, nth, nextToken_after_of_isLast h hm]
  · intro before c a later h
    have ha := answer_of_transcript (new source) (n := 0) (b := false) h
    rw [Nat.zero_add, Bool.false_or] at ha
    rw [← ended_eq_true_iff, ha]
    split
    · next hended => exact ⟨iff_of_true rfl hended, fun hne => absurd rfl hne⟩
    · next hended => exact ⟨iff_of_false nofun hended, fun _ => rfl⟩

/-- Where `nextToken` has come to the end, `next?` gives it out once more.  After that it
has no answer, but `nextToken` has. -/
theorem answers_mixed_oneName :
    let name : Item := .ok ⟨.ofName "a", ⟨.zero, ⟨1, 0, 1, 1⟩⟩⟩
    let last : Item := .ok (.endAt ⟨1, 0, 1, 1⟩)
    let before := [(.nextToken, some name), (.nextToken, some last), (.next, some last)]
    (new "a").transcript [.nextToken, .nextToken, .next, .next, .nextToken] =
        before ++ (.next, none) :: [(.nextToken, some last)] ∧
      (∃ item, (Call.next, some item) ∈ before ∧ item.isLast = true) ∧
      ((new "a").nth 1).isLast = true ∧ (new "a").nth 7 = (new "a").nth 1 ∧
      some last = some ((new "a").nth 3) := by
  obtain ⟨-, hstays, hcalls⟩ := answers_mixed "a"
  obtain ⟨-, hanswers⟩ := hcalls [.nextToken, .nextToken, .next, .next, .nextToken]
  refine ⟨rfl, ((hanswers _ .next none _ rfl).1.1 rfl).2, rfl, hstays 1 7 rfl (by decide), ?_⟩
  exact (hanswers [_, _, _, _] .nextToken _ [] rfl).2 (Option.some_ne_none _)

end GraphQL.Lexer
