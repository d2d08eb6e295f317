/-
Rules that keep to a phrase.

A `Phrase` says which lists of lexemes spell a tree that is nested no deeper
than a given number of levels.  A rule keeps to a phrase if

* what it accepts is spelled by the lexemes it takes, and
* what it has taken where it gives up can be completed to a spelling: before a
  lexeme it refuses, before a construct that is nested too deep, and where the
  source breaks off.

`Rule.Keeps` states both at once, because the second needs the first: a rule
that gives up has accepted parts before.  Every way of building rules keeps to
the phrase built in the same way.

Design notes: phrases combine without looking ahead, so a refused lexeme is
never an obstacle for the completion of what precedes it.  The completion may
be nested deeper than the budget of the rule that refused.  Where the source
breaks off, one lexeme may have been taken that would have been refused: the
name `null`, which is judged only after the next lexeme has been fetched.
-/
import GraphQL.Proofs.Document.Depth
import GraphQL.Proofs.Grammar.Derivation
import GraphQL.Proofs.Grammar.Verdict

namespace GraphQL

/-- Which lists of lexemes spell a tree within a number of levels. -/
abbrev Phrase (α : Type) : Type := Nat → α → List Lexeme → Prop

namespace Phrase

variable {α β : Type}

/-- Nothing, standing for a given tree. -/
def nothing (a : α) : Phrase α := fun _ b w => b = a ∧ w = []

/-- One phrase and then another, which may depend on the first. -/
def andThen (p : Phrase α) (q : α → Phrase β) : Phrase β :=
  fun n b w => ∃ a u v, p n a u ∧ q a n b v ∧ w = u ++ v

/-- The same spellings for other trees. -/
def map (f : α → β) (p : Phrase α) : Phrase β := fun n b w => ∃ a, p n a w ∧ b = f a

/-- The spellings of a derivation that has no levels. -/
def flat (derives : α → List Lexeme → Prop) : Phrase α := fun _ a w => derives a w

/-- The spellings of a derivation, with a measure of the levels. -/
def within (derives : α → List Lexeme → Prop) (depth : α → Nat) : Phrase α :=
  fun n a w => derives a w ∧ depth a ≤ n

/-- Some lexemes can be completed to a spelling, given enough levels. -/
def Viable (p : Phrase α) (w : List Lexeme) : Prop :=
  ∃ a v m, ∀ n, m ≤ n → p n a (w ++ v)

variable {p : Phrase α} {q : α → Phrase β}

theorem Viable.mono {p' : Phrase α} {w : List Lexeme} (h : p.Viable w)
    (hp : ∀ n a w, p n a w → p' n a w) : p'.Viable w := by
  obtain ⟨a, v, m, hv⟩ := h
  exact ⟨a, v, m, fun n hn => hp n a _ (hv n hn)⟩

theorem Viable.of_derives {derives : α → List Lexeme → Prop} {depth : α → Nat} {a : α}
    {w : List Lexeme} (h : derives a w) : (within derives depth).Viable [] :=
  ⟨a, w, depth a, fun _ hn => ⟨h, hn⟩⟩

/-- An unfinished first phrase is completed, and the second one added. -/
theorem Viable.andThen_left {w : List Lexeme} (h : p.Viable w) (hq : ∀ a, (q a).Viable []) :
    (p.andThen q).Viable w := by
  obtain ⟨a, v, m, hv⟩ := h
  obtain ⟨b, u, m', hu⟩ := hq a
  refine ⟨b, v ++ u, max m m', fun n hn => ⟨a, w ++ v, u, hv n (by omega), ?_, by simp⟩⟩
  simpa using hu n (by omega)

/-- Behind a finished first phrase the second one is completed. -/
theorem Viable.andThen_right {a : α} {u w : List Lexeme} {m : Nat} (h : ∀ n, m ≤ n → p n a u)
    (hw : (q a).Viable w) : (p.andThen q).Viable (u ++ w) := by
  obtain ⟨b, v, m', hv⟩ := hw
  exact ⟨b, v, max m m', fun n hn => ⟨a, u, w ++ v, h n (by omega), hv n (by omega), by simp⟩⟩

end Phrase

open Phrase

/-- What can be taken without being judged: nothing, or one `null`. -/
def Unjudged (ws : List Lexeme) : Prop := ws = [] ∨ ∃ x, ws = [x] ∧ x.isKeyword .nullLiteral = true

/-- A verdict on `ws` keeps to a phrase within `n` levels. -/
def Verdict.Keeps {α : Type} (p : Phrase α) (n : Nat) (ws : List Lexeme) : Verdict α → Prop
  | accept a rest => ∃ w, ws = w ++ rest ∧ ∀ m, n ≤ m → p m a w
  | refuse _ rest | tooDeep rest => ∃ w, ws = w ++ rest ∧ p.Viable w
  | broken => ∃ w rest, ws = w ++ rest ∧ p.Viable w ∧ Unjudged rest

namespace Verdict.Keeps

variable {α β : Type} {p p' : Phrase α} {q : α → Phrase β} {n : Nat} {ws : List Lexeme}
  {v : Verdict α}

theorem mono (h : v.Keeps p n ws) (hp : ∀ n a w, p n a w → p' n a w) : v.Keeps p' n ws := by
  cases v with
  | accept a rest =>
    obtain ⟨w, hw, ha⟩ := h
    exact ⟨w, hw, fun m hm => hp m a w (ha m hm)⟩
  | refuse _ rest | tooDeep rest =>
    obtain ⟨w, hw, hv⟩ := h
    exact ⟨w, hw, hv.mono hp⟩
  | broken =>
    obtain ⟨w, rest, hw, hv, hr⟩ := h
    exact ⟨w, rest, hw, hv.mono hp, hr⟩

theorem andThen {f : α → List Lexeme → Verdict β} (h : v.Keeps p n ws)
    (hq : ∀ a, (q a).Viable []) (hf : ∀ a rest, (f a rest).Keeps (q a) n rest) :
    (v.andThen f).Keeps (p.andThen q) n ws := by
  cases v with
  | accept a mid =>
    obtain ⟨u, rfl, hu⟩ := h
    have hm := hf a mid
    rw [Verdict.andThen]
    cases hv : f a mid with
    | accept b rest =>
      rw [hv] at hm
      obtain ⟨w, rfl, hw⟩ := hm
      exact ⟨u ++ w, by simp, fun m hm => ⟨a, u, w, hu m hm, hw m hm, rfl⟩⟩
    | refuse _ rest | tooDeep rest =>
      rw [hv] at hm
      obtain ⟨w, rfl, hw⟩ := hm
      exact ⟨u ++ w, by simp, hw.andThen_right hu⟩
    | broken =>
      rw [hv] at hm
      obtain ⟨w, rest, rfl, hw, hr⟩ := hm
      exact ⟨u ++ w, rest, by simp, hw.andThen_right hu, hr⟩
  | refuse _ rest | tooDeep rest =>
    obtain ⟨w, rfl, hw⟩ := h
    exact ⟨w, rfl, hw.andThen_left hq⟩
  | broken =>
    obtain ⟨w, rest, rfl, hw, hr⟩ := h
    exact ⟨w, rest, rfl, hw.andThen_left hq, hr⟩

theorem read_map {k : Reader} {r : Rule α} (f : α → β) (h : (r.read k ws).Keeps p n ws) :
    ((f <$> r).read k ws).Keeps (p.map f) n ws := by
  rw [show f <$> r = r >>= fun a => pure (f a) from rfl, Rule.read_bind]
  have hpure := h.andThen (q := fun a => nothing (f a))
    (f := fun a rest => (pure (f a) : Rule β).read k rest)
    (fun a => ⟨f a, [], 0, fun _ _ => ⟨rfl, rfl⟩⟩) fun _ _ => ⟨[], rfl, fun _ _ => ⟨rfl, rfl⟩⟩
  refine hpure.mono ?_
  rintro m b w ⟨a, u, _, ha, ⟨rfl, rfl⟩, rfl⟩
  exact ⟨a, by simpa using ha, rfl⟩

end Verdict.Keeps

/-- A rule keeps to a phrase within `n` levels, and the phrase has a spelling. -/
structure Rule.Keeps (k : Reader) (n : Nat) {α : Type} (r : Rule α) (p : Phrase α) : Prop where
  viable : p.Viable []
  read (ws : List Lexeme) : (r.read k ws).Keeps p n ws

namespace Rule.Keeps

variable {k : Reader} {n : Nat} {α β : Type} {r : Rule α} {p p' : Phrase α}

theorem mono (h : r.Keeps k n p) (hp : ∀ n a w, p n a w → p' n a w) : r.Keeps k n p' :=
  ⟨h.viable.mono hp, fun ws => (h.read ws).mono hp⟩

theorem done (a : α) : (Rule.done a).Keeps k n (nothing a) :=
  ⟨⟨a, [], 0, fun _ _ => ⟨rfl, rfl⟩⟩, fun _ => ⟨[], rfl, fun _ _ => ⟨rfl, rfl⟩⟩⟩

theorem bind {f : α → Rule β} {q : α → Phrase β} (h : r.Keeps k n p)
    (hf : ∀ a, (f a).Keeps k n (q a)) : (r >>= f).Keeps k n (p.andThen q) := by
  refine ⟨h.viable.andThen_left fun a => (hf a).viable, fun ws => ?_⟩
  rw [Rule.read_bind]
  exact (h.read ws).andThen (fun a => (hf a).viable) fun a rest => (hf a).read rest

theorem bind_pure (f : α → β) (h : r.Keeps k n p) :
    (r >>= fun a => pure (f a)).Keeps k n (p.map f) := by
  refine (h.bind fun a => done (f a)).mono ?_
  rintro m b w ⟨a, u, _, ha, ⟨rfl, rfl⟩, rfl⟩
  exact ⟨a, by simpa using ha, rfl⟩

theorem map (f : α → β) (h : r.Keeps k n p) : (f <$> r).Keeps k n (p.map f) := h.bind_pure f

theorem look {next : Lexeme → Rule α} (h : ∀ x, (next x).Keeps k n p) :
    (Rule.look next).Keeps k n p :=
  ⟨(h (front [])).viable, fun ws => (h (front ws)).read ws⟩

theorem refuse (hp : p.Viable []) (r : Refusal) : (Rule.refuse r).Keeps k n p :=
  ⟨hp, fun _ => ⟨[], rfl, hp⟩⟩

theorem ite {c : Prop} [Decidable c] {r' : Rule α} (h : c → r.Keeps k n p)
    (h' : ¬c → r'.Keeps k n p) : (if c then r else r').Keeps k n p := by
  split
  · next hc => exact h hc
  · next hc => exact h' hc

end Rule.Keeps

section Shapes

variable {k : Reader} {n : Nat} {α β : Type} {p : Phrase α}

/-- A lexeme that is taken keeps to a phrase if its judgement does, which may
refuse nothing but `null`. -/
theorem Reader.take_keeps {judge : Lexeme → Except Refusal α} {ws : List Lexeme}
    (hp : p.Viable []) (h : ∀ a, judge (front ws) = .ok a → ∀ m, n ≤ m → p m a [front ws])
    (hj : ∀ r, judge (front ws) = .error r → (front ws).isKeyword .nullLiteral = true) :
    (k.take judge ws).Keeps p n ws := by
  cases ws with
  | nil => exact ⟨[], rfl, hp⟩
  | cons x ws =>
    rw [Reader.take]
    split
    · exact ⟨[], rfl, hp⟩
    · split
      · next hb =>
        -- The source breaks off behind the lexeme, which is taken but never judged.
        have hnil : ws = [] := by simpa using (Bool.and_eq_true_iff.1 hb).2
        subst hnil
        cases hx : judge x with
        | ok a => exact ⟨[x], [], rfl, ⟨a, [], n, h a hx⟩, .inl rfl⟩
        | error r => exact ⟨[], [x], rfl, hp, .inr ⟨x, rfl, hj r hx⟩⟩
      · split
        · next a ha => exact ⟨[x], rfl, h a ha⟩
        · exact ⟨[], rfl, hp⟩

theorem Rule.read_take_done (judge : Lexeme → Except Refusal α) (ws : List Lexeme) :
    (Rule.take judge .done).read k ws = k.take judge ws := by
  show (k.take judge ws).andThen _ = _
  cases k.take judge ws <;> rfl

/-- An expected lexeme is taken and turned into something at once. -/
theorem Rule.read_map_expect (t : TokenKind) (f : String → α) (ws : List Lexeme) :
    (f <$> Rule.expect t).read k ws =
      if (front ws).kind = t then k.take (fun x => .ok (f x.text)) ws
      else .refuse (.wrongKind t) ws := by
  rw [show f <$> Rule.expect t = Rule.expect t >>= fun s => pure (f s) from rfl, Rule.read_bind,
    Rule.expect, Rule.read]
  split
  · rw [Rule.read_take_done]
    cases ws with
    | nil => rfl
    | cons x ws =>
      rw [Reader.take, Reader.take]
      split
      · rfl
      · split <;> rfl
  · rfl

/-- The spellings of some items, one after the other. -/
def Phrase.many (p : Phrase α) : Phrase (List α) := fun n => Many (p n)

/-- The spellings of an item, or nothing. -/
def Phrase.maybe (p : Phrase α) : Phrase (Option α) := fun n => Maybe (p n)

theorem Reader.repeatWhile_keeps {test : Lexeme → Bool} {item : List Lexeme → Verdict α}
    (h : ∀ ws, (item ws).Keeps p n ws) (ws : List Lexeme) :
    (repeatWhile test item ws).Keeps p.many n ws := by
  fun_induction repeatWhile test item ws with
  | case1 ws _ ih =>
    -- The spelling of the first item is followed by that of the others.
    have hcons : (item ws).andThen (fun b rest =>
        if rest.length < ws.length then
          (repeatWhile test item rest).andThen fun bs rest' => .accept (b :: bs) rest'
        else .accept [b] rest) |>.Keeps
        (p.andThen fun b => p.many.andThen fun bs => nothing (b :: bs)) n ws := by
      refine (h ws).andThen (fun b => ?_) fun b rest => ?_
      · exact ⟨[b], [], 0, fun m _ => ⟨[], [], [], .nil, ⟨rfl, rfl⟩, rfl⟩⟩
      · split
        · next hl =>
          refine (ih rest hl).andThen (fun bs => ?_) fun bs rest' => ?_
          · exact ⟨b :: bs, [], 0, fun m _ => ⟨rfl, rfl⟩⟩
          · exact ⟨[], rfl, fun m _ => ⟨rfl, rfl⟩⟩
        · exact ⟨[], rfl, fun m _ => ⟨[], [], [], .nil, ⟨rfl, rfl⟩, rfl⟩⟩
    refine hcons.mono ?_
    rintro m as w ⟨b, u, _, hb, ⟨bs, v, _, hbs, ⟨rfl, rfl⟩, rfl⟩, rfl⟩
    rw [List.append_nil]
    exact .cons hb hbs
  | case2 ws => exact ⟨[], rfl, fun m _ => .nil⟩

namespace Rule.Keeps

theorem many {test : Lexeme → Bool} {item : Rule α} (h : item.Keeps k n p) :
    (Rule.many test item .done).Keeps k n p.many := by
  refine ⟨⟨[], [], 0, fun m _ => .nil⟩, fun ws => ?_⟩
  show ((Reader.repeatWhile test (item.read k) ws).andThen _).Keeps _ _ _
  have hr : (Reader.repeatWhile test (item.read k) ws).Keeps p.many n ws :=
    Reader.repeatWhile_keeps h.read ws
  generalize Reader.repeatWhile test (item.read k) ws = v at hr
  cases v <;> exact hr

theorem expect (t : TokenKind) : (Rule.expect t).Keeps k n (flat (Terminal t)) := by
  have hp : (flat (Terminal t)).Viable [] :=
    ⟨"", [⟨t, none⟩], 0, fun _ _ => Terminal.intro (x := ⟨t, none⟩) rfl⟩
  refine ⟨hp, fun ws => ?_⟩
  rw [Rule.expect, Rule.read]
  split
  · next ht =>
    rw [Rule.read_take_done]
    refine Reader.take_keeps hp (fun a ha m _ => ?_) (fun e he => ?_)
    · cases ha
      exact .intro ht
    · cases he
  · exact (refuse hp _).read ws

/-- A punctuator that is expected; its text does not matter. -/
theorem symbol (s : Punctuator) : (Rule.expect s).Keeps k n (flat fun _ => Symbol s) := by
  refine (expect _).mono ?_
  rintro m a w ⟨hx⟩
  exact .intro hx

theorem keyword (r : Keyword) : (Rule.keyword r).Keeps k n (flat fun _ => Reserved r) := by
  have hr : (Lexeme.ofName r.text).isKeyword r = true := by
    simp [Lexeme.isKeyword, Lexeme.isName, Lexeme.ofName]
  have hp : (flat fun _ : Unit => Reserved r).Viable [] :=
    ⟨(), [.ofName r.text], 0, fun _ _ => .intro hr⟩
  refine ⟨hp, fun ws => ?_⟩
  rw [Rule.keyword, Rule.read]
  split
  · next hx =>
    rw [Rule.read_take_done]
    refine Reader.take_keeps hp (fun a _ m _ => .intro hx) (fun e he => ?_)
    cases he
  · exact (refuse hp _).read ws

theorem ifNext {test : Lexeme → Bool} {r : Rule α} (h : r.Keeps k n p) :
    (Rule.ifNext test r).Keeps k n p.maybe := by
  refine look fun x => ite (fun _ => (h.map some).mono ?_) fun _ => (done none).mono ?_
  · rintro m a w ⟨b, hb, rfl⟩
    exact .some hb
  · rintro m a w ⟨rfl, rfl⟩
    exact .none

/-- Items up to a closing punctuator. -/
theorem upTo {item : Rule α} (h : item.Keeps k n p) (close : Punctuator) :
    (Rule.upTo item close).Keeps k n
      fun m as w => ∃ u v, Many (p m) as u ∧ Symbol close v ∧ w = u ++ v := by
  refine (h.many.bind fun as => (symbol close).bind_pure fun _ => as).mono ?_
  rintro m as w ⟨_, u, v, hu, ⟨_, hv, rfl⟩, rfl⟩
  exact ⟨u, v, hu, hv, rfl⟩

theorem zeroOrMore {item : Rule α} (h : item.Keeps k n p) (opening close : Punctuator) :
    (Rule.zeroOrMore opening item close).Keeps k n fun m as w =>
      ∃ o u c, Symbol opening o ∧ Many (p m) as u ∧ Symbol close c ∧ w = o ++ (u ++ c) := by
  refine ((symbol opening).bind fun _ => h.upTo close).mono ?_
  rintro m as w ⟨_, o, _, ho, ⟨u, c, hu, hc, rfl⟩, rfl⟩
  exact ⟨o, u, c, ho, hu, hc, rfl⟩

theorem oneOrMore {item : Rule α} (h : item.Keeps k n p) (opening close : Punctuator) :
    (Rule.oneOrMore opening item close).Keeps k n fun m => Enclosed opening (p m) close := by
  refine ((symbol opening).bind fun _ => h.bind fun a =>
    (h.upTo close).bind_pure fun as => a :: as).mono ?_
  rintro m as w ⟨_, o, _, ho, ⟨a, u, _, ha, ⟨bs, ⟨v, c, hv, hc, rfl⟩, rfl⟩, rfl⟩, rfl⟩
  rw [← List.append_assoc u]
  exact .intro ho (.cons ha hv) (by simp) hc

end Rule.Keeps

end Shapes

/-! ### Levels -/

theorem Many.mono {α : Type} {p q : α → List Lexeme → Prop} {as : List α} {w : List Lexeme}
    (h : Many p as w) (hpq : ∀ a w, p a w → q a w) : Many q as w := by
  induction h with
  | nil => exact .nil
  | cons h _ ih => exact .cons (hpq _ _ h) ih

/-- The parts inside a list are within a bound together. -/
theorem Many.within {α : Type} {derives : α → List Lexeme → Prop} {depth : α → Nat} {n : Nat}
    {as : List α} {w : List Lexeme} (h : Many (Phrase.within derives depth n) as w) :
    Many derives as w ∧ ∀ a ∈ as, depth a ≤ n := by
  induction h with
  | nil => exact ⟨.nil, by simp⟩
  | cons h _ ih => exact ⟨.cons h.1 ih.1, by simpa using ⟨h.2, ih.2⟩⟩

theorem Maybe.within {α : Type} {derives : α → List Lexeme → Prop} {depth : α → Nat} {n : Nat}
    {a? : Option α} {w : List Lexeme} (h : Maybe (Phrase.within derives depth n) a? w) :
    Maybe derives a? w ∧ optionalDepth depth a? ≤ n := by
  cases h with
  | none => exact ⟨.none, Nat.zero_le n⟩
  | some h => exact ⟨.some h.1, h.2⟩

theorem Enclosed.within {α : Type} {opening close : Punctuator}
    {derives : α → List Lexeme → Prop} {depth : α → Nat} {n : Nat} {as : List α}
    {w : List Lexeme} (h : Enclosed opening (Phrase.within derives depth n) close as w) :
    Enclosed opening derives close as w ∧ ∀ a ∈ as, depth a ≤ n := by
  cases h with
  | intro ho h hne hc => exact ⟨.intro ho h.within.1 hne hc, h.within.2⟩

/-- Items in parentheses that are left out if there are none. -/
theorem Parenthesized.of_maybe {α : Type} {derives : α → List Lexeme → Prop} {depth : α → Nat}
    {n : Nat} {as? : Option (List α)} {w : List Lexeme}
    (h : Maybe (Enclosed .parenOpen (Phrase.within derives depth n) .parenClose) as? w) :
    Parenthesized derives (as?.getD []) w ∧ ∀ a ∈ as?.getD [], depth a ≤ n := by
  cases h with
  | none => exact ⟨.none, by simp⟩
  | some h => exact ⟨.some h.within.1, h.within.2⟩

end GraphQL
