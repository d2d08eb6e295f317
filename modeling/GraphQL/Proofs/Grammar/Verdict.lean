/-
Rules on lists of lexemes.

A rule never sees more of a stream than the lexeme in view, so what it does
depends only on the lexemes that the stream is going to show.  `Rule.read`
follows a rule along the list of these lexemes:

* `Rule.read_accept` — what a rule accepts, it takes from the front, and it
  never takes the end of the input;
* `Rule.read_persists` — what a rule decides before it has seen the whole list
  stays decided when the unseen part changes;
* `Rule.read_mono` — a reader that gives up less often decides the same.

Design notes: a `Reader` stands for everything around a rule, namely how
nested constructs are read and whether the source breaks off in a fault behind
the last lexeme.  The readers that matter are `Reader.within`, one for each
budget of levels.
-/
import GraphQL.Grammar.Parse

namespace GraphQL

/-- What following a rule along a list of lexemes leads to, and what is left of
the list then.  A lexeme that is refused is the first one left. -/
inductive Verdict (α : Type)
  | accept (a : α) (rest : List Lexeme)
  | refuse (r : Refusal) (rest : List Lexeme)
  | tooDeep (rest : List Lexeme)
  /-- The source broke off. -/
  | broken

/-- Goes on after a success. -/
def Verdict.andThen {α β : Type} (v : Verdict α) (f : α → List Lexeme → Verdict β) : Verdict β :=
  match v with
  | accept a rest => f a rest
  | refuse r rest => refuse r rest
  | tooDeep rest => tooDeep rest
  | broken => broken

/-- The lexeme in view. -/
def front : List Lexeme → Lexeme
  | [] => ⟨.endOfInput, none⟩
  | x :: _ => x

@[simp] theorem front_nil : front [] = ⟨.endOfInput, none⟩ := rfl

@[simp] theorem front_cons (x : Lexeme) (xs : List Lexeme) : front (x :: xs) = x := rfl

/-- What surrounds a rule that is being followed. -/
structure Reader where
  /-- Whether the source breaks off behind the last lexeme. -/
  breaksOff : Bool
  /-- How nested constructs are read. -/
  enter : (n : Nested) → List Lexeme → Verdict n.Tree

namespace Reader

/-- Takes the lexeme in view and judges it. -/
def take {β : Type} (k : Reader) (judge : Lexeme → Except Refusal β) : List Lexeme → Verdict β
  | [] => .refuse (.unexpected []) []
  | x :: rest =>
    if x.kind = .endOfInput then .refuse (.unexpected []) (x :: rest)
    else if k.breaksOff && rest.isEmpty then .broken
    else
      match judge x with
      | .ok b => .accept b rest
      | .error r => .refuse r (x :: rest)

/-- Follows `item` again and again, as long as the lexeme in view passes a test. -/
def repeatWhile {β : Type} (test : Lexeme → Bool) (item : List Lexeme → Verdict β)
    (ws : List Lexeme) : Verdict (List β) :=
  if test (front ws) then
    (item ws).andThen fun b rest =>
      if rest.length < ws.length then
        (repeatWhile test item rest).andThen fun bs rest' => .accept (b :: bs) rest'
      else .accept [b] rest
  else .accept [] ws
termination_by ws.length

end Reader

/-- Follows a rule along a list of lexemes. -/
def Rule.read (k : Reader) {α : Type} : Rule α → List Lexeme → Verdict α
  | done a, ws => .accept a ws
  | look next, ws => (next (front ws)).read k ws
  | take judge next, ws => (k.take judge ws).andThen fun b rest => (next b).read k rest
  | refuse r, ws => .refuse r ws
  | nest n next, ws => (k.enter n ws).andThen fun t rest => (next t).read k rest
  | many test item next, ws =>
    (Reader.repeatWhile test (item.read k) ws).andThen fun bs rest => (next bs).read k rest

/-- The reader with a budget of levels. -/
def Reader.within (breaksOff : Bool) : Nat → Reader
  | 0 => ⟨breaksOff, fun _ ws => .tooDeep ws⟩
  | budget + 1 => ⟨breaksOff, fun n ws => n.rule.read (within breaksOff budget) ws⟩

@[simp] theorem Reader.within_breaksOff (breaksOff : Bool) (budget : Nat) :
    (Reader.within breaksOff budget).breaksOff = breaksOff := by
  cases budget <;> rfl

/-! ### Sequences -/

namespace Verdict

variable {α β γ : Type}

theorem andThen_eq_accept_iff {v : Verdict α} {f : α → List Lexeme → Verdict β} {b : β}
    {rest : List Lexeme} :
    v.andThen f = accept b rest ↔ ∃ a mid, v = accept a mid ∧ f a mid = accept b rest := by
  cases v <;> simp [andThen, and_assoc]

theorem andThen_assoc (v : Verdict α) (f : α → List Lexeme → Verdict β)
    (g : β → List Lexeme → Verdict γ) :
    (v.andThen f).andThen g = v.andThen fun a rest => (f a rest).andThen g := by
  cases v <;> rfl

end Verdict

/-- Reading one thing and then another. -/
theorem Rule.read_bind {α β : Type} (k : Reader) (r : Rule α) (f : α → Rule β)
    (ws : List Lexeme) :
    (r >>= f).read k ws = (r.read k ws).andThen fun a rest => (f a).read k rest := by
  show (r.bind f).read k ws = _
  induction r generalizing ws with
  | done a => rfl
  | look next ih => exact ih _ f ws
  | take judge next ih =>
    rw [Rule.bind, Rule.read, Rule.read, Verdict.andThen_assoc]
    -- Only what comes last is changed by a sequence, so the verdicts are bracketed anew.
    congr 1
    funext b rest
    exact ih b f rest
  | refuse r => rfl
  | nest n next ih =>
    rw [Rule.bind, Rule.read, Rule.read, Verdict.andThen_assoc]
    congr 1
    funext t rest
    exact ih t f rest
  | many test item next _ ih =>
    rw [Rule.bind, Rule.read, Rule.read, Verdict.andThen_assoc]
    congr 1
    funext bs rest
    exact ih bs f rest

/-! ### What is taken -/

/-- `rest` is what is left of `ws` once some lexemes other than the end of the
input are taken from the front. -/
def Leaves (ws rest : List Lexeme) : Prop :=
  ∃ w, ws = w ++ rest ∧ ∀ x ∈ w, x.kind ≠ .endOfInput

namespace Leaves

theorem refl (ws : List Lexeme) : Leaves ws ws := ⟨[], rfl, by simp⟩

theorem cons {x : Lexeme} (hx : x.kind ≠ .endOfInput) (rest : List Lexeme) :
    Leaves (x :: rest) rest := ⟨[x], rfl, by simpa using hx⟩

theorem trans {as bs cs : List Lexeme} (h : Leaves as bs) (h' : Leaves bs cs) : Leaves as cs := by
  obtain ⟨u, rfl, hu⟩ := h
  obtain ⟨v, rfl, hv⟩ := h'
  refine ⟨u ++ v, by simp, fun x hx => ?_⟩
  rcases List.mem_append.1 hx with hx | hx
  · exact hu x hx
  · exact hv x hx

theorem length_le {ws rest : List Lexeme} (h : Leaves ws rest) : rest.length ≤ ws.length := by
  obtain ⟨w, rfl, _⟩ := h
  simp

/-- Either nothing is taken, or the lexeme in view is. -/
theorem eq_or_lt {ws rest : List Lexeme} (h : Leaves ws rest) :
    rest = ws ∨ (rest.length < ws.length ∧ (front ws).kind ≠ .endOfInput) := by
  obtain ⟨w, rfl, hw⟩ := h
  cases w with
  | nil => exact .inl rfl
  | cons x w => exact .inr ⟨by rw [List.length_append, List.length_cons]; omega, hw x (by simp)⟩

end Leaves

/-- What a verdict leaves of a list was not taken, and the end of the input
never is. -/
def Verdict.Leaves {α : Type} (ws : List Lexeme) : Verdict α → Prop
  | accept _ rest | refuse _ rest | tooDeep rest => GraphQL.Leaves ws rest
  | broken => True

namespace Verdict

variable {α β : Type}

theorem Leaves.of_leaves {v : Verdict α} {ws mid : List Lexeme} (h : GraphQL.Leaves ws mid)
    (hv : v.Leaves mid) : v.Leaves ws := by
  cases v with
  | broken => trivial
  | _ => exact h.trans hv

theorem Leaves.andThen {v : Verdict α} {f : α → List Lexeme → Verdict β} {ws : List Lexeme}
    (hv : v.Leaves ws) (hf : ∀ a rest, (f a rest).Leaves rest) : (v.andThen f).Leaves ws := by
  cases v with
  | accept a rest => exact (hf a rest).of_leaves hv
  | _ => exact hv

end Verdict

namespace Reader

/-- Nested constructs leave what they do not take. -/
def Advances (k : Reader) : Prop := ∀ n ws, (k.enter n ws).Leaves ws

theorem take_leaves {β : Type} (k : Reader) (judge : Lexeme → Except Refusal β)
    (ws : List Lexeme) : (k.take judge ws).Leaves ws := by
  cases ws with
  | nil => exact .refl []
  | cons x ws =>
    rw [take]
    split
    · exact .refl _
    · next hx =>
      split
      · trivial
      · split
        · exact .cons hx ws
        · exact .refl _

theorem repeatWhile_leaves {β : Type} {test : Lexeme → Bool} {item : List Lexeme → Verdict β}
    (hi : ∀ ws, (item ws).Leaves ws) (ws : List Lexeme) :
    (repeatWhile test item ws).Leaves ws := by
  fun_induction repeatWhile test item ws with
  | case1 ws _ ih =>
    refine (hi ws).andThen fun b rest => ?_
    split
    · next hl => exact (ih rest hl).andThen fun bs rest' => .refl rest'
    · exact .refl rest
  | case2 ws => exact .refl ws

end Reader

/-- A loop over items that take something ends in front of a lexeme that fails
the test. -/
theorem Reader.repeatWhile_stops {β : Type} {test : Lexeme → Bool} {item : List Lexeme → Verdict β}
    (hi : ∀ {ws b rest}, item ws = .accept b rest → rest.length < ws.length) {ws rest : List Lexeme}
    {bs : List β} (h : repeatWhile test item ws = .accept bs rest) : test (front rest) = false := by
  fun_induction repeatWhile test item ws generalizing bs with
  | case1 ws ht ih =>
    obtain ⟨b, mid, hb, hr⟩ := Verdict.andThen_eq_accept_iff.1 h
    rw [if_pos (hi hb)] at hr
    obtain ⟨bs, rest, hbs, hr⟩ := Verdict.andThen_eq_accept_iff.1 hr
    cases hr
    exact ih mid (hi hb) hbs
  | case2 ws ht =>
    cases h
    simpa using ht

/-- A rule leaves what it does not take, and never takes the end of the input. -/
theorem Rule.read_leaves {α : Type} {k : Reader} (hk : k.Advances) (r : Rule α)
    (ws : List Lexeme) : (r.read k ws).Leaves ws := by
  induction r generalizing ws with
  | done a => exact .refl ws
  | look next ih => exact ih _ ws
  | take judge next ih => exact (k.take_leaves judge ws).andThen ih
  | refuse r => exact .refl ws
  | nest n next ih => exact (hk n ws).andThen ih
  | many test item next ihi ih => exact (Reader.repeatWhile_leaves ihi ws).andThen ih

theorem Reader.within_advances (breaksOff : Bool) (budget : Nat) :
    (within breaksOff budget).Advances := by
  induction budget with
  | zero => exact fun n ws => .refl ws
  | succ budget ih => exact fun n ws => Rule.read_leaves ih n.rule ws

/-! ### Readers that give up less often -/

/-- `v'` is the same verdict, unless `v` is that the nesting goes too deep. -/
def Verdict.Refines {α : Type} (v v' : Verdict α) : Prop := (∃ rest, v = .tooDeep rest) ∨ v' = v

theorem Verdict.Refines.andThen {α β : Type} {v v' : Verdict α}
    {f f' : α → List Lexeme → Verdict β} (hv : v.Refines v')
    (hf : ∀ a rest, (f a rest).Refines (f' a rest)) : (v.andThen f).Refines (v'.andThen f') := by
  rcases hv with ⟨rest, rfl⟩ | rfl
  · exact .inl ⟨rest, rfl⟩
  · cases v' with
    | accept a rest => exact hf a rest
    | _ => exact .inr rfl

namespace Reader

/-- `k'` decides as `k` does wherever `k` does not give up. -/
def Extends (k k' : Reader) : Prop :=
  k'.breaksOff = k.breaksOff ∧ ∀ n ws, (k.enter n ws).Refines (k'.enter n ws)

theorem repeatWhile_mono {β : Type} {test : Lexeme → Bool} {item item' : List Lexeme → Verdict β}
    (hi : ∀ ws, (item ws).Refines (item' ws)) (ws : List Lexeme) :
    (repeatWhile test item ws).Refines (repeatWhile test item' ws) := by
  fun_induction repeatWhile test item ws with
  | case1 ws ht ih =>
    rw [repeatWhile.eq_def test item' ws, if_pos ht]
    refine (hi ws).andThen fun b rest => ?_
    split
    · next hl => exact (ih rest hl).andThen fun bs rest' => .inr rfl
    · exact .inr rfl
  | case2 ws ht =>
    rw [repeatWhile.eq_def test item' ws, if_neg ht]
    exact .inr rfl

end Reader

/-- A reader that gives up less often decides the same otherwise. -/
theorem Rule.read_mono {α : Type} {k k' : Reader} (hk : k.Extends k') (r : Rule α)
    (ws : List Lexeme) : (r.read k ws).Refines (r.read k' ws) := by
  induction r generalizing ws with
  | done a => exact .inr rfl
  | look next ih => exact ih _ ws
  | take judge next ih =>
    -- A single lexeme is taken without entering anything.
    refine Verdict.Refines.andThen (.inr ?_) ih
    cases ws with
    | nil => rfl
    | cons x ws => rw [Reader.take, Reader.take, hk.1]
  | refuse r => exact .inr rfl
  | nest n next ih => exact (hk.2 n ws).andThen ih
  | many test item next ihi ih => exact (Reader.repeatWhile_mono ihi ws).andThen ih

theorem Reader.within_extends (breaksOff : Bool) {b b' : Nat} (h : b ≤ b') :
    (within breaksOff b).Extends (within breaksOff b') := by
  induction b generalizing b' with
  | zero => exact ⟨by simp, fun n ws => .inl ⟨ws, rfl⟩⟩
  | succ b ih =>
    -- One level of the larger budget pays for the outermost construct.
    obtain ⟨c, rfl⟩ : ∃ c, b' = c + 1 := ⟨b' - 1, by omega⟩
    exact ⟨rfl, fun n ws => Rule.read_mono (ih (by omega)) n.rule ws⟩

/-! ### Lexemes out of view -/

/-- A verdict `v` that leaves `x` unread, in front of `us`, is also the verdict
`v'` on a list that goes on with `us'` behind `x`. -/
def Verdict.Persists {α : Type} (x : Lexeme) (us us' : List Lexeme) (v v' : Verdict α) : Prop :=
  match v with
  | accept a rest =>
    us.length < rest.length → ∃ w, rest = w ++ x :: us ∧ v' = accept a (w ++ x :: us')
  | refuse r rest =>
    us.length < rest.length → ∃ w, rest = w ++ x :: us ∧ v' = refuse r (w ++ x :: us')
  | tooDeep rest =>
    us.length < rest.length → ∃ w, rest = w ++ x :: us ∧ v' = tooDeep (w ++ x :: us')
  | broken => True

section Persistence

variable {α β : Type} {x : Lexeme} {us us' : List Lexeme}

/-- Once `x` itself is taken there is nothing left to persist. -/
theorem Verdict.Leaves.persists {v v' : Verdict α} {ws : List Lexeme} (hv : v.Leaves ws)
    (hl : ws.length ≤ us.length) : v.Persists x us us' v' := by
  cases v with
  | broken => trivial
  | _ =>
    intro h
    have := GraphQL.Leaves.length_le hv
    omega

theorem Verdict.Persists.andThen {v v' : Verdict α} {f f' : α → List Lexeme → Verdict β}
    (hv : v.Persists x us us' v') (hl : ∀ a rest, (f a rest).Leaves rest)
    (hf : ∀ a w, (f a (w ++ x :: us)).Persists x us us' (f' a (w ++ x :: us'))) :
    (v.andThen f).Persists x us us' (v'.andThen f') := by
  cases v with
  | accept a rest =>
    -- If the first part has taken `x`, the second one cannot give it back.
    by_cases h : us.length < rest.length
    · obtain ⟨w, rfl, rfl⟩ := hv h
      exact hf a w
    · exact (hl a rest).persists (by omega)
  | refuse r rest =>
    intro h
    obtain ⟨w, rfl, rfl⟩ := hv h
    exact ⟨w, rfl, rfl⟩
  | tooDeep rest =>
    intro h
    obtain ⟨w, rfl, rfl⟩ := hv h
    exact ⟨w, rfl, rfl⟩
  | broken => trivial

namespace Reader

theorem take_persists {k : Reader} (hk : k.breaksOff = false)
    (judge : Lexeme → Except Refusal β) (w : List Lexeme) :
    (k.take judge (w ++ x :: us)).Persists x us us' (k.take judge (w ++ x :: us')) := by
  cases w with
  | nil =>
    -- The lexeme in question is `x` itself: judged it is the same, taken it is out of the way.
    simp only [List.nil_append, take, hk, Bool.false_and]
    split
    · exact fun _ => ⟨[], rfl, rfl⟩
    · simp only [Bool.false_eq_true, if_false]
      split
      · exact fun h => absurd h (by omega)
      · exact fun _ => ⟨[], rfl, rfl⟩
  | cons y w =>
    simp only [List.cons_append, take, hk, Bool.false_and]
    split
    · exact fun _ => ⟨y :: w, rfl, rfl⟩
    · simp only [Bool.false_eq_true, if_false]
      split
      · exact fun _ => ⟨w, rfl, rfl⟩
      · exact fun _ => ⟨y :: w, rfl, rfl⟩

theorem front_append_cons (w us us' : List Lexeme) :
    front (w ++ x :: us) = front (w ++ x :: us') := by
  cases w <;> rfl

theorem repeatWhile_persists {test : Lexeme → Bool} {item : List Lexeme → Verdict β}
    (hl : ∀ ws, (item ws).Leaves ws)
    (hi : ∀ w, (item (w ++ x :: us)).Persists x us us' (item (w ++ x :: us')))
    (w : List Lexeme) :
    (repeatWhile test item (w ++ x :: us)).Persists x us us'
      (repeatWhile test item (w ++ x :: us')) := by
  -- The induction is on the lexemes in front of `x`; past them nothing is claimed.
  induction hn : w.length using Nat.strongRecOn generalizing w with
  | _ n ih =>
    rw [repeatWhile, repeatWhile, front_append_cons w us us']
    split
    · refine (hi w).andThen (fun b rest => ?_) fun b v => ?_
      · split
        · exact (repeatWhile_leaves hl rest).andThen fun bs rest' => .refl rest'
        · exact .refl rest
      · simp only [List.length_append, List.length_cons, Nat.add_lt_add_iff_right]
        split
        · next hv =>
          exact (ih v.length (by omega) v rfl).andThen (fun bs rest => .refl rest)
            fun bs u _ => ⟨u, rfl, rfl⟩
        · exact fun _ => ⟨v, rfl, rfl⟩
    · exact fun _ => ⟨w, rfl, rfl⟩

/-- Nested constructs are read without a look behind the lexeme in view. -/
def Persists (k : Reader) (x : Lexeme) (us us' : List Lexeme) : Prop :=
  ∀ n w, (k.enter n (w ++ x :: us)).Persists x us us' (k.enter n (w ++ x :: us'))

end Reader

/-- What a rule decides on the lexemes up to `x` does not depend on those
behind it. -/
theorem Rule.read_persists {k : Reader} (hb : k.breaksOff = false) (ha : k.Advances)
    (hk : k.Persists x us us') (r : Rule α) (w : List Lexeme) :
    (r.read k (w ++ x :: us)).Persists x us us' (r.read k (w ++ x :: us')) := by
  induction r generalizing w with
  | done a => exact fun _ => ⟨w, rfl, rfl⟩
  | look next ih =>
    rw [Rule.read, Rule.read, Reader.front_append_cons w us us']
    exact ih _ w
  | take judge next ih =>
    exact (Reader.take_persists hb judge w).andThen (fun b => (next b).read_leaves ha) ih
  | refuse r => exact fun _ => ⟨w, rfl, rfl⟩
  | nest n next ih => exact (hk n w).andThen (fun t => (next t).read_leaves ha) ih
  | many test item next ihi ih =>
    exact (Reader.repeatWhile_persists (item.read_leaves ha) ihi w).andThen
      (fun bs => (next bs).read_leaves ha) ih

theorem Reader.within_persists (budget : Nat) :
    (within false budget).Persists x us us' := by
  induction budget with
  | zero => exact fun n w _ => ⟨w, rfl, rfl⟩
  | succ budget ih =>
    exact fun n w => Rule.read_persists (by simp) (within_advances false budget) ih n.rule w

end Persistence

end GraphQL
