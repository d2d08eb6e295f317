/-
Reading with one lexeme of lookahead.

A rule finds the spelling of a part in front of other lexemes, as long as
these do not look like more of the same part.

* `Opens`, `MayOpen` — the kinds of lexemes that a spelling starts with;
* `Avoids` — the kinds of lexemes that may not come next;
* `Rule.read_many`, `Rule.read_enclosed`, `Rule.read_ifNext` — how the usual
  shapes read what spells them.

Design notes: the kinds are given as lists, so that whether the start of one
part can be taken for more of another is decided by computation.
-/
import GraphQL.Proofs.Grammar.Phrase

namespace GraphQL

/-- A spelling that starts with a lexeme of one of some kinds. -/
def Opens (kinds : List TokenKind) (w : List Lexeme) : Prop :=
  ∃ x u, w = x :: u ∧ x.kind ∈ kinds

/-- The same, or no lexeme at all. -/
def MayOpen (kinds : List TokenKind) (w : List Lexeme) : Prop := w = [] ∨ Opens kinds w

/-- The lexeme in view is of none of some kinds. -/
def Avoids (kinds : List TokenKind) (ws : List Lexeme) : Prop := (front ws).kind ∉ kinds

section Opening

variable {F S : List TokenKind} {u v w rest : List Lexeme}

theorem Opens.ne_nil (h : Opens F w) : w ≠ [] := by
  obtain ⟨x, u, rfl, _⟩ := h
  simp

theorem Opens.append (h : Opens F w) (v : List Lexeme) : Opens F (w ++ v) := by
  obtain ⟨x, u, rfl, hx⟩ := h
  exact ⟨x, u ++ v, rfl, hx⟩

theorem Opens.front_mem (h : Opens F w) : (front w).kind ∈ F := by
  obtain ⟨x, u, rfl, hx⟩ := h
  exact hx

theorem Opens.mono (h : Opens F w) (hF : ∀ k ∈ F, k ∈ S) : Opens S w := by
  obtain ⟨x, u, rfl, hx⟩ := h
  exact ⟨x, u, rfl, hF _ hx⟩

theorem Opens.avoids (h : Opens F w) (hF : ∀ k ∈ F, k ∉ S) : Avoids S (w ++ rest) :=
  hF _ (h.append rest).front_mem

theorem MayOpen.avoids (h : MayOpen F w) (hF : ∀ k ∈ F, k ∉ S) (hrest : Avoids S rest) :
    Avoids S (w ++ rest) := by
  rcases h with rfl | h
  · exact hrest
  · exact h.avoids hF

theorem Avoids.mono (h : Avoids S w) (hF : ∀ k ∈ F, k ∈ S) : Avoids F w := fun hk => h (hF _ hk)

theorem Opens.hasKind {p : TokenKind} (h : Opens [p] w) (rest : List Lexeme) :
    Lexeme.hasKind p (front (w ++ rest)) = true := by
  have := (h.append rest).front_mem
  simpa [Lexeme.hasKind] using this

theorem Avoids.hasKind {p : TokenKind} (h : Avoids S w) (hp : p ∈ S) :
    Lexeme.hasKind p (front w) = false := by
  have : (front w).kind ≠ p := fun he => h (he ▸ hp)
  simpa [Lexeme.hasKind] using this

theorem Terminal.opens {k : TokenKind} {s : String} (h : Terminal k s w) : Opens [k] w := by
  obtain ⟨hx⟩ := h
  exact ⟨_, [], rfl, by simp [hx]⟩

theorem Symbol.opens {p : Punctuator} (h : Symbol p w) : Opens [↑p] w := by
  obtain ⟨hx⟩ := h
  exact ⟨_, [], rfl, by simp [hx]⟩

theorem Reserved.opens {r : Keyword} (h : Reserved r w) : Opens [.name] w := by
  obtain ⟨hx⟩ := h
  exact ⟨_, [], rfl, by simp [(Lexeme.isKeyword_iff.1 hx).1]⟩

theorem Many.mayOpen {α : Type} {item : α → List Lexeme → Prop} {as : List α}
    (h : Many item as w) (hi : ∀ a w, item a w → Opens F w) : MayOpen F w := by
  cases h with
  | nil => exact .inl rfl
  | cons h _ => exact .inr ((hi _ _ h).append _)

theorem Maybe.mayOpen {α : Type} {item : α → List Lexeme → Prop} {a? : Option α}
    (h : Maybe item a? w) (hi : ∀ a w, item a w → Opens F w) : MayOpen F w := by
  cases h with
  | none => exact .inl rfl
  | some h => exact .inr (hi _ _ h)

theorem Enclosed.opens {α : Type} {opening close : Punctuator} {item : α → List Lexeme → Prop}
    {as : List α} (h : Enclosed opening item close as w) : Opens [↑opening] w := by
  obtain ⟨ho, _, _, _⟩ := h
  exact ho.opens.append _

theorem Parenthesized.mayOpen {α : Type} {item : α → List Lexeme → Prop} {as : List α}
    (h : Parenthesized item as w) : MayOpen [.punctuator .parenOpen] w := by
  cases h with
  | none => exact .inl rfl
  | some h => exact .inr h.opens

end Opening

/-! ### Sequences of rules -/

namespace Rule

variable {k : Reader} {α β : Type}

theorem read_bind_accept {r : Rule α} {ws rest : List Lexeme} {a : α}
    (h : r.read k ws = .accept a rest) (f : α → Rule β) :
    (r >>= f).read k ws = (f a).read k rest := by
  rw [read_bind, h]
  rfl

theorem read_map_accept {r : Rule α} {ws rest : List Lexeme} {a : α}
    (h : r.read k ws = .accept a rest) (f : α → β) :
    (f <$> r).read k ws = .accept (f a) rest :=
  read_bind_accept h fun a => pure (f a)

/-- A single lexeme is read. -/
theorem read_lexeme (hk : k.breaksOff = false) {x : Lexeme} (hx : x.kind ≠ .endOfInput)
    (judge : Lexeme → Except Refusal α) {a : α} (hj : judge x = .ok a) (rest : List Lexeme) :
    (take judge done).read k ([x] ++ rest) = .accept a rest := by
  rw [read_take_done, List.singleton_append, Reader.take, if_neg hx, hk, hj]
  rfl

theorem read_terminal (hk : k.breaksOff = false) {t : TokenKind} (ht : t ≠ .endOfInput)
    {s : String} {w : List Lexeme} (h : Terminal t s w) (rest : List Lexeme) :
    (expect t).read k (w ++ rest) = .accept s rest := by
  obtain ⟨hx⟩ := h
  rw [expect, read, List.singleton_append, front_cons, if_pos hx, ← List.singleton_append]
  exact read_lexeme hk (by rwa [hx]) (fun x => .ok x.text) rfl rest

theorem read_name (hk : k.breaksOff = false) {n : Name} {w : List Lexeme} (h : n.Derives w)
    (rest : List Lexeme) : name.read k (w ++ rest) = .accept n rest :=
  read_map_accept (read_terminal hk (by decide) h rest) Name.mk

theorem read_name_bind (hk : k.breaksOff = false) {n : Name} {w : List Lexeme} (h : n.Derives w)
    (f : Name → Rule α) (rest : List Lexeme) :
    (name >>= f).read k (w ++ rest) = (f n).read k rest :=
  read_bind_accept (read_name hk h rest) f

/-- A punctuator is read, and its text forgotten. -/
theorem read_symbol_bind (hk : k.breaksOff = false) {p : Punctuator} {w : List Lexeme}
    (h : Symbol p w) (r : Rule α) (rest : List Lexeme) :
    (expect p >>= fun _ => r).read k (w ++ rest) = r.read k rest := by
  obtain ⟨hx⟩ := h
  exact read_bind_accept (read_terminal hk (by simp) (.intro hx) rest) _

theorem read_keyword_bind (hk : k.breaksOff = false) {c : Keyword} {w : List Lexeme}
    (h : Reserved c w) (r : Rule α) (rest : List Lexeme) :
    (keyword c >>= fun _ => r).read k (w ++ rest) = r.read k rest := by
  obtain ⟨hx⟩ := h
  refine read_bind_accept (a := ()) ?_ _
  rw [keyword, read, List.singleton_append, front_cons]
  rw [if_pos (by exact hx), ← List.singleton_append]
  refine read_lexeme hk ?_ (fun _ => .ok ()) rfl rest
  simp [(Lexeme.isKeyword_iff.1 hx).1]

/-! ### Optional parts and lists -/

theorem read_ifNext_none {test : Lexeme → Bool} {ws : List Lexeme} (h : test (front ws) = false)
    (r : Rule α) : (ifNext test r).read k ws = .accept none ws := by
  rw [ifNext, read, h]
  rfl

theorem read_ifNext_some {test : Lexeme → Bool} {ws rest : List Lexeme}
    (h : test (front ws) = true) {r : Rule α} {a : α} (hr : r.read k ws = .accept a rest) :
    (ifNext test r).read k ws = .accept (some a) rest := by
  rw [ifNext, read, h, if_pos rfl]
  exact read_map_accept hr some

/-- A part that may be missing is found exactly if it is there, provided that
what follows cannot be taken for it. -/
theorem read_ifNext {item : α → List Lexeme → Prop} {p : TokenKind} {r : Rule α} {a? : Option α}
    {w rest : List Lexeme} (h : Maybe item a? w) (hopen : ∀ a w, item a w → Opens [p] w)
    (hread : ∀ a w, item a w → r.read k (w ++ rest) = .accept a rest) (hrest : Avoids [p] rest) :
    (ifNext (Lexeme.hasKind p) r).read k (w ++ rest) = .accept a? rest := by
  cases h with
  | none => exact read_ifNext_none (hrest.hasKind (by simp)) r
  | some h => exact read_ifNext_some ((hopen _ _ h).hasKind rest) (hread _ _ h)

/-- Items are read one after the other if they can be told from what follows.
Each of them starts with one of the kinds `F` and must not be followed by one
of the kinds `S`. -/
theorem read_many {test : Lexeme → Bool} {item : Rule α} {spelled : α → List Lexeme → Prop}
    {F S : List TokenKind} (hopen : ∀ a w, spelled a w → Opens F w)
    (htest : ∀ x, x.kind ∈ F → test x = true)
    (hread : ∀ a w rest, spelled a w → Avoids S rest → item.read k (w ++ rest) = .accept a rest)
    (hF : ∀ k ∈ F, k ∉ S) {as : List α} {w rest : List Lexeme} (h : Many spelled as w)
    (hstop : test (front rest) = false) (hrest : Avoids S rest) :
    (many test item done).read k (w ++ rest) = .accept as rest := by
  suffices Reader.repeatWhile test (item.read k) (w ++ rest) = .accept as rest by
    show (Reader.repeatWhile test (item.read k) (w ++ rest)).andThen _ = _
    rw [this]
    rfl
  induction h with
  | nil =>
    rw [List.nil_append, Reader.repeatWhile, hstop]
    rfl
  | @cons a as u w h hs ih =>
    have hu := hopen a u h
    have hnext : Avoids S (w ++ rest) := (hs.mayOpen hopen).avoids hF hrest
    -- The loop goes on only behind an item that has taken something.
    have hlen : (w ++ rest).length < (u ++ (w ++ rest)).length := by
      have := List.length_pos_iff.2 hu.ne_nil
      simp only [List.length_append]
      omega
    rw [List.append_assoc, Reader.repeatWhile, if_pos (htest _ (hu.append _).front_mem),
      hread a u _ h hnext, Verdict.andThen, if_pos hlen, ih]
    rfl

/-- Items are read up to the punctuator that closes them. -/
theorem read_upTo (hk : k.breaksOff = false) {item : Rule α} {spelled : α → List Lexeme → Prop}
    {F S : List TokenKind} {close : Punctuator} (hopen : ∀ a w, spelled a w → Opens F w)
    (hread : ∀ a w rest, spelled a w → Avoids S rest → item.read k (w ++ rest) = .accept a rest)
    (hF : ∀ k ∈ F, k ∉ ↑close :: S) (hS : ↑close ∉ S) {as : List α} {w c : List Lexeme}
    (h : Many spelled as w) (hc : Symbol close c) (rest : List Lexeme) :
    (upTo item close).read k (w ++ (c ++ rest)) = .accept as rest := by
  have hclose := (hc.opens.append rest).front_mem
  have hitems : (many (·.kind != .punctuator close) item done).read k (w ++ (c ++ rest)) =
      .accept as (c ++ rest) := by
    refine read_many hopen (fun x hx => ?_) hread (fun k hk hS => hF k hk (by simp [hS])) h ?_ ?_
    · simpa using fun he => hF _ hx (by simp [he])
    · simpa using hclose
    · exact hc.opens.avoids (by simpa using hS)
  rw [upTo, read_bind_accept hitems, read_symbol_bind hk hc]
  rfl

theorem read_zeroOrMore (hk : k.breaksOff = false) {item : Rule α}
    {spelled : α → List Lexeme → Prop} {F S : List TokenKind} {opening close : Punctuator}
    (hopen : ∀ a w, spelled a w → Opens F w)
    (hread : ∀ a w rest, spelled a w → Avoids S rest → item.read k (w ++ rest) = .accept a rest)
    (hF : ∀ k ∈ F, k ∉ ↑close :: S) (hS : ↑close ∉ S) {as : List α} {o w c : List Lexeme}
    (ho : Symbol opening o) (h : Many spelled as w) (hc : Symbol close c) (rest : List Lexeme) :
    (zeroOrMore opening item close).read k (o ++ (w ++ c) ++ rest) = .accept as rest := by
  rw [zeroOrMore, List.append_assoc, read_symbol_bind hk ho, List.append_assoc]
  exact read_upTo hk hopen hread hF hS h hc rest

theorem read_oneOrMore (hk : k.breaksOff = false) {item : Rule α}
    {spelled : α → List Lexeme → Prop} {F S : List TokenKind} {opening close : Punctuator}
    (hopen : ∀ a w, spelled a w → Opens F w)
    (hread : ∀ a w rest, spelled a w → Avoids S rest → item.read k (w ++ rest) = .accept a rest)
    (hF : ∀ k ∈ F, k ∉ ↑close :: S) (hS : ↑close ∉ S) {as : List α} {w : List Lexeme}
    (h : Enclosed opening spelled close as w) (rest : List Lexeme) :
    (oneOrMore opening item close).read k (w ++ rest) = .accept as rest := by
  cases h with
  | @intro o w c ho h hne hc =>
    cases h with
    | nil => exact absurd rfl hne
    -- The first item is read before the loop starts.
    | @cons a as u w h hs =>
      have hend : Avoids S (c ++ rest) := hc.opens.avoids (by simpa using hS)
      have hnext := (hs.mayOpen hopen).avoids (fun k hk hS => hF k hk (by simp [hS])) hend
      have hitems := read_upTo hk hopen hread hF hS hs hc rest
      rw [oneOrMore, List.append_assoc, read_symbol_bind hk ho, List.append_assoc,
        List.append_assoc, read_bind_accept (hread a u _ h hnext), read_bind_accept hitems]
      rfl

/-- Items in parentheses, or nothing. -/
theorem read_parenthesized (hk : k.breaksOff = false) {item : Rule α}
    {spelled : α → List Lexeme → Prop} {F S : List TokenKind}
    (hopen : ∀ a w, spelled a w → Opens F w)
    (hread : ∀ a w rest, spelled a w → Avoids S rest → item.read k (w ++ rest) = .accept a rest)
    (hF : ∀ k ∈ F, k ∉ ↑Punctuator.parenClose :: S) (hS : ↑Punctuator.parenClose ∉ S) {as : List α}
    {w rest : List Lexeme} (h : Parenthesized spelled as w)
    (hrest : Avoids [.punctuator .parenOpen] rest) :
    ∃ as?, (ifNext (Lexeme.hasKind Punctuator.parenOpen)
      (oneOrMore .parenOpen item .parenClose)).read k (w ++ rest) = .accept as? rest ∧
        as?.getD [] = as := by
  cases h with
  | none =>
    refine ⟨none, ?_, rfl⟩
    exact read_ifNext_none (hrest.hasKind (by simp)) _
  | some h =>
    refine ⟨some as, ?_, rfl⟩
    exact read_ifNext (.some h) (fun _ _ => Enclosed.opens)
      (fun _ _ h => read_oneOrMore hk hopen hread hF hS h rest) hrest

end Rule

/-- Parts within a bound, each together with the bound. -/
theorem Many.bounded {α : Type} {derives : α → List Lexeme → Prop} {depth : α → Nat} {n : Nat}
    {as : List α} {w : List Lexeme} (h : Many derives as w) (hd : ∀ a ∈ as, depth a ≤ n) :
    Many (Phrase.within derives depth n) as w := by
  induction h with
  | nil => exact .nil
  | cons h _ ih => exact .cons ⟨h, hd _ (by simp)⟩ (ih fun a ha => hd a (by simp [ha]))

theorem Maybe.bounded {α : Type} {derives : α → List Lexeme → Prop} {depth : α → Nat} {n : Nat}
    {a? : Option α} {w : List Lexeme} (h : Maybe derives a? w) (hd : optionalDepth depth a? ≤ n) :
    Maybe (Phrase.within derives depth n) a? w := by
  cases h with
  | none => exact .none
  | some h => exact .some ⟨h, hd⟩

theorem Enclosed.bounded {α : Type} {opening close : Punctuator}
    {derives : α → List Lexeme → Prop} {depth : α → Nat} {n : Nat} {as : List α}
    {w : List Lexeme} (h : Enclosed opening derives close as w) (hd : ∀ a ∈ as, depth a ≤ n) :
    Enclosed opening (Phrase.within derives depth n) close as w := by
  obtain ⟨ho, h, hne, hc⟩ := h
  exact .intro ho (h.bounded hd) hne hc

theorem Parenthesized.bounded {α : Type} {derives : α → List Lexeme → Prop} {depth : α → Nat}
    {n : Nat} {as : List α} {w : List Lexeme} (h : Parenthesized derives as w)
    (hd : ∀ a ∈ as, depth a ≤ n) : Parenthesized (Phrase.within derives depth n) as w := by
  cases h with
  | none => exact .none
  | some h => exact .some (h.bounded hd)

end GraphQL
