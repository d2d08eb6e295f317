/-
Errors are found as early as possible.

Reading never goes past a token that no document could have there, and never
stops in front of one that some document could have.

* `Completable`, `Hopeless` — whether some tokens can start a document;
* `SyntaxError.Blames` — which token an error is about;
* `Document.error_blames` — the tokens before the one an error is about can be
  completed to a document, and those up to it cannot.

Design notes: tokens in different places have different spans, and only the
end of the input has an empty one, so the span of an error says which token it
is about.  Nesting beyond the limit is no error of this kind: what is too deep
for one limit is read at another.
-/
import GraphQL.Proofs.Grammar.Recognition

namespace GraphQL

open Phrase

/-- Some tokens can be completed to a list that is read at some limit. -/
def Completable (ts : List Token) : Prop :=
  ∃ us options d, (∀ t ∈ us, t.kind ≠ .endOfInput) ∧
    Document.ofItems options ((ts ++ us).map .ok) = .ok d

/-- Whatever tokens follow these, the list is read at no limit. -/
def Hopeless (ts : List Token) : Prop :=
  ∀ us options d, Document.ofItems options ((ts ++ us).map .ok) ≠ .ok d

/-- An error carries the place of the `k`-th of some tokens, or that of the end
of the input behind all of them. -/
def SyntaxError.Blames (e : SyntaxError) (ts : List Token) (k : Nat) : Prop :=
  (∃ t, ts[k]? = some t ∧ e.span = t.span) ∨ (k = ts.length ∧ e.span = .emptyAt (endOf ts))

theorem Refusal.error_span (r : Refusal) (t : Token) : (r.error t).span = t.span := by
  cases r <;> rfl

/-- Only one token has the place of an error. -/
theorem SyntaxError.Blames.unique {e : SyntaxError} {ts : List Token} {i j : Nat}
    (hspans : (ts.map (·.span)).Nodup) (hne : ∀ t ∈ ts, t.span.isEmpty = false)
    (hi : e.Blames ts i) (hj : e.Blames ts j) : i = j := by
  -- The place of the end of the input is empty, and no token has an empty one.
  have hend (t : Token) (ht : t ∈ ts) : t.span ≠ .emptyAt (endOf ts) := by
    intro he
    have := hne t ht
    rw [he] at this
    simp [Span.isEmpty, Span.length, Span.emptyAt] at this
  rcases hi with ⟨t, ht, hti⟩ | ⟨rfl, hi⟩
  · rcases hj with ⟨u, hu, huj⟩ | ⟨rfl, hj⟩
    · -- Tokens that share a place are the same token.
      have hlt : i < (ts.map (·.span)).length := by
        rw [List.length_map]
        exact (List.getElem?_eq_some_iff.1 ht).1
      refine (List.getElem?_inj hlt hspans).1 ?_
      rw [List.getElem?_map, List.getElem?_map, ht, hu, Option.map_some, Option.map_some, ← hti,
        huj]
    · exact absurd (hti.symm.trans hj) (hend t (List.mem_of_getElem? ht))
  · rcases hj with ⟨u, hu, huj⟩ | ⟨rfl, _⟩
    · exact absurd (huj.symm.trans hi) (hend u (List.mem_of_getElem? hu))
    · rfl

namespace Document

/-- What precedes a lexeme that is refused can be completed. -/
theorem verdict_refuse {maxDepth : Nat} {ws rest : List Lexeme} {r : Refusal}
    (h : verdict false maxDepth ws = .refuse r rest) :
    ∃ w, ws = w ++ rest ∧ ∃ v d, Document.Derives d (w ++ v) := by
  have hread := (Rule.document_keeps (Reader.within_keeps false maxDepth)).read ws
  rw [show Rule.document.read (Reader.within false maxDepth) ws = .refuse r rest from h] at hread
  obtain ⟨w, hw, d, v, m, hd⟩ := hread
  exact ⟨w, hw, v, d, (hd m (Nat.le_refl m)).1⟩

/-- The end of the input is not among the lexemes of a document. -/
theorem Derives.kind_ne {d : Document} {w : List Lexeme} (h : d.Derives w) :
    ∀ x ∈ w, x.kind ≠ .endOfInput := by
  have hv := verdict_accept_nil_iff.2 ⟨h, Nat.le_refl d.depth⟩
  have hl := Rule.read_leaves (Reader.within_advances false d.depth) Rule.document w
  rw [show Rule.document.read (Reader.within false d.depth) w = .accept d [] from hv] at hl
  obtain ⟨u, hu, hk⟩ := hl
  rw [List.append_nil] at hu
  exact hu ▸ hk

/-- A budget beyond the one that was enough changes nothing. -/
theorem verdict_mono {b b' : Nat} (h : b ≤ b') (ws : List Lexeme) :
    (verdict false b ws).Refines (verdict false b' ws) :=
  Rule.read_mono (Reader.within_extends false h) Rule.document ws

/-- A lexeme that is refused is refused whatever follows it, at every limit. -/
theorem verdict_ne_accept {maxDepth n : Nat} {w us us' rest : List Lexeme} {x : Lexeme}
    {r : Refusal} {d : Document}
    (h : verdict false maxDepth (w ++ x :: us) = .refuse r (x :: us)) :
    verdict false n (w ++ x :: us') ≠ .accept d rest := by
  intro haccept
  -- Both verdicts are also those of the larger one of the limits.
  have hrefuse : verdict false (max maxDepth n) (w ++ x :: us) = .refuse r (x :: us) := by
    rcases verdict_mono (Nat.le_max_left maxDepth n) (w ++ x :: us) with ⟨_, hdeep⟩ | hsame
    · rw [h] at hdeep
      cases hdeep
    · rw [hsame, h]
  have haccept' : verdict false (max maxDepth n) (w ++ x :: us') = .accept d rest := by
    rcases verdict_mono (Nat.le_max_right maxDepth n) (w ++ x :: us') with ⟨_, hdeep⟩ | hsame
    · rw [haccept] at hdeep
      cases hdeep
    · rw [hsame, haccept]
  have hp : (verdict false (max maxDepth n) (w ++ x :: us)).Persists x us us'
      (verdict false (max maxDepth n) (w ++ x :: us')) :=
    Rule.read_persists (by simp) (Reader.within_advances false _)
      (Reader.within_persists _) Rule.document w
  rw [hrefuse] at hp
  obtain ⟨v, _, hv⟩ := hp (by simp)
  rw [haccept'] at hv
  cases hv

/-- A document is read from tokens that spell it, wherever they stand. -/
theorem completable_of_derives {ts : List Token} {v : List Lexeme} {d : Document}
    (h : d.Derives (ts.map Token.toLexeme ++ v)) : Completable ts := by
  -- The missing tokens may stand anywhere: places have no part in a verdict.
  refine ⟨v.map fun x => ⟨x, default⟩, ⟨d.depth⟩, d, ?_, ?_⟩
  · intro t ht
    obtain ⟨x, hx, rfl⟩ := List.mem_map.1 ht
    exact h.kind_ne x (List.mem_append_right _ hx)
  · have hlexemes : (ts ++ v.map fun x => (⟨x, default⟩ : Token)).map Token.toLexeme =
        ts.map Token.toLexeme ++ v := by
      simp [Function.comp_def]
    rw [ofItems_eq_ok_iff, hlexemes]
    exact ⟨[], verdict_accept_nil_iff.2 ⟨h, Nat.le_refl _⟩⟩

/-- The error of a refusal is about the first lexeme that is left. -/
theorem blames_blamed (r : Refusal) (us vs : List Token) :
    (r.error (blamed (us ++ vs) (vs.map Token.toLexeme))).Blames (us ++ vs) us.length := by
  rw [SyntaxError.Blames, blamed_map_toLexeme, Refusal.error_span]
  cases vs with
  | nil => exact .inr ⟨by simp, rfl⟩
  | cons t vs => exact .inl ⟨t, by simp, rfl⟩

/-- An error is about the first token that no document could have in its place,
and about the end of the input only if the tokens are the start of a document. -/
theorem error_blames {options : ParseOptions} {ts : List Token} {e : SyntaxError}
    (hspans : (ts.map (·.span)).Nodup) (hne : ∀ t ∈ ts, t.span.isEmpty = false)
    (he : ofItems options (ts.map .ok) = .error e) (hcause : ∀ limit, e.cause ≠ .tooDeep limit) :
    ∃ k, k ≤ ts.length ∧ (∀ j, e.Blames ts j ↔ j = k) ∧ Completable (ts.take k) ∧
      (k < ts.length → Hopeless (ts.take (k + 1))) := by
  rcases ofItems_eq_error he with ⟨r, rest, hv, rfl⟩ | ⟨rest, _, rfl⟩
  · obtain ⟨w, hw, v, d, hd⟩ := verdict_refuse hv
    -- The tokens `us` have been taken, and the first of `vs` is refused.
    obtain ⟨us, vs, rfl, rfl, rfl⟩ := List.map_eq_append_iff.1 hw
    have hk := blames_blamed r us vs
    refine ⟨us.length, by simp, fun j => ⟨fun hj => hj.unique hspans hne hk, ?_⟩, ?_, fun hlt => ?_⟩
    · rintro rfl
      exact hk
    · rw [List.take_left]
      exact completable_of_derives hd
    · cases vs with
      | nil => simp at hlt
      | cons t vs =>
        -- A document that starts like this would be read past the refused token.
        intro more options' d' hok
        obtain ⟨rest', haccept⟩ := ofItems_eq_ok_iff.1 hok
        rw [List.map_append, List.map_cons] at hv
        have htake : (us ++ t :: vs).take (us.length + 1) = us ++ [t] := by
          simp [List.take_append, List.take_of_length_le]
        rw [htake, List.append_assoc, List.map_append] at haccept
        exact verdict_ne_accept hv haccept
  · exact absurd rfl (hcause options.maxDepth)

/-- In a selection set without selections the closing brace is to blame. -/
theorem error_blames_closing_brace :
    ∃ (ts : List Token) (e : SyntaxError), ofItems ⟨64⟩ (ts.map .ok) = .error e ∧
      e.Blames ts 1 ∧ Completable (ts.take 1) ∧ Hopeless (ts.take 2) := by
  have he : ofItems ⟨64⟩ (List.map .ok
      [⟨.ofPunctuator .braceOpen, ⟨⟨0, 0, 0, 0⟩, ⟨1, 0, 1, 1⟩⟩⟩,
        ⟨.ofPunctuator .braceClose, ⟨⟨1, 0, 1, 1⟩, ⟨2, 0, 2, 2⟩⟩⟩]) = .error _ := rfl
  obtain ⟨k, _, hk, hc, hh⟩ := error_blames (by decide) (by decide) he (fun limit => by nofun)
  have h1 := (hk 1).1 (.inl ⟨_, rfl, rfl⟩)
  subst h1
  exact ⟨_, _, he, (hk 1).2 rfl, hc, hh (by decide)⟩

end Document

end GraphQL
