/-
The lexemes of a text.

`Lexes cs ws` says that the text `cs` consists of the lexemes `ws` and ignored
text around them.  Positions have no part in it.

* `Lexes.ignored`, `Lexes.written` — ignored text may be put in front of a
  text, and so may a lexeme that does not run on into it;
* `Lexes.unique` — a text has the lexemes of one list at most;
* `tokenize_of_lexes`, `tokenize_cases` — the tokens of a source text are its
  lexemes and the end of the input, or they break off in a fault;
* `tokenize_eq_firstItems` — there is one item for each character at most, and
  one more.
-/
import GraphQL.Lexical.Lexer
import GraphQL.Proofs.Lexical.Lexeme

namespace GraphQL

/-- A text consists of some lexemes and ignored text around them. -/
inductive Lexes : List Char → List Lexeme → Prop
  | stop {cs : List Char} (h : (splitIgnored false cs).2 = []) : Lexes cs []
  | step {cs : List Char} {r : Reading Lexeme} {ws : List Lexeme}
    (hne : (splitIgnored false cs).2 ≠ []) (hr : Scan.lexeme (splitIgnored false cs).2 = .ok r)
    (h : Lexes r.rest ws) : Lexes cs (r.value :: ws)

theorem splitIgnored_of_ignored {s : List Char} (hs : ∀ c ∈ s, isIgnored c = true)
    (cs : List Char) : (splitIgnored false (s ++ cs)).2 = (splitIgnored false cs).2 := by
  induction s with
  | nil => rfl
  | cons c s ih =>
    have hc := hs c (by simp)
    have hhash : (c == '#') = false := by
      rw [← Bool.not_eq_true, beq_iff_eq]
      rintro rfl
      exact absurd hc (by decide)
    rw [List.cons_append, splitIgnored, if_neg (by simp), if_pos (by simp [hc]), hhash]
    exact ih fun d hd => hs d (by simp [hd])

theorem splitIgnored_of_not_ignored {c : Char} (hc : c ≠ '#') (hi : isIgnored c = false)
    (cs : List Char) : (splitIgnored false (c :: cs)).2 = c :: cs := by
  rw [splitIgnored, if_neg (by simp), if_neg (by simp [hc, hi])]

/-- Nothing is ignored in front of a lexeme. -/
theorem splitIgnored_of_lexeme {cs : List Char} {r : Reading Lexeme} (hne : cs ≠ [])
    (hr : Scan.lexeme cs = .ok r) : (splitIgnored false cs).2 = cs := by
  obtain ⟨c, text, rfl⟩ := List.exists_cons_of_ne_nil hne
  obtain ⟨hhash, hi⟩ := Scan.lexeme_head hr
  exact splitIgnored_of_not_ignored hhash hi text

namespace Lexes

variable {cs : List Char} {ws : List Lexeme}

theorem spellable (h : Lexes cs ws) : ∀ x ∈ ws, x.Spellable := by
  induction h with
  | stop _ => simp
  | step hne hr _ ih =>
    intro x hx
    rcases List.mem_cons.1 hx with rfl | hx
    · exact Scan.spellable_of_lexeme hne hr
    · exact ih x hx

theorem unique {ws' : List Lexeme} (h : Lexes cs ws) (h' : Lexes cs ws') : ws = ws' := by
  induction h generalizing ws' with
  | stop hs =>
    cases h' with
    | stop _ => rfl
    | step hne _ _ => exact absurd hs hne
  | step hne hr _ ih =>
    cases h' with
    | stop hs => exact absurd hs hne
    | step _ hr' h' =>
      rw [hr] at hr'
      cases hr'
      rw [ih h']

/-- The lexemes of a text depend on what is behind the ignored text in front. -/
theorem congr {cs' : List Char} (h : Lexes cs ws)
    (hs : (splitIgnored false cs').2 = (splitIgnored false cs).2) : Lexes cs' ws := by
  cases h with
  | stop h => exact .stop (hs.trans h)
  | step hne hr h => exact .step (by rwa [hs]) (by rwa [hs]) h

/-- Ignored text in front of a text changes nothing. -/
theorem ignored {s : List Char} (hs : ∀ c ∈ s, isIgnored c = true) (h : Lexes cs ws) :
    Lexes (s ++ cs) ws := h.congr (splitIgnored_of_ignored hs cs)

theorem blank {c : Char} (hc : isIgnored c = true) (h : Lexes cs ws) : Lexes (c :: cs) ws :=
  h.ignored (s := [c]) (by simpa using hc)

/-- A lexeme in front of a text that does not continue it. -/
theorem written {x : Lexeme} (hx : x.Spellable) (hc : x.isWord = true → Stops continuesWord cs)
    (h : Lexes cs ws) : Lexes (x.written ++ cs) (x :: ws) := by
  have hread := Scan.lexeme_written hx hc
  have hne : x.written ++ cs ≠ [] := by
    intro hnil
    rw [hnil] at hread
    cases hread
    exact hx.kind_ne rfl
  have hsplit := splitIgnored_of_lexeme hne hread
  exact .step (r := ⟨x, x.written, cs⟩) (by rwa [hsplit]) (by rw [hsplit]; exact hread) h

end Lexes

/-! ### Tokens -/

namespace Lexer

theorem items_of_finished {l : Lexer} (h : l.finished = true) : l.items = [] := by
  rw [items]
  split
  · rfl
  · next hn =>
    rw [next?, if_pos h] at hn
    cases hn

theorem items_eq_cons {l l' : Lexer} {item : Item} (hf : l.finished = false)
    (h : l.nextToken = (item, l')) :
    l.items = item :: { l' with finished := item.isLast }.items := by
  have hnext : l.next? = (some item, { l' with finished := item.isLast }) := by
    rw [next?, hf, h]
    rfl
  rw [items]
  split
  · next hn =>
    rw [hnext] at hn
    cases hn
  · next hn =>
    rw [hnext] at hn
    cases hn
    rfl

/-- Nothing follows the last item. -/
theorem items_eq_singleton {l l' : Lexer} {item : Item} (hf : l.finished = false)
    (h : l.nextToken = (item, l')) (hlast : item.isLast = true) : l.items = [item] := by
  have hnil : { l' with finished := item.isLast }.items = [] := items_of_finished hlast
  rw [items_eq_cons hf h, hnil]

/-- The first of the items to come, at most `n` of them. -/
def firstItems : Nat → Lexer → List Item
  | 0, _ => []
  | n + 1, l =>
    match l.next? with
    | (none, _) => []
    | (some item, l') => item :: l'.firstItems n

theorem length_firstItems_le (n : Nat) (l : Lexer) : (l.firstItems n).length ≤ n := by
  induction n generalizing l with
  | zero => exact Nat.le_refl 0
  | succ n ih =>
    rw [firstItems]
    split
    · exact Nat.zero_le _
    · exact Nat.succ_le_succ (ih _)

/-- All items come before the size of the lexer is used up. -/
theorem items_eq_firstItems {n : Nat} {l : Lexer} (h : l.size ≤ n) : l.items = l.firstItems n := by
  induction n generalizing l with
  | zero =>
    rw [items]
    split
    · rfl
    · next hn => exact absurd (size_next?_lt hn) (by omega)
  | succ n ih =>
    rw [items, firstItems]
    split
    · next hn => rw [hn]
    · next item l' hn =>
      have hlt := size_next?_lt hn
      rw [hn, ih (by omega)]

/-- A lexer that has neither come to the end of its text nor met a fault. -/
def Running (l : Lexer) : Prop := l.finished = false ∧ l.failure? = none

theorem new_running (source : String) : (new source).Running := ⟨rfl, rfl⟩

/-- Where only ignored text is left, the end of the input is the last item. -/
theorem items_of_stop {l : Lexer} (hl : l.Running) (h : (splitIgnored false l.rest).2 = []) :
    l.items = [.ok (.endAt (l.cursor.past (splitIgnored false l.rest).1).position)] := by
  have hr : Scan.lexeme (splitIgnored false l.rest).2 = .ok ⟨⟨.endOfInput, none⟩, [], []⟩ := by
    rw [h]
    rfl
  exact items_eq_singleton hl.1 (nextToken_of_ok hl.2 hr) rfl

/-- A fault is the last item. -/
theorem items_of_error {l : Lexer} {e : Misreading} (hl : l.Running)
    (hr : Scan.lexeme (splitIgnored false l.rest).2 = .error e) :
    l.items = [.error (e.locate (l.cursor.past (splitIgnored false l.rest).1))] :=
  items_eq_singleton hl.1 (nextToken_of_error hl.2 hr) rfl

/-- A lexeme is given out as a token, and the lexer goes on behind it. -/
theorem items_of_step {l : Lexer} {r : Reading Lexeme} (hl : l.Running)
    (hne : (splitIgnored false l.rest).2 ≠ [])
    (hr : Scan.lexeme (splitIgnored false l.rest).2 = .ok r) :
    ∃ (t : Token) (l' : Lexer), l.items = .ok t :: l'.items ∧ t.toLexeme = r.value ∧
      t.span = (l.cursor.past (splitIgnored false l.rest).1).spanOf r.text ∧ l'.Running ∧
      l'.rest = r.rest ∧
      l'.cursor = (l.cursor.past (splitIgnored false l.rest).1).past r.text := by
  have hlast : r.value.kind ≠ .endOfInput := (Scan.spellable_of_lexeme hne hr).kind_ne
  refine ⟨_, _, items_eq_cons hl.1 (nextToken_of_ok hl.2 hr), rfl, rfl, ⟨?_, hl.2⟩, rfl, rfl⟩
  simpa [Item.isLast] using hlast

/-- A lexeme takes some of the text. -/
theorem length_rest_lt_of_lexeme {cs : List Char} {r : Reading Lexeme}
    (hne : (splitIgnored false cs).2 ≠ []) (hr : Scan.lexeme (splitIgnored false cs).2 = .ok r) :
    r.rest.length < cs.length := by
  have hpos := List.length_pos_iff.2 (Scan.lexeme_ne_nil hne hr)
  have hlen := congrArg List.length (Scan.Faithful.lexeme hr)
  have hle := length_splitIgnored_le false cs
  rw [List.length_append] at hlen
  omega

/-- The lexer gives out the lexemes of its text. -/
theorem items_of_lexes {l : Lexer} {ws : List Lexeme} (hl : l.Running) (h : Lexes l.rest ws) :
    ∃ ts p, l.items = (ts ++ [Token.endAt p]).map .ok ∧ ts.map Token.toLexeme = ws := by
  generalize hcs : l.rest = cs at h
  induction h generalizing l with
  | stop hs => exact ⟨[], _, items_of_stop hl (by rwa [hcs]), rfl⟩
  | step hne hr _ ih =>
    obtain ⟨t, l', hitems, ht, _, hl', hrest, _⟩ := items_of_step hl (by rwa [hcs]) (by rwa [hcs])
    obtain ⟨ts, p, hts, hws⟩ := ih hl' hrest
    exact ⟨t :: ts, p, by simp [hitems, hts], by simp [ht, hws]⟩

/-- Either a lexer gives out the lexemes of its text, or it breaks off in a fault. -/
theorem items_cases (l : Lexer) (hl : l.Running) :
    (∃ ws, Lexes l.rest ws) ∨
      ∃ (ts : List Token) (e : LexicalError), l.items = ts.map .ok ++ [.error e] ∧
        ∀ t ∈ ts, t.kind ≠ .endOfInput := by
  induction hn : l.rest.length using Nat.strongRecOn generalizing l with
  | _ n ih =>
    by_cases hs : (splitIgnored false l.rest).2 = []
    · exact .inl ⟨[], .stop hs⟩
    · cases hr : Scan.lexeme (splitIgnored false l.rest).2 with
      | error e => exact .inr ⟨[], _, items_of_error hl hr, by simp⟩
      | ok r =>
        obtain ⟨t, l', hitems, ht, _, hl', hrest, _⟩ := items_of_step hl hs hr
        have hlt : l'.rest.length < n := by
          rw [hrest, ← hn]
          exact length_rest_lt_of_lexeme hs hr
        rcases ih _ hlt l' hl' rfl with ⟨ws, hws⟩ | ⟨ts, e, hts, hkind⟩
        · exact .inl ⟨_, .step hs hr (hrest ▸ hws)⟩
        · refine .inr ⟨t :: ts, e, by simp [hitems, hts], fun u hu => ?_⟩
          rcases List.mem_cons.1 hu with rfl | hu
          · rw [ht]
            exact (Scan.spellable_of_lexeme hs hr).kind_ne
          · exact hkind u hu

end Lexer

theorem tokenize_eq_firstItems (source : String) :
    tokenize source = (Lexer.new source).firstItems (source.length + 1) :=
  Lexer.items_eq_firstItems (by simp [Lexer.size, Lexer.new, String.length_toList])

/-- The tokens of a text that consists of lexemes. -/
theorem tokenize_of_lexes {source : String} {ws : List Lexeme} (h : Lexes source.toList ws) :
    ∃ ts p, tokenize source = (ts ++ [Token.endAt p]).map .ok ∧ ts.map Token.toLexeme = ws :=
  Lexer.items_of_lexes (Lexer.new_running source) h

/-- A text consists of lexemes, or its tokens break off in a fault. -/
theorem tokenize_cases (source : String) :
    (∃ ws, Lexes source.toList ws) ∨
      ∃ (ts : List Token) (e : LexicalError), tokenize source = ts.map .ok ++ [.error e] ∧
        ∀ t ∈ ts, t.kind ≠ .endOfInput :=
  (Lexer.new source).items_cases (Lexer.new_running source)

end GraphQL
