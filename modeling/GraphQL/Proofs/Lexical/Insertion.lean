/-
More ignored text between tokens.

* `Item.unplaced` — an item, its place left aside;
* `Yields` — what a text yields, wherever it stands: lexemes, and the end of
  the input or a fault;
* `Seam` — two texts that meet at the start or the end of a token;
* `Yields.insert` — complete ignored text at a seam changes nothing;
* `tokenize_insert` — the tokens of a source stay the same, but for their
  places, when ignored text is put in at the start or the end of one of them.

Design notes: the places of tokens say where a source can be cut.  Once that is
a statement on texts, `Seam`, places have no more part in it.
-/
import GraphQL.Proofs.Lexical.Following
import GraphQL.Proofs.Lexical.Ignored
import GraphQL.Proofs.Lexical.Tiling

namespace GraphQL

/-! ### Items without their places -/

/-- A token, its place left aside. -/
def Token.unplaced (t : Token) : Token := ⟨t.toLexeme, .emptyAt .zero⟩

/-- A lexical fault, its place left aside. -/
def LexicalError.unplaced (e : LexicalError) : LexicalError := { e with span := .emptyAt .zero }

/-- An item, its place left aside. -/
def Item.unplaced : Item → Item
  | .ok t => .ok t.unplaced
  | .error e => .error e.unplaced

/-- A text yields some items, their places left aside. -/
inductive Yields : List Char → List Item → Prop
  | stop {cs : List Char} (hs : (splitIgnored false cs).2 = []) : Yields cs [.ok (.endAt .zero)]
  | fault {cs : List Char} {e : Misreading}
    (hr : Scan.lexeme (splitIgnored false cs).2 = .error e) :
    Yields cs [.error (e.locate .start).unplaced]
  | token {cs : List Char} {r : Reading Lexeme} {items : List Item}
    (hne : (splitIgnored false cs).2 ≠ [])
    (hr : Scan.lexeme (splitIgnored false cs).2 = .ok r) (h : Yields r.rest items) :
    Yields cs (.ok ⟨r.value, .emptyAt .zero⟩ :: items)

namespace Yields

variable {cs cs' : List Char} {items items' : List Item}

theorem unique (h : Yields cs items) (h' : Yields cs items') : items' = items := by
  induction h generalizing items' with
  | stop hs =>
    cases h' with
    | stop _ => rfl
    | fault hr' =>
      rw [hs] at hr'
      cases hr'
    | token hne _ _ => exact absurd hs hne
  | fault hr =>
    cases h' with
    | stop hs =>
      rw [hs] at hr
      cases hr
    | fault hr' =>
      cases hr.symm.trans hr'
      rfl
    | token _ hr' _ => cases hr.symm.trans hr'
  | token hne hr _ ih =>
    cases h' with
    | stop hs => exact absurd hs hne
    | fault hr' => cases hr.symm.trans hr'
    | token _ hr' h' =>
      cases hr.symm.trans hr'
      rw [ih h']

/-- What a text yields depends on what is behind the ignored text in front. -/
theorem congr (h : Yields cs items)
    (hs : (splitIgnored false cs').2 = (splitIgnored false cs).2) : Yields cs' items := by
  cases h with
  | stop h => exact .stop (hs.trans h)
  | fault hr => exact .fault (by rwa [hs])
  | token hne hr h => exact .token (by rwa [hs]) (by rwa [hs]) h

end Yields

/-- What a lexer gives out is what the text in front of it yields. -/
theorem Lexer.items_yields {l : Lexer} (hl : l.Running) :
    Yields l.rest (l.items.map Item.unplaced) := by
  induction hn : l.rest.length using Nat.strongRecOn generalizing l with
  | _ n ih =>
    by_cases hs : (splitIgnored false l.rest).2 = []
    · rw [items_of_stop hl hs]
      exact .stop hs
    · cases hr : Scan.lexeme (splitIgnored false l.rest).2 with
      | error e =>
        rw [items_of_error hl hr]
        exact .fault hr
      | ok r =>
        obtain ⟨t, l', hitems, ht, _, hl', hrest, _⟩ := items_of_step hl hs hr
        have hlt : l'.rest.length < n := by
          rw [hrest, ← hn]
          exact length_rest_lt_of_lexeme hs hr
        have hmore := ih _ hlt hl' rfl
        rw [hrest] at hmore
        rw [hitems, List.map_cons, Item.unplaced, Token.unplaced, ht]
        exact .token hs hr hmore

/-! ### Seams -/

/-- Two texts meet at the start or the end of a token. -/
inductive Seam : List Char → List Char → Prop
  /-- Nothing is in front. -/
  | front {q : List Char} : Seam [] q
  /-- All that is in front is ignored, up to a token or the end of the input. -/
  | gap {gap text : List Char} (hs : splitIgnored false (gap ++ text) = (gap, text)) :
    Seam gap text
  /-- A token is in front, and they meet somewhere behind it. -/
  | token {gap p q : List Char} {r : Reading Lexeme}
    (hs : splitIgnored false (gap ++ (r.text ++ r.rest)) = (gap, r.text ++ r.rest))
    (hne : r.text ≠ []) (hr : Scan.lexeme (r.text ++ r.rest) = .ok r) (hrest : p ++ q = r.rest)
    (h : Seam p q) : Seam (gap ++ (r.text ++ p)) q

/-- No ignored character continues a word. -/
theorem continuesWord_of_isIgnored {c : Char} (hc : isIgnored c = true) :
    continuesWord c = false := by
  simp only [isIgnored, isLineBreak, Bool.or_eq_true, beq_iff_eq] at hc
  rcases hc with (((rfl | rfl) | rfl | rfl) | rfl) | rfl <;> decide

/-- Ignored text ends every lexeme that the text behind it ends. -/
theorem IsIgnoredText.endsToo {w : List Char} (hw : IsIgnoredText w) (q : List Char) :
    EndsToo q (w ++ q) := by
  cases hw with
  | nil => exact .inl rfl
  | ignored hc _ => exact .inr (stops_cons_iff.2 (continuesWord_of_isIgnored hc))
  | comment _ _ _ => exact .inr (stops_cons_iff.2 (by decide))

/-- A token and the ignored text in front of it stay what they are, whatever
follows the token and ends it. -/
theorem Yields.token_followed {gap rest : List Char} {r : Reading Lexeme} {items : List Item}
    (hs : splitIgnored false (gap ++ (r.text ++ r.rest)) = (gap, r.text ++ r.rest))
    (hne : r.text ≠ []) (hr : Scan.lexeme (r.text ++ r.rest) = .ok r)
    (hends : EndsToo r.rest rest) (h : Yields rest items) :
    Yields (gap ++ (r.text ++ rest)) (.ok ⟨r.value, .emptyAt .zero⟩ :: items) := by
  have hhead : (r.text ++ rest).head? = (r.text ++ r.rest).head? := by
    obtain ⟨c, text, htext⟩ := List.exists_cons_of_ne_nil hne
    rw [htext]
    rfl
  have hsplit := splitIgnored_replace hs (by simp [hne]) hhead
  have hread := Scan.lexeme_followed (by simp [hne]) hr hends
  exact .token (r := ⟨r.value, r.text, rest⟩) (by simp [hsplit, hne]) (by rwa [hsplit]) h

/-- Complete ignored text at a seam changes nothing. -/
theorem Yields.insert {p q w : List Char} (h : Seam p q) (hw : IsIgnoredText w)
    {items : List Item} (hy : Yields (p ++ q) items) : Yields (p ++ (w ++ q)) items := by
  induction h generalizing items with
  | front => exact hy.congr (splitIgnored_front hw _)
  | gap hs => exact hy.congr (by rw [splitIgnored_insert hs hw, hs])
  | @token gap p q r hs hne hr hrest _ ih =>
    rw [List.append_assoc, List.append_assoc, hrest] at hy
    rw [List.append_assoc, List.append_assoc]
    have hends : EndsToo r.rest (p ++ (w ++ q)) := by
      rw [← hrest]
      exact (hw.endsToo q).append_left p
    cases hy with
    | stop h => simp [hs, hne] at h
    | fault he =>
      rw [hs] at he
      cases hr.symm.trans he
    | token _ hr' hmore =>
      rw [hs] at hr'
      cases hr.symm.trans hr'
      rw [← hrest] at hmore
      exact .token_followed hs hne hr hends (ih hmore)

/-! ### Places and seams -/

theorem byteLength_eq_zero {cs : List Char} (h : byteLength cs = 0) : cs = [] := by
  cases cs with
  | nil => rfl
  | cons c cs =>
    have hpos := c.utf8Size_pos
    rw [byteLength_cons] at h
    omega

section

variable {front as bs p q : List Char}

/-- Of two fronts of a text, the one with more bytes goes on behind the other. -/
theorem exists_of_byteLength_le (h : as ++ bs = p ++ q)
    (hle : byteLength (front ++ as) ≤ byteLength (front ++ p)) :
    ∃ more, p = as ++ more ∧ more ++ q = bs := by
  rcases List.append_eq_append_iff.1 h with ⟨more, rfl, rfl⟩ | ⟨more, rfl, rfl⟩
  · exact ⟨more, rfl, rfl⟩
  · rw [← List.append_assoc, byteLength_append] at hle
    obtain rfl := byteLength_eq_zero (by omega : byteLength more = 0)
    exact ⟨[], by simp, rfl⟩

theorem eq_of_byteLength_eq (h : as ++ bs = p ++ q)
    (hlen : byteLength (front ++ p) = byteLength (front ++ as)) : p = as ∧ q = bs := by
  obtain ⟨more, rfl, hq⟩ := exists_of_byteLength_le h (Nat.le_of_eq hlen.symm)
  rw [← List.append_assoc, byteLength_append] at hlen
  obtain rfl := byteLength_eq_zero (by omega : byteLength more = 0)
  exact ⟨List.append_nil as, hq⟩

/-- The texts meet in front of the first lexeme, or of the end. -/
theorem Seam.of_gap {gap text : List Char} (hs : splitIgnored false (p ++ q) = (gap, text))
    (hlen : byteLength (front ++ p) = byteLength (front ++ gap)) : Seam p q := by
  have hsplit := splitIgnored_append false (p ++ q)
  rw [hs] at hsplit
  obtain ⟨rfl, rfl⟩ := eq_of_byteLength_eq hsplit hlen
  exact .gap hs

variable {gap : List Char} {r : Reading Lexeme}
  (hs : splitIgnored false (p ++ q) = (gap, r.text ++ r.rest)) (hne : r.text ≠ [])
  (hr : Scan.lexeme (r.text ++ r.rest) = .ok r)
include hs hne hr

/-- The texts meet behind the first lexeme. -/
theorem Seam.of_token (hle : byteLength (front ++ (gap ++ r.text)) ≤ byteLength (front ++ p))
    (hmore : ∀ more, p = gap ++ r.text ++ more → more ++ q = r.rest → Seam more q) :
    Seam p q := by
  have hsplit := splitIgnored_append false (p ++ q)
  rw [hs, ← List.append_assoc] at hsplit
  obtain ⟨more, rfl, hq⟩ := exists_of_byteLength_le hsplit hle
  rw [← hsplit, List.append_assoc] at hs
  rw [List.append_assoc]
  exact .token hs hne hr hq (hmore more rfl hq)

/-- The texts meet directly behind the first lexeme. -/
theorem Seam.of_token_end (hlen : byteLength (front ++ p) = byteLength (front ++ (gap ++ r.text))) :
    Seam p q := by
  refine .of_token hs hne hr (Nat.le_of_eq hlen.symm) fun more hp hq => ?_
  rw [hp, ← List.append_assoc, byteLength_append] at hlen
  obtain rfl := byteLength_eq_zero (by omega : byteLength more = 0)
  exact .front

end

/-- Whether a span starts or stops behind so many bytes. -/
def Span.HasEnd (s : Span) (byteOffset : Nat) : Prop :=
  s.start.byteOffset = byteOffset ∨ s.stop.byteOffset = byteOffset

theorem Span.HasEnd.le {s : Span} {n m : Nat} (h : s.HasEnd n) {source text : String}
    (hs : s.slice? source = some text) (hm : m ≤ s.start.byteOffset) : m ≤ n := by
  rcases h with rfl | rfl
  · exact hm
  · exact Nat.le_trans hm (start_le_stop hs)

namespace Lexer

/-- No token that is still to come has an end in front of where the lexer stands. -/
theorem Behind.le_of_hasEnd {l : Lexer} {source : String} {front : List Char}
    (h : l.Behind source front) (hl : l.Running) {t : Token} (ht : .ok t ∈ l.items) {n : Nat}
    (hn : t.span.HasEnd n) : byteLength front ≤ n := by
  have htiled := items_tiled hl h
  obtain ⟨text, htext⟩ := Option.isSome_iff_exists.1 (htiled.slice?_isSome _ ht)
  exact hn.le htext (htiled.le_start _ ht)

/-- Where a token starts or stops, the texts to both sides meet at a seam. -/
theorem seam_of_mem {l : Lexer} {source : String} {front p q : List Char} (hl : l.Running)
    (h : l.Behind source front) (hpq : l.rest = p ++ q) {t : Token} (ht : .ok t ∈ l.items)
    (hcut : t.span.HasEnd (byteLength (front ++ p))) : Seam p q := by
  induction hn : l.rest.length using Nat.strongRecOn generalizing l front p with
  | _ n ih =>
    obtain ⟨gap, text, hs⟩ : ∃ gap text, splitIgnored false l.rest = (gap, text) := ⟨_, _, rfl⟩
    have hpqs := hs
    rw [hpq] at hpqs
    by_cases hnil : text = []
    · rw [items_of_stop hl (by rw [hs, hnil]), hs, h.past] at ht
      cases List.mem_singleton.1 ht
      -- The end of the input starts where it stops.
      have hend : byteLength (front ++ gap) = byteLength (front ++ p) := hcut.elim id id
      exact .of_gap hpqs hend.symm
    · cases hr : Scan.lexeme text with
      | error e =>
        rw [items_of_error hl (by rw [hs]; exact hr)] at ht
        cases List.mem_singleton.1 ht
      | ok r =>
        obtain ⟨t', l', hitems, _, hspan, hl', hrest, h', hlt⟩ := h.items_of_step hl hs hnil hr
        have hne := Scan.lexeme_ne_nil hnil hr
        obtain rfl : r.text ++ r.rest = text := Scan.Faithful.lexeme hr
        rw [h.past, Cursor.spanOf_behind] at hspan
        rw [hitems] at ht
        rcases List.mem_cons.1 ht with heq | hmem
        · cases heq
          rw [hspan] at hcut
          rcases hcut with hstart | hstop
          · exact .of_gap hpqs hstart.symm
          · rw [Span.behind, List.append_assoc] at hstop
            exact .of_token_end hpqs hne hr hstop.symm
        · rw [List.append_assoc] at h'
          refine .of_token hpqs hne hr (h'.le_of_hasEnd hl' hmem hcut) fun more hp hq => ?_
          rw [hp, ← List.append_assoc] at hcut
          exact ih _ (hn ▸ hlt) hl' h' (hrest.trans hq.symm) hmem hcut rfl

end Lexer

/-- Ignored text that is put in at the start or the end of a token changes no
item of a source but for its place. -/
theorem tokenize_insert {p w q : String} {t : Token} (ht : .ok t ∈ tokenize (p ++ q))
    (hcut : t.span.HasEnd p.utf8ByteSize) (hw : IsIgnoredText w.toList) :
    (tokenize (p ++ w ++ q)).map Item.unplaced = (tokenize (p ++ q)).map Item.unplaced := by
  have hyields (source : String) : Yields source.toList ((tokenize source).map Item.unplaced) :=
    Lexer.items_yields (Lexer.new_running source)
  have hseam : Seam p.toList q.toList := by
    have hsource : (Lexer.new (p ++ q)).rest = p.toList ++ q.toList := String.toList_append
    refine Lexer.seam_of_mem (Lexer.new_running _) (Lexer.new_behind _) hsource ht ?_
    rwa [List.nil_append, byteLength_toList]
  have hy := hyields (p ++ q)
  have hy' := hyields (p ++ w ++ q)
  rw [String.toList_append] at hy
  rw [String.toList_append, String.toList_append, List.append_assoc] at hy'
  exact (hy.insert hseam hw).unique hy'

end GraphQL
