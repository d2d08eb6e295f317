/-
The tokens of a source tile it.

* `IsGap` — text that means nothing in front of other text;
* `Tiled` — the items of a source, one behind the other, with gaps between;
* `Lexer.items_tiled` — the items that a lexer gives out tile what it has not
  read yet;
* `tokenize_tiled` — a source is tiled by its tokens, of which there is one for
  each of its characters at most, and one more.

Design notes: `Tiled` only speaks of spans and of what they cut out of the
source.  That they can be cut out at all follows from where a lexer stands.
-/
import GraphQL.Proofs.Lexical.Cursor
import GraphQL.Proofs.Lexical.Lexer

namespace GraphQL

/-! ### Gaps -/

/-- Text that means nothing in front of other text: ignored characters, and
comments, each of which runs up to a line break or the end. -/
inductive IsGap (rest : List Char) : List Char → Prop
  | nil : IsGap rest []
  | ignored {c : Char} {gap : List Char} (hc : isIgnored c = true) (h : IsGap rest gap) :
    IsGap rest (c :: gap)
  | comment {body gap : List Char} (hbody : ∀ c ∈ body, isLineBreak c = false)
    (hend : ∀ c ∈ (gap ++ rest).head?, isLineBreak c = true) (h : IsGap rest gap) :
    IsGap rest ('#' :: (body ++ gap))

/-- What is split off a text is a gap.  Inside a comment, the rest of the comment
comes first. -/
theorem isGap_splitIgnored (cs : List Char) :
    IsGap (splitIgnored false cs).2 (splitIgnored false cs).1 ∧
      ∃ body gap, (splitIgnored true cs).1 = body ++ gap ∧ (∀ c ∈ body, isLineBreak c = false) ∧
        (∀ c ∈ (gap ++ (splitIgnored true cs).2).head?, isLineBreak c = true) ∧
        IsGap (splitIgnored true cs).2 gap := by
  induction cs with
  | nil => exact ⟨.nil, [], [], rfl, by simp, by simp [splitIgnored], .nil⟩
  | cons c cs ih =>
    obtain ⟨hgap, body, gap, hsplit, hbody, hend, hrest⟩ := ih
    constructor
    · by_cases hhash : c = '#'
      · subst hhash
        show IsGap (splitIgnored true cs).2 ('#' :: (splitIgnored true cs).1)
        rw [hsplit]
        exact .comment hbody hend hrest
      · have hfalse : (c == '#') = false := by simpa using hhash
        rw [splitIgnored, if_neg (by simp), hfalse]
        split
        · next hc =>
          rw [Bool.or_eq_true, decide_eq_true_eq] at hc
          exact .ignored (hc.resolve_left hhash) hgap
        · exact .nil
    · rw [splitIgnored, if_pos rfl]
      cases hc : isLineBreak c with
      | true =>
        refine ⟨[], c :: (splitIgnored false cs).1, rfl, by simp, by simpa using hc, ?_⟩
        exact .ignored (by simp [isIgnored, hc]) hgap
      | false =>
        refine ⟨c :: body, gap, congrArg (c :: ·) hsplit, ?_, hend, hrest⟩
        exact List.forall_mem_cons.2 ⟨hc, hbody⟩

theorem isGap_of_splitIgnored {cs gap text : List Char} (hs : splitIgnored false cs = (gap, text)) :
    IsGap text gap := by
  have hsplit := (isGap_splitIgnored cs).1
  rwa [hs] at hsplit

/-! ### The text of a lexeme -/

theorem sameLine_of_isNameContinue {text : List Char} (h : ∀ c ∈ text, isNameContinue c = true) :
    ∀ c ∈ text, isLineBreak c = false := by
  intro c hc
  rw [isLineBreak_eq_false_iff]
  constructor <;> (rintro rfl; exact absurd (h _ hc) (by decide))

theorem sameLine_of_subset {text marks : List Char} (h : text = [] ∨ ∃ c ∈ marks, text = [c])
    (hmarks : ∀ c ∈ marks, isLineBreak c = false) : ∀ c ∈ text, isLineBreak c = false := by
  rcases h with rfl | ⟨c, hc, rfl⟩
  · simp
  · exact List.forall_mem_singleton.2 (hmarks c hc)

theorem IsName.sameLine {text : String} (h : IsName text) :
    ∀ c ∈ text.toList, isLineBreak c = false := by
  obtain ⟨c, cs, ht, hc, hcs⟩ := h
  rw [ht]
  exact sameLine_of_isNameContinue
    (List.forall_mem_cons.2 ⟨isNameContinue_of_isNameStart hc, hcs⟩)

theorem IsDigits.sameLine {ds : List Char} (h : IsDigits ds) : ∀ c ∈ ds, isLineBreak c = false :=
  sameLine_of_isNameContinue fun c hc => isNameContinue_of_isDigit (h.2 c hc)

theorem Numeral.sameLine {f e : Bool} {text : List Char} (h : Numeral f e text) :
    ∀ c ∈ text, isLineBreak c = false := by
  obtain ⟨hsign, hi, hf, he⟩ := h
  simp only [List.forall_mem_append]
  refine ⟨?_, ?_, ?_, ?_⟩
  · exact sameLine_of_subset hsign (by simp [isLineBreak])
  · cases hi with
    | zero => simp [isLineBreak]
    | digits h _ => exact h.sameLine
  · cases hf with
    | none => simp
    | some h => exact List.forall_mem_cons.2 ⟨rfl, h.sameLine⟩
  · cases he with
    | none => simp
    | some hm hs h =>
      have hmarks : ∀ c ∈ ['e', 'E'], isLineBreak c = false := by simp [isLineBreak]
      refine List.forall_mem_cons.2 ⟨hmarks _ hm, List.forall_mem_append.2 ⟨?_, h.sameLine⟩⟩
      exact sameLine_of_subset hs (by simp [isLineBreak])

namespace Lexeme.Stands

variable {x : Lexeme} {text rest : List Char}

theorem ne_nil (h : x.Stands rest text) : text ≠ [] := by
  cases h with
  | punctuator p => cases p <;> decide
  | name h _ =>
    obtain ⟨c, cs, ht, _⟩ := h
    rw [String.toList_ofList] at ht
    exact ht ▸ List.cons_ne_nil c cs
  | int h =>
    obtain ⟨c, cs, ht, _⟩ := Numeral.opens h
    rw [String.toList_ofList] at ht
    exact ht ▸ List.cons_ne_nil c cs
  | float h =>
    obtain ⟨f, e, h, _⟩ := h
    obtain ⟨c, cs, ht, _⟩ := h.opens
    rw [String.toList_ofList] at ht
    exact ht ▸ List.cons_ne_nil c cs
  | string _ => exact List.cons_ne_nil _ _

/-- A lexeme stands on one line. -/
theorem sameLine (h : x.Stands rest text) : ∀ c ∈ text, isLineBreak c = false := by
  cases h with
  | punctuator p => cases p <;> simp [Punctuator.text, isLineBreak]
  | name h _ => exact String.toList_ofList (l := text) ▸ h.sameLine
  | int h => exact String.toList_ofList (l := text) ▸ Numeral.sameLine h
  | float h =>
    obtain ⟨f, e, h, _⟩ := h
    exact String.toList_ofList (l := text) ▸ h.sameLine
  | string h =>
    exact List.forall_mem_cons.2 ⟨rfl, List.forall_mem_append.2 ⟨h, by simp [isLineBreak]⟩⟩

end Lexeme.Stands

/-! ### Tilings -/

/-- The items of a source from a place on.  In front of each token is a gap, and
the last item is the end of the source or a fault. -/
inductive Tiled (source : String) : Position → List Item → Prop
  /-- The end of the input stands at the end of the source and covers nothing. -/
  | stop {p : Position} {gap : String}
    (hgap : Span.slice? ⟨p, .behind source.toList⟩ source = some gap)
    (hignored : IsGap [] gap.toList) :
    Tiled source p [.ok (.endAt (.behind source.toList))]
  /-- A fault lies inside the source, and not in front of where it was met. -/
  | fault {p : Position} {e : LexicalError} {skipped text : String}
    (hskipped : Span.slice? ⟨p, e.span.start⟩ source = some skipped)
    (htext : e.span.slice? source = some text) :
    Tiled source p [.error e]
  /-- A token covers its own text, on one line and behind a gap. -/
  | token {p : Position} {t : Token} {items : List Item} {gap text : String} {rest : List Char}
    (hgap : Span.slice? ⟨p, t.span.start⟩ source = some gap)
    (htext : t.span.slice? source = some text)
    (hrest : dropBytes? t.span.stop.byteOffset source.toList = some rest)
    (hignored : IsGap (text.toList ++ rest) gap.toList)
    (hstands : t.toLexeme.Stands rest text.toList) (hne : t.span.isEmpty = false)
    (hline : t.span.start.line = t.span.stop.line ∧ ∀ c ∈ text.toList, isLineBreak c = false)
    (h : Tiled source t.span.stop items) :
    Tiled source p (.ok t :: items)

theorem Span.start_le_stop {s : Span} {source text : String} (h : s.slice? source = some text) :
    s.start.byteOffset ≤ s.stop.byteOffset := by
  unfold slice? at h
  split at h
  · assumption
  · cases h

theorem Span.slice?_end (source : String) :
    (emptyAt (.behind source.toList)).slice? source = some "" := by
  have hsource : source.toList ++ [] ++ [] = source.toList := by simp
  have h := slice?_behind hsource
  rwa [behind, List.append_nil] at h

theorem Span.isEmpty_behind {before text : List Char} (h : text ≠ []) :
    (behind before text).isEmpty = false := by
  have hpos := List.length_pos_iff.2 h
  have hlength : (behind before text).length = text.length := by
    simp [behind, length, Position.behind]
  rw [isEmpty, hlength, beq_eq_false_iff_ne]
  omega

namespace Tiled

variable {source : String} {p : Position} {items : List Item}

/-- All spans can be cut out of the source. -/
theorem slice?_isSome (h : Tiled source p items) :
    ∀ item ∈ items, (item.span.slice? source).isSome = true := by
  induction h with
  | stop _ _ =>
    exact List.forall_mem_singleton.2 (Option.isSome_iff_exists.2 ⟨_, Span.slice?_end source⟩)
  | fault _ htext => exact List.forall_mem_singleton.2 (Option.isSome_iff_exists.2 ⟨_, htext⟩)
  | token _ htext _ _ _ _ _ _ ih =>
    exact List.forall_mem_cons.2 ⟨Option.isSome_iff_exists.2 ⟨_, htext⟩, ih⟩

/-- No item starts before the place from which the source is tiled. -/
theorem le_start (h : Tiled source p items) :
    ∀ item ∈ items, p.byteOffset ≤ item.span.start.byteOffset := by
  induction h with
  | stop hgap _ => exact List.forall_mem_singleton.2 (Span.start_le_stop hgap)
  | fault hskipped _ => exact List.forall_mem_singleton.2 (Span.start_le_stop hskipped)
  | token hgap htext _ _ _ _ _ _ ih =>
    have hstart := Span.start_le_stop hgap
    have hstop := Span.start_le_stop htext
    refine List.forall_mem_cons.2 ⟨hstart, fun item hitem => ?_⟩
    exact Nat.le_trans hstart (Nat.le_trans hstop (ih item hitem))

/-- The items are in order, and no two of them overlap. -/
theorem pairwise (h : Tiled source p items) :
    items.Pairwise fun a b => a.span.stop.byteOffset ≤ b.span.start.byteOffset := by
  induction h with
  | stop _ _ => exact List.pairwise_singleton _ _
  | fault _ _ => exact List.pairwise_singleton _ _
  | token _ _ _ _ _ _ _ h ih => exact List.pairwise_cons.2 ⟨h.le_start, ih⟩

end Tiled

namespace Lexer

section

variable {l : Lexer} {source : String} {front gap text : List Char}
  (h : l.Behind source front) (hs : splitIgnored false l.rest = (gap, text))
include h hs

theorem Behind.tiled_stop (hnil : text = []) :
    Tiled source (.behind front) [.ok (.endAt (.behind source.toList))] := by
  subst hnil
  have hgap := Span.slice?_behind (h.append_gap hs)
  have hsource := h.append_gap hs
  rw [List.append_nil] at hsource
  rw [Span.behind, hsource] at hgap
  exact .stop hgap (by rw [String.toList_ofList]; exact isGap_of_splitIgnored hs)

theorem Behind.tiled_fault {e : Misreading} (hr : Scan.lexeme text = .error e) :
    Tiled source (.behind front) [.error (e.locate (l.cursor.past gap))] := by
  obtain ⟨hspan, htext⟩ := h.fault hs hr
  have hsource : front ++ (gap ++ e.before) ++ (e.text ++ text.drop e.consumed.length) =
      source.toList := by simpa using htext
  have hskipped := Span.slice?_behind hsource
  have hstart : (e.locate (l.cursor.past gap)).span.start =
      .behind (front ++ (gap ++ e.before)) := by rw [hspan, Span.behind, List.append_assoc]
  rw [Span.behind, ← hstart] at hskipped
  exact .fault hskipped (hspan ▸ Span.slice?_behind htext)

/-- A lexeme goes in front of what tiles the text behind it. -/
theorem Behind.tiled_token {r : Reading Lexeme} {t : Token} {items : List Item}
    (hnil : text ≠ []) (hr : Scan.lexeme text = .ok r) (ht : t.toLexeme = r.value)
    (hspan : t.span = (l.cursor.past gap).spanOf r.text)
    (hitems : Tiled source (.behind (front ++ gap ++ r.text)) items) :
    Tiled source (.behind front) (.ok t :: items) := by
  obtain ⟨hcovers, htext⟩ := h.token hs hr
  have hstands := Scan.stands_of_lexeme hnil hr
  have hfaithful := Scan.Faithful.lexeme hr
  rw [hcovers] at hspan
  have hstart : t.span.start = .behind (front ++ gap) := by rw [hspan, Span.behind]
  have hstop : t.span.stop = .behind (front ++ gap ++ r.text) := by rw [hspan, Span.behind]
  have hgap : Span.slice? ⟨.behind front, t.span.start⟩ source = some (String.ofList gap) := by
    rw [hstart]
    exact Span.slice?_behind (h.append_gap hs)
  have hrest : dropBytes? t.span.stop.byteOffset source.toList = some r.rest := by
    rw [hstop, ← htext]
    exact dropBytes?_append _ _
  rw [← hstop] at hitems
  refine .token hgap (by rw [hspan, Span.slice?_behind htext]) hrest ?_ ?_ ?_ ⟨?_, ?_⟩ hitems
  · rw [String.toList_ofList, String.toList_ofList, hfaithful]
    exact isGap_of_splitIgnored hs
  · rwa [String.toList_ofList, ht]
  · rw [hspan, Span.isEmpty_behind hstands.ne_nil]
  · rw [hspan, Span.line_behind hstands.sameLine]
  · rw [String.toList_ofList]
    exact hstands.sameLine

end

/-- A lexeme is given out as a token, and the lexer stands behind it then. -/
theorem Behind.items_of_step {l : Lexer} {source : String} {front gap text : List Char}
    (hl : l.Running) (h : l.Behind source front) (hs : splitIgnored false l.rest = (gap, text))
    (hnil : text ≠ []) {r : Reading Lexeme} (hr : Scan.lexeme text = .ok r) :
    ∃ (t : Token) (l' : Lexer), l.items = .ok t :: l'.items ∧ t.toLexeme = r.value ∧
      t.span = (l.cursor.past gap).spanOf r.text ∧ l'.Running ∧ l'.rest = r.rest ∧
      l'.Behind source (front ++ gap ++ r.text) ∧ l'.rest.length < l.rest.length := by
  obtain ⟨_, htext⟩ := h.token hs hr
  have hne : (splitIgnored false l.rest).2 ≠ [] := by rwa [hs]
  have hread : Scan.lexeme (splitIgnored false l.rest).2 = .ok r := by rwa [hs]
  obtain ⟨t, l', hitems, ht, hspan, hl', hrest, hcursor⟩ := Lexer.items_of_step hl hne hread
  rw [hs] at hspan hcursor
  refine ⟨t, l', hitems, ht, hspan, hl', hrest, ⟨?_, ?_, ?_⟩, ?_⟩
  · rw [hrest, htext]
  · rw [hcursor, h.past, Cursor.behind_past]
  · rw [hl'.2]
    simp
  · rw [hrest]
    exact length_rest_lt_of_lexeme hne hread

/-- The items that a lexer gives out tile what it has not read yet. -/
theorem items_tiled {l : Lexer} {source : String} {front : List Char} (hl : l.Running)
    (h : l.Behind source front) : Tiled source (.behind front) l.items := by
  induction hn : l.rest.length using Nat.strongRecOn generalizing l front with
  | _ n ih =>
    obtain ⟨gap, text, hs⟩ : ∃ gap text, splitIgnored false l.rest = (gap, text) := ⟨_, _, rfl⟩
    by_cases hnil : text = []
    · have hsource := h.append_gap hs
      rw [hnil, List.append_nil] at hsource
      rw [items_of_stop hl (by rw [hs, hnil]), hs, h.past, hsource]
      exact h.tiled_stop hs hnil
    · cases hr : Scan.lexeme text with
      | error e =>
        rw [items_of_error hl (by rw [hs]; exact hr), hs]
        exact h.tiled_fault hs hr
      | ok r =>
        obtain ⟨t, l', hitems, ht, hspan, hl', _, h', hlt⟩ := h.items_of_step hl hs hnil hr
        rw [hitems]
        exact h.tiled_token hs hnil hr ht hspan (ih _ (hn ▸ hlt) hl' h' rfl)

end Lexer

/-- A source has one item for each of its characters at most, and one more,
however often a lexer is asked for the next.  They tile it: in order and without
overlap, each with a span that can be cut out of the source, and nothing but
ignored text in between. -/
theorem tokenize_tiled (source : String) :
    (∀ n, source.length < n → (Lexer.new source).firstItems n = tokenize source) ∧
      (tokenize source).length ≤ source.length + 1 ∧ Tiled source .zero (tokenize source) ∧
      (tokenize source).Pairwise (fun a b => a.span.stop.byteOffset ≤ b.span.start.byteOffset) ∧
      ∀ item ∈ tokenize source, (item.span.slice? source).isSome = true := by
  have htiled : Tiled source .zero (tokenize source) :=
    Lexer.items_tiled (Lexer.new_running source) (Lexer.new_behind source)
  refine ⟨fun n hn => (Lexer.items_eq_firstItems ?_).symm, ?_, htiled, htiled.pairwise,
    htiled.slice?_isSome⟩
  · rw [Lexer.size, Lexer.new, if_neg (by simp), String.length_toList]
    exact hn
  · rw [tokenize_eq_firstItems]
    exact Lexer.length_firstItems_le _ _

end GraphQL
