/-
Ignored text.

* `IsIgnoredText` — ignored text that is complete: each of its comments is
  ended by a line break;
* `Skips` — reading text that is all ignored, from inside a comment or not;
* `splitIgnored_replace`, `splitIgnored_insert` — what is split off a text does
  not depend on what follows the next character, nor on more ignored text;
* `splitIgnored_lineBreak` — text that is all ignored means nothing in front of
  a line break.

Design notes: whether a place is inside a comment is all that ignored text
tells the text behind it.  `Skips` has this at both of its ends, so pieces of
ignored text can be put together.
-/
import GraphQL.Lexical.Ignored

namespace GraphQL

/-- Complete ignored text: blanks, line breaks, commas, byte order marks and
comments, each comment with the line break that ends it. -/
inductive IsIgnoredText : List Char → Prop
  | nil : IsIgnoredText []
  | ignored {c : Char} {cs : List Char} (hc : isIgnored c = true) (h : IsIgnoredText cs) :
    IsIgnoredText (c :: cs)
  | comment {body : List Char} {c : Char} {cs : List Char}
    (hbody : ∀ d ∈ body, isLineBreak d = false) (hc : isLineBreak c = true)
    (h : IsIgnoredText cs) : IsIgnoredText ('#' :: (body ++ c :: cs))

/-- A character that is ignored, given whether it stands inside a comment. -/
def IsSkipped (inComment : Bool) (c : Char) : Prop :=
  inComment = true ∨ c = '#' ∨ isIgnored c = true

/-- Whether the place behind an ignored character is inside a comment, given
that for the place in front of it. -/
def inCommentAfter (inComment : Bool) (c : Char) : Bool :=
  if inComment then !isLineBreak c else c == '#'

/-- All of a text is ignored.  It starts, and it ends, inside a comment or not. -/
inductive Skips : Bool → List Char → Bool → Prop
  | nil {b : Bool} : Skips b [] b
  | cons {b b' : Bool} {c : Char} {cs : List Char} (hc : IsSkipped b c)
    (h : Skips (inCommentAfter b c) cs b') : Skips b (c :: cs) b'

/-! ### One character -/

section

variable {b : Bool} {c : Char}

theorem splitIgnored_cons_of_skipped (hc : IsSkipped b c) (cs : List Char) :
    splitIgnored b (c :: cs) =
      (c :: (splitIgnored (inCommentAfter b c) cs).1,
        (splitIgnored (inCommentAfter b c) cs).2) := by
  cases b with
  | true => rfl
  | false =>
    rw [splitIgnored, if_neg (by simp), if_pos (by simpa [IsSkipped] using hc)]
    rfl

theorem splitIgnored_cons_of_not_skipped (hc : ¬IsSkipped b c) (cs : List Char) :
    splitIgnored b (c :: cs) = ([], c :: cs) := by
  have hb : ¬b = true := fun hb => hc (.inl hb)
  rw [splitIgnored, if_neg hb, if_neg (by simpa [IsSkipped, hb] using hc)]

/-- Where nothing is split off, the text starts with a lexeme or is at its end. -/
theorem not_skipped_of_splitIgnored {cs : List Char}
    (h : splitIgnored b (c :: cs) = ([], c :: cs)) : ¬IsSkipped b c := by
  intro hc
  rw [splitIgnored_cons_of_skipped hc] at h
  cases h

theorem inCommentAfter_of_lineBreak (hc : isLineBreak c = true) : inCommentAfter b c = false := by
  cases b with
  | true => simp [inCommentAfter, hc]
  | false =>
    rw [inCommentAfter, if_neg (by simp), beq_eq_false_iff_ne]
    rintro rfl
    cases hc

theorem inCommentAfter_of_not_lineBreak (hc : isLineBreak c = false) :
    inCommentAfter true c = true := by
  simp [inCommentAfter, hc]

theorem inCommentAfter_of_ignored (hc : isIgnored c = true) : inCommentAfter false c = false := by
  rw [inCommentAfter, if_neg (by simp), beq_eq_false_iff_ne]
  rintro rfl
  exact absurd hc (by decide)

end

/-! ### Ignored text -/

namespace Skips

variable {b b' b'' : Bool} {as bs : List Char}

theorem append (h : Skips b as b') (h' : Skips b' bs b'') : Skips b (as ++ bs) b'' := by
  induction h with
  | nil => exact h'
  | cons hc _ ih => exact .cons hc (ih h')

/-- A line break ends a comment, if there is one. -/
theorem lineBreak {c : Char} (hc : isLineBreak c = true) (h : Skips false as b') :
    Skips b (c :: as) b' := by
  refine .cons (.inr (.inr (by simp [isIgnored, hc]))) ?_
  rwa [inCommentAfter_of_lineBreak hc]

/-- The text of a comment stays inside it. -/
theorem body (h : ∀ c ∈ as, isLineBreak c = false) : Skips true as true := by
  induction as with
  | nil => exact .nil
  | cons c as ih =>
    obtain ⟨hc, has⟩ := List.forall_mem_cons.1 h
    refine .cons (.inl rfl) ?_
    rw [inCommentAfter_of_not_lineBreak hc]
    exact ih has

/-- What is skipped is split off, and leaves the rest of the text as it is. -/
theorem splitIgnored_append (h : Skips b as b') (text : List Char) :
    splitIgnored b (as ++ text) = (as ++ (splitIgnored b' text).1, (splitIgnored b' text).2) := by
  induction h with
  | nil => rfl
  | cons hc _ ih => rw [List.cons_append, splitIgnored_cons_of_skipped hc, ih, List.cons_append]

end Skips

/-- What is split off a text is skipped. -/
theorem skips_of_splitIgnored {b : Bool} {cs gap text : List Char}
    (h : splitIgnored b cs = (gap, text)) :
    ∃ b', Skips b gap b' ∧ splitIgnored b' text = ([], text) := by
  induction cs generalizing b gap with
  | nil =>
    cases h
    exact ⟨b, .nil, rfl⟩
  | cons c cs ih =>
    by_cases hc : IsSkipped b c
    · rw [splitIgnored_cons_of_skipped hc] at h
      cases h
      obtain ⟨b', hskips, htext⟩ := ih rfl
      exact ⟨b', .cons hc hskips, htext⟩
    · have hsplit := splitIgnored_cons_of_not_skipped hc cs
      rw [hsplit] at h
      cases h
      exact ⟨b, .nil, hsplit⟩

namespace IsIgnoredText

variable {w : List Char}

theorem skips (h : IsIgnoredText w) : Skips false w false := by
  induction h with
  | nil => exact .nil
  | ignored hc _ ih =>
    refine .cons (.inr (.inr hc)) ?_
    rwa [inCommentAfter_of_ignored hc]
  | comment hbody hc _ ih =>
    exact .cons (.inr (.inl rfl)) ((Skips.body hbody).append (.lineBreak hc ih))

/-- Inside a comment, the first line break of complete ignored text ends it. -/
theorem skips_true (h : IsIgnoredText w) : ∃ b, Skips true w b := by
  induction h with
  | nil => exact ⟨true, .nil⟩
  | @ignored c _ _ h ih =>
    cases hbreak : isLineBreak c with
    | true => exact ⟨false, .lineBreak hbreak h.skips⟩
    | false =>
      obtain ⟨b, ih⟩ := ih
      refine ⟨b, .cons (.inl rfl) ?_⟩
      rwa [inCommentAfter_of_not_lineBreak hbreak]
  | comment hbody hc h _ =>
    have hrest := (Skips.body hbody).append (.lineBreak hc h.skips)
    exact ⟨false, .cons (.inl rfl) hrest⟩

end IsIgnoredText

/-! ### Texts with ignored text in front -/

section

variable {b : Bool} {gap text w : List Char}

/-- What is split off does not depend on what follows the next character. -/
theorem splitIgnored_replace (hs : splitIgnored b (gap ++ text) = (gap, text)) (hne : text ≠ [])
    {text' : List Char} (hhead : text'.head? = text.head?) :
    splitIgnored b (gap ++ text') = (gap, text') := by
  obtain ⟨b', hskips, htext⟩ := skips_of_splitIgnored hs
  obtain ⟨c, cs, rfl⟩ := List.exists_cons_of_ne_nil hne
  obtain ⟨cs', rfl⟩ := List.head?_eq_some_iff.1 hhead
  have hc := not_skipped_of_splitIgnored htext
  rw [hskips.splitIgnored_append, splitIgnored_cons_of_not_skipped hc, List.append_nil]

/-- Where something follows the ignored text, more text follows that. -/
theorem splitIgnored_append_right {cs : List Char} (h : (splitIgnored b cs).2 ≠ [])
    (more : List Char) : (splitIgnored b (cs ++ more)).2 = (splitIgnored b cs).2 ++ more := by
  obtain ⟨gap, text, hs⟩ : ∃ gap text, splitIgnored b cs = (gap, text) := ⟨_, _, rfl⟩
  obtain rfl : gap ++ text = cs := by
    have happend := splitIgnored_append b cs
    rwa [hs] at happend
  rw [hs] at h ⊢
  have hhead : (text ++ more).head? = text.head? := by
    obtain ⟨c, cs, rfl⟩ := List.exists_cons_of_ne_nil h
    rfl
  rw [List.append_assoc, splitIgnored_replace hs h hhead]

theorem splitIgnored_front (hw : IsIgnoredText w) (text : List Char) :
    (splitIgnored false (w ++ text)).2 = (splitIgnored false text).2 := by
  rw [hw.skips.splitIgnored_append]

/-- More ignored text behind the ignored text in front of a text means nothing. -/
theorem splitIgnored_insert (hs : splitIgnored b (gap ++ text) = (gap, text))
    (hw : IsIgnoredText w) : (splitIgnored b (gap ++ (w ++ text))).2 = text := by
  obtain ⟨b', hskips, htext⟩ := skips_of_splitIgnored hs
  rw [hskips.splitIgnored_append]
  cases b' with
  | false => rw [splitIgnored_front hw, htext]
  | true =>
    -- Only at the end can there be an open comment.
    cases text with
    | cons c cs => exact absurd (.inl rfl) (not_skipped_of_splitIgnored htext)
    | nil =>
      obtain ⟨b, hb⟩ := hw.skips_true
      rw [hb.splitIgnored_append]
      rfl

/-- Text that is all ignored means nothing in front of a line break. -/
theorem splitIgnored_lineBreak {cs : List Char} (hs : (splitIgnored b cs).2 = []) {c : Char}
    (hc : isLineBreak c = true) (text : List Char) :
    (splitIgnored b (cs ++ c :: text)).2 = (splitIgnored false text).2 := by
  have hall : splitIgnored b cs = (cs, []) := by
    have happend := splitIgnored_append b cs
    rw [hs, List.append_nil] at happend
    rw [← hs]
    exact Prod.ext happend rfl
  obtain ⟨b', hskips, _⟩ := skips_of_splitIgnored hall
  have hbreak : Skips b' [c] false := .lineBreak hc .nil
  rw [← List.singleton_append, ← List.append_assoc, (hskips.append hbreak).splitIgnored_append]

end

end GraphQL
