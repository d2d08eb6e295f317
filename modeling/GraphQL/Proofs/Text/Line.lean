/-
Lines and positions.

The lines of a text are found by splitting it, the line of a position by
counting.  Both agree:

* `SameLine`, `CutsBreak` — text without line breaks, and cuts between the CR and
  the LF of one break;
* `lines_append_lineFeed` — an LF ends the last line of the text in front of it;
* `lines_behind` — behind a text that is not cut so, the lines go on with the one
  that its last line opens;
* `line_behind` — so the line on which a position stands is where the line breaks
  in front of it say, and what stands on it from there on is what follows the
  position up to the next line break.

Design notes: `lines` consumes CR LF as one break, so the lines of a text and of
its front have nothing to do with each other if the cut falls in between.
-/
import GraphQL.Proofs.Text.Position

namespace GraphQL

/-! ### Texts on one line -/

/-- No line ends inside a text. -/
def SameLine (text : List Char) : Prop := ∀ c ∈ text, isLineBreak c = false

theorem SameLine.append {as bs : List Char} (ha : SameLine as) (hb : SameLine bs) :
    SameLine (as ++ bs) := List.forall_mem_append.2 ⟨ha, hb⟩

theorem sameLine_nil : SameLine [] := fun _ h => absurd h List.not_mem_nil

theorem sameLine_singleton {c : Char} : SameLine [c] ↔ isLineBreak c = false :=
  List.forall_mem_singleton

theorem sameLine_cons {c : Char} {cs : List Char} :
    SameLine (c :: cs) ↔ isLineBreak c = false ∧ SameLine cs := List.forall_mem_cons

/-- What stands on a line from a place on. -/
def lineRest (cs : List Char) : List Char := cs.takeWhile (!isLineBreak ·)

theorem sameLine_lineRest (cs : List Char) : SameLine (lineRest cs) := by
  intro c hc
  simpa using List.all_eq_true.1 List.all_takeWhile c hc

theorem lineRest_of_sameLine {text : List Char} (h : SameLine text) (rest : List Char) :
    lineRest (text ++ rest) = text ++ lineRest rest :=
  List.takeWhile_append_of_pos fun c hc => by simp [h c hc]

/-- A text that does not stay on its line ends it. -/
theorem lineRest_of_not_sameLine {text : List Char} (h : ¬SameLine text) (rest : List Char) :
    lineRest (text ++ rest) = lineRest text := by
  have hlt : (text.takeWhile (!isLineBreak ·)).length ≠ text.length := by
    intro hlength
    have hall := (List.takeWhile_prefix (l := text) (!isLineBreak ·)).eq_of_length hlength
    have hsame := sameLine_lineRest text
    rw [lineRest, hall] at hsame
    exact h hsame
  rw [lineRest, List.takeWhile_append, if_neg hlt, lineRest]

theorem lastLine_append_of_sameLine {text : List Char} (h : SameLine text) (before : List Char) :
    lastLine (before ++ text) = lastLine before ++ text := by
  have hreverse : ∀ c ∈ text.reverse, (!isLineBreak c) = true := by
    intro c hc
    simp [h c (List.mem_reverse.1 hc)]
  rw [lastLine, List.reverse_append, List.takeWhile_append_of_pos hreverse, List.reverse_append,
    List.reverse_reverse, lastLine]

theorem lineBreaks_eq_zero_iff {text : List Char} : lineBreaks text = 0 ↔ SameLine text := by
  induction text with
  | nil => exact iff_of_true rfl sameLine_nil
  | cons c cs ih =>
    rw [lineBreaks, sameLine_cons, ← ih, isLineBreak_eq_false_iff]
    by_cases hn : c = '\n'
    · simp [hn]
    · by_cases hr : c = '\r'
      · -- The line ends at the CR, or at the LF that follows it.
        cases cs with
        | nil => simp [hr]
        | cons d cs =>
          by_cases hd : d = '\n'
          · simp [hr, hd, lineBreaks]
          · simp [hr, hd]
      · simp [hn, hr]

/-! ### Cuts -/

/-- A text is cut inside of a line break, between CR and LF. -/
def CutsBreak (before rest : List Char) : Prop :=
  before.getLast? = some '\r' ∧ rest.head? = some '\n'

theorem not_cutsBreak_nil (before : List Char) : ¬CutsBreak before [] := nofun

theorem not_cutsBreak_cons {c : Char} (hc : c ≠ '\n') (before cs : List Char) :
    ¬CutsBreak before (c :: cs) := fun h => hc (Option.some.inj h.2)

theorem not_cutsBreak_left {before text rest : List Char} (h : ¬CutsBreak before (text ++ rest)) :
    ¬CutsBreak before text := by
  rintro ⟨hlast, hhead⟩
  exact h ⟨hlast, by rw [List.head?_append, hhead]; rfl⟩

/-- A cut that moves along a line does not come inside of a line break. -/
theorem not_cutsBreak_append {before text rest : List Char} (h : ¬CutsBreak before (text ++ rest))
    (ht : SameLine text) : ¬CutsBreak (before ++ text) rest := by
  cases hlast : text.getLast? with
  | none =>
    obtain rfl := List.getLast?_eq_none_iff.1 hlast
    rwa [List.append_nil]
  | some c =>
    rintro ⟨hr, -⟩
    rw [List.getLast?_append, hlast, Option.some_or] at hr
    exact (isLineBreak_eq_false_iff.1 (ht c (List.mem_of_getLast? hlast))).2 (Option.some.inj hr)

theorem not_cutsBreak_of_sameLine {text : List Char} (h : SameLine text) (front : List Char) :
    ¬CutsBreak front text := by
  rintro ⟨-, hhead⟩
  have hbreak := h '\n' (List.mem_of_mem_head? hhead)
  cases hbreak

/-- No CR is at the end of a text that ends on its last line. -/
theorem SameLine.getLast?_append_ne {text front : List Char} (h : SameLine text)
    (hfront : front.getLast? ≠ some '\r') : (front ++ text).getLast? ≠ some '\r' := by
  rw [List.getLast?_append]
  cases hlast : text.getLast? with
  | none => exact hfront
  | some c =>
    rintro ⟨⟩
    have hbreak := h '\r' (List.mem_of_getLast? hlast)
    cases hbreak

theorem lineBreaks_append {as bs : List Char} (h : ¬CutsBreak as bs) :
    lineBreaks (as ++ bs) = lineBreaks as + lineBreaks bs := by
  induction as with
  | nil => simp [lineBreaks]
  | cons c cs ih =>
    have hhead : (c = '\r' ∧ (cs ++ bs).head? ≠ some '\n') ↔ (c = '\r' ∧ cs.head? ≠ some '\n') := by
      cases cs with
      | nil =>
        refine and_congr_right fun hc => ?_
        have hb : bs.head? ≠ some '\n' := fun hb => h ⟨by simp [hc], hb⟩
        simp [hb]
      | cons d cs => simp
    have hcut : ¬CutsBreak cs bs := by
      rintro ⟨hlast, hb⟩
      exact h ⟨by rw [List.getLast?_cons, hlast]; rfl, hb⟩
    rw [List.cons_append, lineBreaks, lineBreaks, ih hcut]
    simp only [hhead]
    split <;> omega

/-! ### Lines -/

theorem lines_cons_of_not_break {c : Char} (hc : isLineBreak c = false) (cs : List Char) :
    lines (c :: cs) = (lines cs).modifyHead (c :: ·) := by
  cases cs with
  | nil => simp [lines, hc]
  | cons d cs =>
    have hr := (isLineBreak_eq_false_iff.1 hc).2
    obtain ⟨l, ls, hls⟩ := List.exists_cons_of_ne_nil (lines_ne_nil (d :: cs))
    rw [lines, if_neg (by simp [hr]), if_neg (by simp [hc]), hls]
    rfl

theorem lines_cons_of_break {c : Char} {cs : List Char} (hc : isLineBreak c = true)
    (h : ¬CutsBreak [c] cs) : lines (c :: cs) = [] :: lines cs := by
  cases cs with
  | nil => simp [lines, hc]
  | cons d cs =>
    have hpair : ¬(c = '\r' ∧ d = '\n') := fun hcd => h (by simpa [CutsBreak] using hcd)
    rw [lines, if_neg hpair, if_pos hc]

theorem lines_return_lineFeed (cs : List Char) : lines ('\r' :: '\n' :: cs) = [] :: lines cs := by
  rw [lines, if_pos ⟨rfl, rfl⟩]

/-- A text on one line is that line. -/
theorem lines_of_sameLine {text : List Char} (h : SameLine text) : lines text = [text] := by
  induction text with
  | nil => rfl
  | cons c text ih =>
    obtain ⟨hc, htext⟩ := sameLine_cons.1 h
    rw [lines_cons_of_not_break hc, ih htext]
    rfl

/-- An LF ends the last line of the text in front of it, unless it is the second
half of a break. -/
theorem lines_append_lineFeed {text : List Char} (h : text.getLast? ≠ some '\r')
    (rest : List Char) : lines (text ++ '\n' :: rest) = lines text ++ lines rest := by
  induction hn : text.length using Nat.strongRecOn generalizing text with
  | _ n ih =>
    cases text with
    | nil => exact lines_cons_of_break rfl (fun hcut => by cases hcut.1)
    | cons c cs =>
      have hlt : cs.length < n := hn ▸ Nat.lt_succ_self _
      have hcs : cs.getLast? ≠ some '\r' := by
        intro hcs
        exact h (by rw [List.getLast?_cons, hcs]; rfl)
      rw [List.cons_append]
      cases hc : isLineBreak c with
      | false =>
        obtain ⟨l, ls, hls⟩ := List.exists_cons_of_ne_nil (lines_ne_nil cs)
        rw [lines_cons_of_not_break hc, lines_cons_of_not_break hc, ih _ hlt hcs rfl, hls]
        rfl
      | true =>
        by_cases hcut : CutsBreak [c] cs
        · -- Both of CR LF stand in the text.
          obtain rfl : c = '\r' := Option.some.inj hcut.1
          obtain ⟨ds, rfl⟩ := List.head?_eq_some_iff.1 hcut.2
          have hds : ds.getLast? ≠ some '\r' := by
            intro hds
            exact hcs (by rw [List.getLast?_cons, hds]; rfl)
          rw [List.cons_append, lines_return_lineFeed, lines_return_lineFeed,
            ih ds.length (Nat.lt_of_succ_lt hlt) hds rfl]
          rfl
        · have hcut' : ¬CutsBreak [c] (cs ++ '\n' :: rest) := by
            rintro ⟨hr, hhead⟩
            obtain rfl : c = '\r' := Option.some.inj hr
            cases cs with
            | nil => exact h rfl
            | cons d cs => exact hcut ⟨rfl, hhead⟩
          rw [lines_cons_of_break hc hcut', lines_cons_of_break hc hcut, ih _ hlt hcs rfl]
          rfl

/-- Behind a text that is not cut inside of a line break, the lines go on with the
one that its last line opens. -/
theorem lines_behind {before rest : List Char} (h : ¬CutsBreak before rest) :
    (lines (before ++ rest)).drop (lineBreaks before) =
      (lines rest).modifyHead (lastLine before ++ ·) := by
  induction hn : before.length using Nat.strongRecOn generalizing before rest with
  | _ n ih =>
    cases hlast : before.getLast? with
    | none =>
      obtain rfl := List.getLast?_eq_none_iff.1 hlast
      obtain ⟨l, ls, hls⟩ := List.exists_cons_of_ne_nil (lines_ne_nil rest)
      simp [lineBreaks, lastLine, hls]
    | some c =>
      obtain ⟨init, rfl⟩ := List.getLast?_eq_some_iff.1 hlast
      have hlength : init.length < n := by
        rw [← hn, List.length_append, List.length_singleton]
        omega
      rw [List.append_assoc, List.singleton_append, lineBreaks_concat, lastLine_concat]
      cases hc : isLineBreak c with
      | false =>
        obtain ⟨hnl, hr⟩ := isLineBreak_eq_false_iff.1 hc
        rw [if_neg (by simp [hnl, hr]), ih _ hlength (not_cutsBreak_cons hnl init rest) rfl,
          lines_cons_of_not_break hc, List.modifyHead_modifyHead]
        congr 1
        funext l
        simp
      | true =>
        have hid : (lines rest).modifyHead ([] ++ ·) = lines rest := by
          cases lines rest <;> rfl
        rw [if_pos rfl, hid]
        by_cases hcut : CutsBreak init (c :: rest)
        · -- The break has started with the CR in front of this LF.
          obtain ⟨front, rfl⟩ := List.getLast?_eq_some_iff.1 hcut.1
          obtain rfl : c = '\n' := Option.some.inj hcut.2
          have hfront : ¬CutsBreak front ('\r' :: '\n' :: rest) :=
            not_cutsBreak_cons (by decide) front _
          have hlength' : front.length < n := by
            rw [List.length_append, List.length_singleton] at hlength
            omega
          rw [if_neg (by simp), lineBreaks_concat, if_pos (.inl rfl), ← List.drop_drop,
            List.append_assoc, List.singleton_append, ih _ hlength' hfront rfl,
            lines_return_lineFeed]
          rfl
        · have hone : c = '\r' ∨ c = '\n' ∧ init.getLast? ≠ some '\r' := by
            by_cases hr : c = '\r'
            · exact .inl hr
            · have hnl : c = '\n' := by simpa [isLineBreak, hr] using hc
              exact .inr ⟨hnl, fun hinit => hcut ⟨hinit, congrArg some hnl⟩⟩
          have hnext : ¬CutsBreak [c] rest := fun hnext => h ⟨by simpa using hnext.1, hnext.2⟩
          rw [if_pos hone, ← List.drop_drop, ih _ hlength hcut rfl,
            lines_cons_of_break hc hnext]
          rfl

/-- The first line of a text is what stands in front of its first break. -/
theorem head?_lines (cs : List Char) : (lines cs).head? = some (lineRest cs) := by
  induction cs with
  | nil => rfl
  | cons c cs ih =>
    cases hc : isLineBreak c with
    | false =>
      rw [lines_cons_of_not_break hc, List.head?_modifyHead, ih, lineRest, lineRest,
        List.takeWhile_cons_of_pos (by simp [hc])]
      rfl
    | true =>
      rw [lineRest, List.takeWhile_cons_of_neg (by simp [hc])]
      by_cases hcut : CutsBreak [c] cs
      · obtain rfl : c = '\r' := Option.some.inj hcut.1
        obtain ⟨rest, rfl⟩ := List.head?_eq_some_iff.1 hcut.2
        rw [lines_return_lineFeed]
        rfl
      · rw [lines_cons_of_break hc hcut]
        rfl

/-- The line of a position is where the line breaks in front of it say, and is
made of the last line of what stands in front and of what follows up to the next
line break. -/
theorem line_behind {before rest : List Char} (h : ¬CutsBreak before rest) :
    (lines (before ++ rest))[(Position.behind before).line]? =
      some (lastLine before ++ lineRest rest) := by
  have hdrop := congrArg List.head? (lines_behind h)
  rw [List.head?_drop, List.head?_modifyHead, head?_lines] at hdrop
  exact hdrop

end GraphQL
