/-
Documents one behind the other.

* `Lexes.append` — texts on lines of their own have the lexemes of both;
* `Document.Derives.append` — lexemes that spell two documents, one behind the
  other, spell all their definitions;
* `Document.ofSource_concat` — so two sources that can be read can be read
  together.

Design notes: a line break ends whatever the first text ends with: a word, or a
comment.  That no definition reaches into the next one is part of the grammar's
agreement with how it is read, which `Document.ofSource_eq_ok_iff` says.
-/
import GraphQL.Proofs.Grammar.Source
import GraphQL.Proofs.Lexical.Following
import GraphQL.Proofs.Lexical.Ignored

namespace GraphQL

/-- Texts on lines of their own have the lexemes of both. -/
theorem Lexes.append {cs cs' : List Char} {ws ws' : List Lexeme} (h : Lexes cs ws)
    (h' : Lexes cs' ws') : Lexes (cs ++ '\n' :: cs') (ws ++ ws') := by
  induction h with
  | stop hs =>
    have hbreak : isLineBreak '\n' = true := rfl
    exact h'.congr (splitIgnored_lineBreak hs hbreak cs')
  | @step cs r ws hne hr _ ih =>
    have hsplit := splitIgnored_append_right hne ('\n' :: cs')
    have htext := Scan.Faithful.lexeme hr
    have hends : EndsToo r.rest (r.rest ++ '\n' :: cs') := by
      have hbreak : EndsToo [] ('\n' :: cs') := .inr (stops_cons_iff.2 rfl)
      simpa using hbreak.append_left r.rest
    have hread := Scan.lexeme_followed hne hr hends
    rw [← List.append_assoc, htext] at hread
    exact .step (r := ⟨r.value, r.text, r.rest ++ '\n' :: cs'⟩) (by simp [hsplit])
      (by rw [hsplit]; exact hread) ih

theorem Many.append {α : Type} {item : α → List Lexeme → Prop} {as bs : List α}
    {w w' : List Lexeme} (h : Many item as w) (h' : Many item bs w') :
    Many item (as ++ bs) (w ++ w') := by
  induction h with
  | nil => exact h'
  | cons h _ ih =>
    rw [List.append_assoc]
    exact .cons h ih

namespace Document

theorem Derives.append {d d' : Document} {w w' : List Lexeme} (h : d.Derives w)
    (h' : d'.Derives w') : Document.Derives ⟨d.definitions ++ d'.definitions⟩ (w ++ w') := by
  obtain ⟨h, hne⟩ := h
  obtain ⟨h', _⟩ := h'
  exact .intro (h.append h') (by simp [hne])

/-- Two sources that are read as documents are read together, with a line feed
in between, as the document of all their definitions. -/
theorem ofSource_concat {options : ParseOptions} {s s' : String} {d d' : Document}
    (h : ofSource options s = .ok d) (h' : ofSource options s' = .ok d') :
    ofSource options (s ++ "\n" ++ s') = .ok ⟨d.definitions ++ d'.definitions⟩ := by
  obtain ⟨ws, hws, hd, hdepth⟩ := ofSource_eq_ok_iff.1 h
  obtain ⟨ws', hws', hd', hdepth'⟩ := ofSource_eq_ok_iff.1 h'
  have hlexes : Lexes (s ++ "\n" ++ s').toList (ws ++ ws') := by
    rw [String.toList_append, String.toList_append, List.append_assoc]
    exact hws.append hws'
  refine ofSource_eq_ok_iff.2 ⟨_, hlexes, hd.append hd', ?_⟩
  rw [depth_le_iff] at hdepth hdepth' ⊢
  exact List.forall_mem_append.2 ⟨hdepth, hdepth'⟩

/-- `union U = A`, read with a comment behind it. -/
def oneMember : Document := ⟨[.type (.union ⟨⟨"U"⟩, [⟨"A"⟩]⟩)]⟩

/-- `{a}`. -/
def oneField : Document :=
  ⟨[.operation ⟨.query, none, [], [], ⟨[.field ⟨none, ⟨"a"⟩, [], [], none⟩]⟩⟩]⟩

theorem ofSource_oneMember : ofSource ⟨1⟩ "union U = A #" = .ok oneMember := by
  refine eq_ok_of_toOption ?_
  rw [ofSource, tokenize_eq_firstItems]
  decide +kernel

theorem ofSource_oneField : ofSource ⟨1⟩ "\x7ba\x7d" = .ok oneField := by
  refine eq_ok_of_toOption ?_
  rw [ofSource, tokenize_eq_firstItems]
  decide +kernel

/-- A comment that is not ended, behind a union that could go on. -/
theorem ofSource_concat_union :
    ofSource ⟨1⟩ "union U = A #" = .ok oneMember ∧ ofSource ⟨1⟩ "\x7ba\x7d" = .ok oneField ∧
      ofSource ⟨1⟩ ("union U = A #" ++ "\n" ++ "\x7ba\x7d") =
        .ok ⟨oneMember.definitions ++ oneField.definitions⟩ :=
  ⟨ofSource_oneMember, ofSource_oneField, ofSource_concat ofSource_oneMember ofSource_oneField⟩

end Document

end GraphQL
