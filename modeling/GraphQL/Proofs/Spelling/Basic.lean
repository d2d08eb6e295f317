/-
Spellings in a source text.

The grammar lets a lexeme carry any value, but a source text does not: there a
part has at most one spelling, the one that its layout writes.

* `Spells` — a part has one spelling exactly if it is well-formed;
* `Spells.then`, `Spells.many`, `Spells.maybe`, … — how the spelling of a part
  is made up of those of the parts inside it;
* `lexemesOf_commaSeparated` and its like — the lexemes in shared shapes of
  layout.

Design notes: an operation without keyword is the one part that has a second
spelling, so it is left to the definitions.
-/
import GraphQL.Proofs.Document.WellFormed
import GraphQL.Proofs.Grammar.Derivation
import GraphQL.Proofs.Layout.Loose

namespace GraphQL

/-! ### Lexemes of a layout -/

section

variable (as bs : List Piece)

@[simp] theorem lexemesOf_nil : lexemesOf [] = [] := rfl

@[simp] theorem lexemesOf_append : lexemesOf (as ++ bs) = lexemesOf as ++ lexemesOf bs :=
  List.filterMap_append

@[simp] theorem lexemesOf_lexeme (x : Lexeme) : lexemesOf (.lexeme x :: as) = x :: lexemesOf as :=
  rfl

@[simp] theorem lexemesOf_punctuator (p : Punctuator) :
    lexemesOf (.punctuator p :: as) = .ofPunctuator p :: lexemesOf as := rfl

@[simp] theorem lexemesOf_word (text : String) :
    lexemesOf (.word text :: as) = .ofName text :: lexemesOf as := rfl

@[simp] theorem lexemesOf_comma : lexemesOf (.comma :: as) = lexemesOf as := rfl

@[simp] theorem lexemesOf_space : lexemesOf (.space :: as) = lexemesOf as := rfl

@[simp] theorem lexemesOf_newLine (depth : Nat) : lexemesOf (.newLine depth :: as) = lexemesOf as :=
  rfl

@[simp] theorem lexemesOf_lineFeed : lexemesOf (.lineFeed :: as) = lexemesOf as := rfl

end

theorem lexemesOf_flatMap {α : Type} (f : α → List Piece) (xs : List α) :
    lexemesOf (xs.flatMap f) = xs.flatMap fun x => lexemesOf (f x) := by
  induction xs with
  | nil => rfl
  | cons x xs ih => simp [ih]

namespace Layout

variable {α : Type} (xs : List (List Piece))

/-- A separator without lexemes leaves no trace. -/
theorem lexemesOf_joined {separator : List Piece} (h : lexemesOf separator = []) :
    lexemesOf (joined separator xs) = xs.flatMap lexemesOf := by
  fun_induction joined separator xs with
  | case1 => rfl
  | case2 x => simp
  | case3 x y rest ih => simp [h, ih]

theorem lexemesOf_commaSeparated (f : α → List Piece) (as : List α) :
    lexemesOf (commaSeparated (as.map f)) = as.flatMap fun a => lexemesOf (f a) := by
  rw [commaSeparated, lexemesOf_joined _ rfl, List.flatMap_map]

theorem lexemesOf_parenthesized (f : α → List Piece) {as : List α} (h : as ≠ []) :
    lexemesOf (parenthesized (as.map f)) = .ofPunctuator .parenOpen
      :: ((as.flatMap fun a => lexemesOf (f a)) ++ [.ofPunctuator .parenClose]) := by
  rw [parenthesized, if_neg (by simpa using h)]
  simp [lexemesOf_commaSeparated]

theorem lexemesOf_block (depth : Nat) (f : α → List Piece) {as : List α} (h : as ≠ []) :
    lexemesOf (block depth (as.map f)) = .ofPunctuator .braceOpen
      :: ((as.flatMap fun a => lexemesOf (f a)) ++ [.ofPunctuator .braceClose]) := by
  rw [block, if_neg (by simpa using h)]
  simp [lexemesOf_flatMap, List.flatMap_map]

@[simp] theorem lexemesOf_spacedBlock (depth : Nat) :
    lexemesOf (spacedBlock depth xs) = lexemesOf (block depth xs) := by
  rw [spacedBlock, block]
  split <;> rfl

end Layout

/-! ### Spellings -/

/-- The lexemes can stand in a source text. -/
def Spelled (w : List Lexeme) : Prop := ∀ x ∈ w, x.Spellable

theorem spelled_append {v w : List Lexeme} : Spelled (v ++ w) ↔ Spelled v ∧ Spelled w :=
  List.forall_mem_append

theorem spelled_singleton {x : Lexeme} : Spelled [x] ↔ x.Spellable := by
  simp [Spelled]

namespace Lexeme.Spellable

variable {x : Lexeme}

theorem eq_ofPunctuator {p : Punctuator} (h : x.Spellable) (hx : x.kind = .punctuator p) :
    x = .ofPunctuator p := by
  cases h <;> cases hx
  rfl

/-- A lexeme with a value is given by its kind and its text. -/
theorem eq_of_hasValue (h : x.Spellable) (hx : x.kind.hasValue = true) :
    x = ⟨x.kind, some x.text⟩ := by
  cases h with
  | punctuator p => cases hx
  | _ => rfl

theorem ofName_iff {text : String} : (Lexeme.ofName text).Spellable ↔ IsName text :=
  ⟨fun h => by cases h; assumption, .name⟩

theorem int_iff {text : String} : Lexeme.Spellable ⟨.int, some text⟩ ↔ IsInteger text :=
  ⟨fun h => by cases h; assumption, .int⟩

theorem float_iff {text : String} : Lexeme.Spellable ⟨.float, some text⟩ ↔ IsFloat text :=
  ⟨fun h => by cases h; assumption, .float⟩

/-- A keyword is the name with its text. -/
theorem isKeyword_iff_eq {k : Keyword} (h : x.Spellable) :
    x.isKeyword k = true ↔ x = .ofName k.text := by
  constructor
  · intro hx
    obtain ⟨hkind, hvalue⟩ := Lexeme.isKeyword_iff.1 hx
    have hname := h.eq_of_hasValue (hkind ▸ rfl)
    rw [hname] at hvalue
    rw [hname, hkind, Keyword.ofText?_eq_some_iff.1 hvalue]
    rfl
  · rintro rfl
    exact Lexeme.isKeyword_iff.2 ⟨rfl, Keyword.ofText?_text k⟩

end Lexeme.Spellable

theorem Keyword.isName_text (k : Keyword) : IsName k.text := by
  cases k <;> decide

/-- Of the words that a part derives, a source text can only hold the given
one, and that exactly if the part is well-formed. -/
def Spells (derives : List Lexeme → Prop) (wellFormed : Prop) (u : List Lexeme) : Prop :=
  ∀ w, (derives w ∧ Spelled w) ↔ (wellFormed ∧ w = u)

/-- A word of one kind in front of one of another. -/
inductive Then (first second : List Lexeme → Prop) : List Lexeme → Prop
  | intro {v w : List Lexeme} (hv : first v) (hw : second w) : Then first second (v ++ w)

namespace Spells

variable {P Q : List Lexeme → Prop} {C D : Prop} {u v : List Lexeme}

/-- The same words, conditions and spelling in other forms. -/
theorem congr (h : Spells P C u) (hP : ∀ w, Q w ↔ P w) (hC : D ↔ C) (hu : u = v) :
    Spells Q D v := by
  intro w
  rw [hP, hC, ← hu]
  exact h w

theorem spelledAs (h : Spells P C u) (hu : u = v) : Spells P C v := hu ▸ h

/-- One lexeme that has to satisfy a condition. -/
theorem single {x : Lexeme} (h : ∀ w, P w → Spelled w → C ∧ w = [x])
    (hx : C → P [x] ∧ x.Spellable) : Spells P C [x] := by
  refine fun w => ⟨fun ⟨hP, hw⟩ => h w hP hw, ?_⟩
  rintro ⟨hC, rfl⟩
  exact ⟨(hx hC).1, spelled_singleton.2 (hx hC).2⟩

/-- A part that stands in some places only. -/
theorem onlyIf (B : Prop) (h : Spells P C u) : Spells (fun w => B ∧ P w) (B ∧ C) u := by
  intro w
  rw [and_assoc, and_assoc, h w]

theorem «then» (hP : Spells P C u) (hQ : Spells Q D v) : Spells (Then P Q) (C ∧ D) (u ++ v) := by
  intro w
  constructor
  · rintro ⟨⟨hv, hw⟩, hs⟩
    obtain ⟨hsv, hsw⟩ := spelled_append.1 hs
    obtain ⟨hC, rfl⟩ := (hP _).1 ⟨hv, hsv⟩
    obtain ⟨hD, rfl⟩ := (hQ _).1 ⟨hw, hsw⟩
    exact ⟨⟨hC, hD⟩, rfl⟩
  · rintro ⟨⟨hC, hD⟩, rfl⟩
    obtain ⟨hu, hsu⟩ := (hP u).2 ⟨hC, rfl⟩
    obtain ⟨hv, hsv⟩ := (hQ v).2 ⟨hD, rfl⟩
    exact ⟨.intro hu hv, spelled_append.2 ⟨hsu, hsv⟩⟩

theorem symbol (p : Punctuator) : Spells (Symbol p) True [.ofPunctuator p] := by
  refine .single ?_ fun _ => ⟨.intro rfl, .punctuator p⟩
  rintro _ ⟨hx⟩ hs
  rw [(spelled_singleton.1 hs).eq_ofPunctuator hx]
  exact ⟨trivial, rfl⟩

theorem reserved (k : Keyword) : Spells (Reserved k) True [.ofName k.text] := by
  have hk : (Lexeme.ofName k.text).Spellable := .name k.isName_text
  refine .single ?_ fun _ => ⟨.intro (hk.isKeyword_iff_eq.2 rfl), hk⟩
  rintro _ ⟨hx⟩ hs
  rw [(spelled_singleton.1 hs).isKeyword_iff_eq.1 hx]
  exact ⟨trivial, rfl⟩

/-- A lexeme that is given by its text. -/
theorem terminal {k : TokenKind} (hk : k.hasValue = true) (t : String) :
    Spells (Terminal k t) (Lexeme.Spellable ⟨k, some t⟩) [⟨k, some t⟩] := by
  refine fun w => ⟨?_, ?_⟩
  · rintro ⟨⟨rfl⟩, hs⟩
    have hx := spelled_singleton.1 hs
    rw [← hx.eq_of_hasValue hk]
    exact ⟨hx, rfl⟩
  · rintro ⟨ht, rfl⟩
    exact ⟨.intro (x := ⟨k, some t⟩) rfl, spelled_singleton.2 ht⟩

/-- Any name but some keywords. -/
theorem nameBut (ks : List Keyword) {t : String}
    (hP : ∀ w, P w ↔
      ∃ x : Lexeme, w = [x] ∧ x.kind = .name ∧ x.text = t ∧ ∀ k ∈ ks, x.isKeyword k = false) :
    Spells P (IsName t ∧ ∀ k ∈ ks, t ≠ k.text) [.ofName t] := by
  have hkeyword (h : IsName t) (k : Keyword) :
      (Lexeme.ofName t).isKeyword k = false ↔ t ≠ k.text := by
    rw [← Bool.not_eq_true, (Lexeme.Spellable.name h).isKeyword_iff_eq]
    simp [Lexeme.ofName]
  refine .single (fun w hw hs => ?_) ?_
  · obtain ⟨x, rfl, hkind, rfl, hno⟩ := (hP w).1 hw
    have hx := spelled_singleton.1 hs
    have hname : x = .ofName x.text := by
      rw [hx.eq_of_hasValue (hkind ▸ rfl), hkind]
      rfl
    have ht : IsName x.text := Lexeme.Spellable.ofName_iff.1 (hname ▸ hx)
    rw [hname] at hno
    exact ⟨⟨ht, fun k hk => (hkeyword ht k).1 (hno k hk)⟩, congrArg (fun y => [y]) hname⟩
  · rintro ⟨ht, hno⟩
    exact ⟨(hP _).2 ⟨_, rfl, rfl, rfl, fun k hk => (hkeyword ht k).2 (hno k hk)⟩, .name ht⟩

theorem symbolThen (p : Punctuator) (h : Spells P C u) :
    Spells (Then (Symbol p) P) C (.ofPunctuator p :: u) :=
  ((symbol p).then h).congr (fun _ => .rfl) (true_and C).symm.to_iff rfl

theorem thenSymbol (h : Spells P C u) (p : Punctuator) :
    Spells (Then P (Symbol p)) C (u ++ [.ofPunctuator p]) :=
  (h.then (symbol p)).congr (fun _ => .rfl) (and_true C).symm.to_iff rfl

theorem reservedThen (k : Keyword) (h : Spells P C u) :
    Spells (Then (Reserved k) P) C (.ofName k.text :: u) :=
  ((reserved k).then h).congr (fun _ => .rfl) (true_and C).symm.to_iff rfl

section

variable {α : Type} {item : α → List Lexeme → Prop} {wf : α → Prop} {f : α → List Piece}

theorem many {as : List α} (h : ∀ a ∈ as, Spells (item a) (wf a) (lexemesOf (f a))) :
    Spells (Many item as) (∀ a ∈ as, wf a) (as.flatMap fun a => lexemesOf (f a)) := by
  induction as with
  | nil =>
    refine fun w => ⟨?_, ?_⟩
    · rintro ⟨⟨⟩, -⟩
      exact ⟨nofun, rfl⟩
    · rintro ⟨-, rfl⟩
      exact ⟨.nil, nofun⟩
  | cons a as ih =>
    have hcons := (h a (by simp)).then (ih fun b hb => h b (by simp [hb]))
    refine hcons.congr (fun w => ⟨?_, ?_⟩) (by simp) (by simp)
    · rintro (_ | ⟨ha, has⟩)
      exact .intro ha has
    · rintro ⟨ha, has⟩
      exact .cons ha has

theorem maybe {a? : Option α} (h : ∀ a ∈ a?, Spells (item a) (wf a) (lexemesOf (f a))) :
    Spells (Maybe item a?) (∀ a ∈ a?, wf a) (lexemesOf (a?.elim [] f)) := by
  cases a? with
  | none =>
    refine fun w => ⟨?_, ?_⟩
    · rintro ⟨⟨⟩, -⟩
      exact ⟨nofun, rfl⟩
    · rintro ⟨-, rfl⟩
      exact ⟨.none, nofun⟩
  | some a =>
    refine (h a rfl).congr (fun w => ⟨?_, .some⟩) (by simp) rfl
    rintro (_ | ha)
    exact ha

/-- At least one item between an opening and a closing punctuator. -/
theorem enclosed (o c : Punctuator) {as : List α}
    (h : ∀ a ∈ as, Spells (item a) (wf a) (lexemesOf (f a))) :
    Spells (Enclosed o item c as) (as ≠ [] ∧ ∀ a ∈ as, wf a)
      (.ofPunctuator o :: ((as.flatMap fun a => lexemesOf (f a)) ++ [.ofPunctuator c])) := by
  -- Apart from the demand that there are items, this is a sequence of three.
  have hall := symbolThen o ((many h).thenSymbol c)
  intro w
  constructor
  · rintro ⟨⟨ho, hw, hne, hc⟩, hs⟩
    obtain ⟨hwf, hu⟩ := (hall _).1 ⟨.intro ho (.intro hw hc), hs⟩
    exact ⟨⟨hne, hwf⟩, hu⟩
  · rintro ⟨⟨hne, hwf⟩, hu⟩
    obtain ⟨⟨ho, hw, hc⟩, hs⟩ := (hall w).2 ⟨hwf, hu⟩
    exact ⟨.intro ho hw hne hc, hs⟩

theorem block (depth : Nat) {as : List α}
    (h : ∀ a ∈ as, Spells (item a) (wf a) (lexemesOf (f a))) :
    Spells (Enclosed .braceOpen item .braceClose as) (as ≠ [] ∧ ∀ a ∈ as, wf a)
      (lexemesOf (Layout.block depth (as.map f))) := by
  intro w
  rw [enclosed .braceOpen .braceClose h w]
  refine and_congr_right fun ⟨hne, _⟩ => ?_
  rw [Layout.lexemesOf_block depth f hne]

theorem parenthesized {as : List α} (h : ∀ a ∈ as, Spells (item a) (wf a) (lexemesOf (f a))) :
    Spells (Parenthesized item as) (∀ a ∈ as, wf a)
      (lexemesOf (Layout.parenthesized (as.map f))) := by
  by_cases hne : as = []
  · subst hne
    refine fun w => ⟨?_, ?_⟩
    · rintro ⟨⟨⟩ | ⟨_, _, hne, _⟩, -⟩
      · exact ⟨nofun, rfl⟩
      · exact absurd rfl hne
    · rintro ⟨-, rfl⟩
      exact ⟨.none, nofun⟩
  · refine (enclosed .parenOpen .parenClose h).congr (fun w => ⟨?_, .some⟩) (by simp [hne])
      (Layout.lexemesOf_parenthesized f hne).symm
    rintro (_ | hw)
    · exact absurd rfl hne
    · exact hw

end

end Spells

end GraphQL
