/-
The lines of a layout.

A layout is a sequence of lines, each opened by a break.  Most of them start with
a node of the document, and the others close a block.

* `Node.outline` — the nodes inside a node that are written on lines of their own,
  all of them by `Node.mem_outline`;
* `Row`, `Starts`, `Indented` — the lines of a layout, the nodes that start on them,
  and how deep they are indented;
* `Selection.arranges`, …, `Definition.arranges` — selections and definitions are
  written so;
* `Document.exists_rows` — and so is a document, with an empty line between
  definitions.

Design notes: a line is indented by the braces that are open in front of it, less
the one that it closes.  What `Indented` says of lines does not mention nodes, and
what a block adds is the same for all of them, so each kind of node only has to
name the heading and the members of its block.  The layout of a node on its own
stands at depth 0, and inside of another node deeper, so it is the lexemes that
`Starts` compares.
-/
import GraphQL.Proofs.Document.Nodes
import GraphQL.Proofs.Layout.Inline

namespace GraphQL

open Piece Layout

/-! ### Nodes on lines of their own -/

namespace Node

/-- Whether a node that is directly inside another one starts a line: definitions,
selections, fields of types and of input objects, and values of enums do. -/
def startsLine : Node → Node → Bool
  | document _, _ | selectionSet _, _ => true
  | objectType _, fieldDefinition _ | interfaceType _, fieldDefinition _ => true
  | enumType _, enumValueDefinition _ | inputObjectType _, inputValueDefinition _ => true
  | _, _ => false

/-- The nodes inside a node that start lines, in the order of the text. -/
def outline (n : Node) : List Node :=
  n.children.attach.flatMap fun ⟨c, _⟩ => if n.startsLine c then c :: c.outline else c.outline
termination_by sizeOf n
decreasing_by all_goals exact sizeOf_lt_of_mem_children ‹_›

theorem outline_eq (n : Node) :
    n.outline = n.children.flatMap fun c => if n.startsLine c then c :: c.outline else c.outline := by
  rw [outline]
  simp

/-- The outline has all nodes inside that start lines. -/
theorem mem_outline {root n c : Node} (hn : n ∈ root.entered) (hc : c ∈ n.children)
    (hs : n.startsLine c = true) : c ∈ root.outline := by
  induction hsize : sizeOf root using Nat.strongRecOn generalizing root with
  | _ k ih =>
    rw [entered_eq, List.mem_cons, List.mem_flatMap] at hn
    rw [outline_eq, List.mem_flatMap]
    rcases hn with rfl | ⟨m, hm, hn⟩
    · exact ⟨c, hc, by rw [if_pos hs]; exact List.mem_cons_self⟩
    · have hmem := ih _ (hsize ▸ sizeOf_lt_of_mem_children hm) hn rfl
      refine ⟨m, hm, ?_⟩
      split
      · exact List.mem_cons_of_mem m hmem
      · exact hmem

/-- Nodes that are written on one line, with all that is inside. -/
def isPlain : Node → Bool
  | name _ | var _ | value _ | objectField _ | typeRef _ | argument _ | directive _ => true
  | fragmentSpread _ | variableDefinition _ | inputValueDefinition _ | fieldDefinition _ => true
  | enumValueDefinition _ | scalarType _ | unionType _ => true
  | _ => false

theorem isPlain_children {n : Node} (h : n.isPlain = true) :
    ∀ c ∈ n.children, c.isPlain = true ∧ n.startsLine c = false := by
  cases n with
  | value v => cases v <;> simp [children, ofValueParts, isPlain, startsLine]
  | typeRef t => cases t <;> simp [children, ofTypeParts, isPlain, startsLine]
  | variableDefinition d | inputValueDefinition d =>
    cases h : d.default? <;> simp [children, isPlain, startsLine, h]
  | _ => first | cases h; done | simp [children, isPlain, startsLine, or_imp, forall_and]

theorem outline_eq_nil {n : Node} (h : n.isPlain = true) : n.outline = [] := by
  induction hs : sizeOf n using Nat.strongRecOn generalizing n with
  | _ s ih =>
    rw [outline_eq, List.flatMap_eq_nil_iff]
    intro c hc
    obtain ⟨hplain, hstarts⟩ := isPlain_children h c hc
    rw [hstarts]
    exact ih _ (hs ▸ sizeOf_lt_of_mem_children hc) hplain rfl

end Node

/-! ### Lines -/

/-- How deep the line is indented that a break opens. -/
def Piece.depth : Piece → Nat
  | newLine depth => depth
  | lexeme _ | comma | space | lineFeed => 0

/-- One line of a layout. -/
structure Row where
  /-- The break in front of the line. -/
  opening : Piece
  pieces : List Piece
  /-- The node that starts on the line, if it does not just close a block. -/
  node? : Option Node

namespace Row

/-- A line and the break in front of it. -/
def layout (r : Row) : List Piece := r.opening :: r.pieces

/-- Behind its break a line has no other one, and it is empty or starts and ends
with a lexeme. -/
structure Plain (r : Row) : Prop where
  breaks : r.opening.isFlat = false
  flat : ∀ p ∈ r.pieces, p.isFlat = true
  first : ∀ p ∈ r.pieces.head?, ∃ x, p = .lexeme x
  last : ∀ p ∈ r.pieces.getLast?, ∃ x, p = .lexeme x

end Row

/-- The lexemes on some lines. -/
def rowLexemes (rows : List Row) : List Lexeme := rows.flatMap fun r => lexemesOf r.pieces

theorem rowLexemes_cons (r : Row) (rows : List Row) :
    rowLexemes (r :: rows) = lexemesOf r.pieces ++ rowLexemes rows := List.flatMap_cons

theorem rowLexemes_append (rows rows' : List Row) :
    rowLexemes (rows ++ rows') = rowLexemes rows ++ rowLexemes rows' := List.flatMap_append

/-- Breaks have no lexemes. -/
theorem lexemesOf_rows {rows : List Row} (h : ∀ r ∈ rows, r.Plain) :
    lexemesOf (rows.flatMap Row.layout) = rowLexemes rows := by
  rw [lexemesOf_flatMap, rowLexemes, List.flatMap_def, List.flatMap_def]
  refine congrArg List.flatten (List.map_congr_left fun r hr => ?_)
  have hbreaks := (h r hr).breaks
  rw [Row.layout]
  cases hopening : r.opening with
  | newLine _ | lineFeed => rfl
  | _ =>
    rw [hopening] at hbreaks
    cases hbreaks

/-- A node that starts on a line starts with the first lexeme of that line, and
goes on on the lines below. -/
inductive Starts : List Row → Prop
  | nil : Starts []
  | cons {r : Row} {rows : List Row}
    (hr : ∀ n ∈ r.node?, r.pieces ≠ [] ∧ lexemesOf n.layout <+: rowLexemes (r :: rows))
    (h : Starts rows) : Starts (r :: rows)

theorem Starts.append {rows rows' : List Row} (h : Starts rows) (h' : Starts rows') :
    Starts (rows ++ rows') := by
  induction h with
  | nil => exact h'
  | @cons r rows hr _ ih =>
    have hmore : rowLexemes (r :: rows) <+: rowLexemes (r :: rows ++ rows') := by
      rw [rowLexemes_append]
      exact List.prefix_append _ _
    exact .cons (fun n hn => ⟨(hr n hn).1, (hr n hn).2.trans hmore⟩) ih

/-- How deep a line is indented that starts with a lexeme while some braces are
open. -/
def indentation (braces : Int) (x : Lexeme) : Int :=
  if x = .ofPunctuator .braceClose then braces - 1 else braces

/-- Lines are indented by the braces that are open in front of them: `b` braces in
front of the first line, and `b'` behind the last one. -/
inductive Indented : Int → List Row → Int → Prop
  | nil (b : Int) : Indented b [] b
  | cons {b b' : Int} {r : Row} {rows : List Row}
    (hr : ∀ x, r.pieces.head? = some (.lexeme x) → (r.opening.depth : Int) = indentation b x)
    (h : Indented (b + nesting (lexemesOf r.pieces)) rows b') : Indented b (r :: rows) b'

theorem Indented.append {b b' b'' : Int} {rows rows' : List Row} (h : Indented b rows b')
    (h' : Indented b' rows' b'') : Indented b (rows ++ rows') b'' := by
  induction h with
  | nil _ => exact h'
  | cons hr _ ih => exact .cons hr (ih h')

/-- What stands on the line that opens a block. -/
structure Head (ps : List Piece) : Prop where
  flat : ∀ p ∈ ps, p.isFlat = true
  first : ∃ x, ps.head? = some (.lexeme x) ∧ x ≠ .ofPunctuator .braceClose
  last : ∃ x, ps.getLast? = some (.lexeme x)
  opens : nesting (lexemesOf ps) = 1

theorem Head.bare : Head [punctuator .braceOpen] :=
  ⟨List.forall_mem_singleton.2 rfl, ⟨_, rfl, by decide⟩, ⟨_, rfl⟩, nesting_braceOpen⟩

theorem Inline.head {heading : List Piece} (h : Inline heading) :
    Head (heading ++ [Piece.space, Piece.punctuator .braceOpen]) where
  flat := List.forall_mem_append.2 ⟨h.flat, by simp [Piece.isFlat, Piece.punctuator]⟩
  first := by
    obtain ⟨x, hx, hne⟩ := h.first
    exact ⟨x, by rw [List.head?_append, hx]; rfl, hne⟩
  last := ⟨_, by rw [List.getLast?_append]; rfl⟩
  opens := by
    rw [lexemesOf_append, nesting_append, h.balanced]
    exact nesting_braceOpen

/-- Some pieces are some lines, on which some nodes start. -/
structure Rows (depth : Nat) (pieces : List Piece) (nodes : List Node) (rows : List Row) :
    Prop where
  layout : pieces = rows.flatMap Row.layout
  nodes : rows.filterMap Row.node? = nodes
  plain : ∀ r ∈ rows, r.Plain
  starts : Starts rows
  indented : Indented depth rows depth

theorem Rows.nil (depth : Nat) : Rows depth [] [] [] :=
  ⟨rfl, rfl, fun _ hr => absurd hr List.not_mem_nil, .nil, .nil _⟩

theorem Rows.append {depth : Nat} {as bs : List Piece} {ns ms : List Node} {rows rows' : List Row}
    (h : Rows depth as ns rows) (h' : Rows depth bs ms rows') :
    Rows depth (as ++ bs) (ns ++ ms) (rows ++ rows') where
  layout := by rw [h.layout, h'.layout, List.flatMap_append]
  nodes := by rw [List.filterMap_append, h.nodes, h'.nodes]
  plain := List.forall_mem_append.2 ⟨h.plain, h'.plain⟩
  starts := h.starts.append h'.starts
  indented := h.indented.append h'.indented

theorem Rows.rowLexemes_eq {depth : Nat} {pieces : List Piece} {nodes : List Node}
    {rows : List Row} (h : Rows depth pieces nodes rows) : rowLexemes rows = lexemesOf pieces := by
  rw [h.layout, lexemesOf_rows h.plain]

/-- Where pieces start with a break, it opens their first line. -/
theorem Rows.exists_cons {depth : Nat} {p : Piece} {ps : List Piece} {nodes : List Node}
    {rows : List Row} (h : Rows depth (p :: ps) nodes rows) :
    ∃ r rest, rows = r :: rest ∧ r.opening = p ∧ ps = r.pieces ++ rest.flatMap Row.layout := by
  have hlayout := h.layout
  cases rows with
  | nil => cases hlayout
  | cons r rest =>
    rw [List.flatMap_cons, Row.layout, List.cons_append, List.cons.injEq] at hlayout
    exact ⟨r, rest, rfl, hlayout.1.symm, hlayout.2⟩

/-- Some pieces can be divided into lines on which the given nodes start, and none
of which is empty. -/
def Arranges (depth : Nat) (pieces : List Piece) (nodes : List Node) : Prop :=
  ∃ rows, Rows depth pieces nodes rows ∧ ∀ r ∈ rows, r.pieces ≠ []

namespace Arranges

theorem nil (depth : Nat) : Arranges depth [] [] :=
  ⟨[], .nil depth, fun _ hr => absurd hr List.not_mem_nil⟩

theorem append {depth : Nat} {as bs : List Piece} {ns ms : List Node} (h : Arranges depth as ns)
    (h' : Arranges depth bs ms) : Arranges depth (as ++ bs) (ns ++ ms) := by
  obtain ⟨rows, hrows, hne⟩ := h
  obtain ⟨rows', hrows', hne'⟩ := h'
  exact ⟨rows ++ rows', hrows.append hrows', List.forall_mem_append.2 ⟨hne, hne'⟩⟩

theorem flatMap {depth : Nat} {α : Type} {f : α → List Piece} {g : α → List Node} {xs : List α}
    (h : ∀ x ∈ xs, Arranges depth (f x) (g x)) : Arranges depth (xs.flatMap f) (xs.flatMap g) := by
  induction xs with
  | nil => exact .nil depth
  | cons x xs ih =>
    rw [List.flatMap_cons, List.flatMap_cons]
    exact (h x (by simp)).append (ih fun y hy => h y (by simp [hy]))

variable {depth : Nat} {opening : Piece} {n : Node}

/-- A node on one line. -/
theorem line (ho : opening.isFlat = false) (hd : opening.depth = depth) (h : Inline n.layout)
    (hout : n.outline = []) : Arranges depth (opening :: n.layout) (n :: n.outline) := by
  obtain ⟨x, hx, hne⟩ := h.first
  refine ⟨[⟨opening, n.layout, some n⟩], ⟨by simp [Row.layout], by simp [hout], ?_, ?_, ?_⟩, ?_⟩
  · refine List.forall_mem_singleton.2 ⟨ho, h.flat, ?_, h.last⟩
    intro p hp
    exact ⟨x, Option.some.inj (hp.symm.trans hx)⟩
  · refine .cons ?_ .nil
    rintro m ⟨⟩
    rw [rowLexemes_cons]
    exact ⟨h.ne_nil, List.prefix_append _ _⟩
  · refine .cons ?_ ?_
    · intro y hy
      cases hx.symm.trans hy
      rw [indentation, if_neg hne, hd]
    · show Indented (depth + nesting (lexemesOf n.layout)) [] depth
      rw [h.balanced, Int.add_zero]
      exact .nil _
  · exact List.forall_mem_singleton.2 h.ne_nil

/-- The line that closes a block. -/
theorem close (depth : Nat) :
    Row.Plain ⟨newLine depth, [Piece.punctuator .braceClose], none⟩ ∧
      Indented (depth + 1) [⟨newLine depth, [Piece.punctuator .braceClose], none⟩] depth := by
  refine ⟨⟨rfl, List.forall_mem_singleton.2 rfl, ?_, ?_⟩, .cons ?_ ?_⟩
  · rintro p ⟨⟩
    exact ⟨_, rfl⟩
  · rintro p ⟨⟩
    exact ⟨_, rfl⟩
  · rintro y ⟨⟩
    rw [indentation, if_pos rfl]
    exact (Int.add_sub_cancel (depth : Int) 1).symm
  · show Indented (depth + 1 + nesting [.ofPunctuator .braceClose]) [] depth
    rw [nesting_braceClose, Int.add_neg_cancel_right]
    exact .nil _

/-- A node with a block: a line that ends in an opening brace, the lines of its
members, one level deeper, and a line with the closing brace. -/
theorem block {head members : List Piece} {nodes : List Node} (ho : opening.isFlat = false)
    (hd : opening.depth = depth) (h : Head head)
    (hn : lexemesOf n.layout = lexemesOf (head ++ members ++ [Piece.punctuator .braceClose]))
    (hout : n.outline = nodes) (hmembers : Arranges (depth + 1) members nodes) :
    Arranges depth (opening :: (head ++ members ++ [newLine depth, punctuator .braceClose]))
      (n :: n.outline) := by
  obtain ⟨rows, hrows, hne⟩ := hmembers
  obtain ⟨x, hx, hx'⟩ := h.first
  have hnil : head ≠ [] := by
    rintro rfl
    cases hx
  obtain ⟨hplain, hindented⟩ := close depth
  -- The node is on the first line; the one with the closing brace starts no other.
  let first : Row := ⟨opening, head, some n⟩
  let close : Row := ⟨newLine depth, [punctuator .braceClose], none⟩
  refine ⟨first :: (rows ++ [close]), ⟨?_, ?_, ?_, ?_, ?_⟩, ?_⟩
  · rw [hrows.layout]
    simp [first, close, Row.layout]
  · have hfirst : (first :: (rows ++ [close])).filterMap Row.node? =
        n :: (rows ++ [close]).filterMap Row.node? := rfl
    have hclose : [close].filterMap Row.node? = [] := rfl
    rw [hout, hfirst, List.filterMap_append, hclose, hrows.nodes, List.append_nil]
  · have hfirst : first.Plain := by
      refine ⟨ho, h.flat, ?_, ?_⟩
      · intro p hp
        exact ⟨x, Option.some.inj (hp.symm.trans hx)⟩
      · obtain ⟨y, hy⟩ := h.last
        intro p hp
        exact ⟨y, Option.some.inj (hp.symm.trans hy)⟩
    refine List.forall_mem_cons.2 ⟨hfirst, List.forall_mem_append.2 ⟨hrows.plain, ?_⟩⟩
    exact List.forall_mem_singleton.2 hplain
  · refine .cons ?_ (hrows.starts.append (.cons nofun .nil))
    rintro m ⟨⟩
    have hall : rowLexemes (first :: (rows ++ [close])) = lexemesOf n.layout := by
      rw [hn, rowLexemes_cons, rowLexemes_append, hrows.rowLexemes_eq, lexemesOf_append,
        lexemesOf_append, List.append_assoc]
      rfl
    rw [hall]
    exact ⟨hnil, List.prefix_rfl⟩
  · have hlines : Indented (depth + nesting (lexemesOf head)) rows (depth + 1) := by
      rw [h.opens]
      exact hrows.indented
    refine .cons ?_ (hlines.append hindented)
    intro y hy
    cases hx.symm.trans hy
    rw [indentation, if_neg hx']
    exact congrArg Nat.cast hd
  · refine List.forall_mem_cons.2 ⟨hnil, List.forall_mem_append.2 ⟨hne, ?_⟩⟩
    exact List.forall_mem_singleton.2 (List.cons_ne_nil _ _)

/-- The pieces of a block that has members. -/
theorem block_eq {α : Type} (f : α → List Piece) {xs : List α} (hne : xs ≠ []) :
    Layout.block depth (xs.map f) = [Piece.punctuator .braceOpen]
      ++ xs.flatMap (fun x => newLine (depth + 1) :: f x)
      ++ [newLine depth, Piece.punctuator .braceClose] := by
  rw [Layout.block, if_neg (by simpa using hne), List.flatMap_map]
  rfl

section

variable {α : Type} {xs : List α} {node : α → Node} {f : Nat → α → List Piece}
  (ho : opening.isFlat = false) (hd : opening.depth = depth)
  (hf : ∀ x ∈ xs, ∀ k, lexemesOf (f k x) = lexemesOf (f 0 x))
  (hout : n.outline = xs.flatMap fun x => node x :: (node x).outline)
  (hxs : ∀ x ∈ xs, Arranges (depth + 1) (newLine (depth + 1) :: f (depth + 1) x)
    (node x :: (node x).outline))

include hf in
/-- The lexemes of a block do not depend on how deep it stands. -/
theorem lexemesOf_members (j k : Nat) :
    lexemesOf (xs.flatMap fun x => newLine j :: f j x) =
      lexemesOf (xs.flatMap fun x => newLine k :: f k x) := by
  rw [lexemesOf_flatMap, lexemesOf_flatMap, List.flatMap_def, List.flatMap_def]
  refine congrArg List.flatten (List.map_congr_left fun x hx => ?_)
  rw [lexemesOf_newLine, lexemesOf_newLine, hf x hx j, hf x hx k]

include ho hd hf hout hxs

/-- A node that is nothing but a block. -/
theorem bareBlock (hne : xs ≠ []) (hn : n.layout = Layout.block 0 (xs.map (f 1))) :
    Arranges depth (opening :: Layout.block depth (xs.map (f (depth + 1)))) (n :: n.outline) := by
  have hn' : lexemesOf n.layout = lexemesOf ([Piece.punctuator .braceOpen]
      ++ (xs.flatMap fun x => newLine (depth + 1) :: f (depth + 1) x)
      ++ [Piece.punctuator .braceClose]) := by
    rw [hn, block_eq (f 1) hne]
    simp only [lexemesOf_append, lexemesOf_members hf (0 + 1) (depth + 1), lexemesOf_newLine]
  rw [block_eq _ hne]
  exact .block ho hd .bare hn' hout (.flatMap hxs)

/-- A node whose heading may be followed by a block on the same line. -/
theorem spacedBlock {heading : List Piece} (h : Inline heading)
    (hn : n.layout = heading ++ Layout.spacedBlock 0 (xs.map (f 1))) :
    Arranges depth (opening :: (heading ++ Layout.spacedBlock depth (xs.map (f (depth + 1)))))
      (n :: n.outline) := by
  by_cases hne : xs = []
  · -- Without members there is no block, and the heading is a line.
    subst hne
    have hlayout : n.layout = heading := hn.trans (List.append_nil heading)
    have hline : Arranges depth (opening :: n.layout) (n :: n.outline) :=
      .line ho hd (hlayout ▸ h) hout
    rwa [hlayout, ← List.append_nil heading] at hline
  · have hspaced (k : Nat) (g : α → List Piece) :
        heading ++ Layout.spacedBlock k (xs.map g) =
          heading ++ [Piece.space, Piece.punctuator .braceOpen]
            ++ xs.flatMap (fun x => newLine (k + 1) :: g x)
            ++ [newLine k, Piece.punctuator .braceClose] := by
      rw [Layout.spacedBlock, if_neg (by simpa using hne), block_eq g hne]
      simp
    have hn' : lexemesOf n.layout =
        lexemesOf (heading ++ [Piece.space, Piece.punctuator .braceOpen]
          ++ (xs.flatMap fun x => newLine (depth + 1) :: f (depth + 1) x)
          ++ [Piece.punctuator .braceClose]) := by
      rw [hn, hspaced]
      simp only [lexemesOf_append, lexemesOf_members hf (0 + 1) (depth + 1), lexemesOf_newLine]
    rw [hspaced]
    exact .block ho hd h.head hn' hout (.flatMap hxs)

end

end Arranges

/-! ### Selections -/

namespace Selection

/-- The selections on the lines inside of a selection. -/
def members (s : Selection) : List Selection := s.selectionSet?.elim [] SelectionSet.selections

theorem nestedLayout_eq (depth : Nat) (s : Selection) :
    nestedLayout depth s.selectionSet? =
      Layout.spacedBlock depth (s.members.map (Selection.layout (depth + 1))) := by
  rw [members]
  cases s.selectionSet? with
  | none => rfl
  | some t => rw [nestedLayout, SelectionSet.members_eq, Option.elim_some]

theorem layout_node (s : Selection) : s.node.layout = s.layout 0 := by
  cases s <;> simp [Selection.node, Node.layout, Selection.layout]

end Selection

theorem SelectionSet.outline_eq (t : SelectionSet) :
    (Node.selectionSet t).outline = t.selections.flatMap fun s => s.node :: s.node.outline := by
  rw [Node.outline_eq, Node.children, List.flatMap_map]
  rfl

/-- If the first nodes directly inside a node are plain, and none of them starts a
line, the lines are those of the other ones. -/
theorem Node.outline_of_plain {n : Node} (front back : List Node) (hn : n.children = front ++ back)
    (hplain : ∀ c ∈ front, c.isPlain = true) (hstarts : ∀ c ∈ n.children, n.startsLine c = false) :
    n.outline = back.flatMap outline := by
  have hstep : n.outline = n.children.flatMap outline := by
    rw [outline_eq, List.flatMap_def, List.flatMap_def]
    refine congrArg List.flatten (List.map_congr_left fun c hc => ?_)
    rw [hstarts c hc]
    rfl
  have hfront : front.flatMap outline = [] :=
    List.flatMap_eq_nil_iff.2 fun c hc => outline_eq_nil (hplain c hc)
  rw [hstep, hn, List.flatMap_append, hfront, List.nil_append]

/-- If the first nodes directly inside a node are plain and start no lines, and the
other ones are plain and start lines, those are all the lines. -/
theorem Node.outline_of_members {n : Node} (front members : List Node)
    (hn : n.children = front ++ members)
    (hfront : ∀ c ∈ front, c.isPlain = true ∧ n.startsLine c = false)
    (hmembers : ∀ c ∈ members, c.isPlain = true ∧ n.startsLine c = true) :
    n.outline = members := by
  have hnil : (front.flatMap fun c => if n.startsLine c then c :: c.outline else c.outline) = [] := by
    refine List.flatMap_eq_nil_iff.2 fun c hc => ?_
    rw [(hfront c hc).2]
    exact outline_eq_nil (hfront c hc).1
  have hself : ∀ c ∈ members, (if n.startsLine c then c :: c.outline else c.outline) = [c] := by
    intro c hc
    rw [(hmembers c hc).2, outline_eq_nil (hmembers c hc).1]
    rfl
  rw [outline_eq, hn, List.flatMap_append, hnil, List.nil_append, List.flatMap_def,
    List.map_congr_left hself, ← List.flatMap_def]
  exact List.flatMap_singleton' members

theorem Selection.outline_node (s : Selection) :
    s.node.outline = s.members.flatMap fun t => t.node :: t.node.outline := by
  cases s with
  | field f =>
    have hchildren := Node.outline_of_plain (n := .field f) _ _ rfl
      (by simp [Node.isPlain, or_imp, forall_and]) (by simp [Node.children, Node.startsLine])
    rw [Selection.node, hchildren, members, selectionSet?_field]
    cases f.selectionSet? with
    | none => rfl
    | some t => simp [SelectionSet.outline_eq]
  | spread s => exact Node.outline_eq_nil rfl
  | inline f =>
    have hchildren := Node.outline_of_plain (n := .inlineFragment f) _ _ rfl
      (by simp [Node.isPlain, or_imp, forall_and]) (by simp [Node.children, Node.startsLine])
    rw [Selection.node, hchildren, members, selectionSet?_inline]
    simp [SelectionSet.outline_eq]

/-- The lexemes of a selection do not depend on how deep it stands. -/
theorem SelectionSet.lexemesOf_selections (ss : SelectionSet) :
    ∀ s ∈ ss.selections, ∀ depth, lexemesOf (s.layout depth) = lexemesOf (s.layout 0) := by
  induction ss using SelectionSet.induct with
  | step ss ih =>
    intro s hs depth
    rw [Selection.layout_eq depth, Selection.layout_eq 0, lexemesOf_append, lexemesOf_append]
    cases hset : s.selectionSet? with
    | none => rfl
    | some t =>
      rw [nestedLayout, nestedLayout, lexemesOf_spacedBlock, lexemesOf_spacedBlock,
        SelectionSet.members_eq, SelectionSet.members_eq]
      by_cases hnil : t.selections = []
      · rw [hnil]
        rfl
      · rw [lexemesOf_block _ _ hnil, lexemesOf_block _ _ hnil, List.flatMap_def, List.flatMap_def]
        have hsame : t.selections.map (fun u => lexemesOf (u.layout (depth + 1))) =
            t.selections.map fun u => lexemesOf (u.layout (0 + 1)) :=
          List.map_congr_left fun u hu =>
            (ih s hs t hset u hu (depth + 1)).trans (ih s hs t hset u hu (0 + 1)).symm
        rw [hsame]

theorem Selection.lexemesOf_members (s : Selection) :
    ∀ t ∈ s.members, ∀ depth, lexemesOf (t.layout depth) = lexemesOf (t.layout 0) := by
  intro t ht
  rw [members] at ht
  cases hset : s.selectionSet? with
  | none =>
    rw [hset] at ht
    cases ht
  | some u =>
    rw [hset] at ht
    exact u.lexemesOf_selections t ht

/-- A selection is a line, and its selection set the block behind it. -/
theorem Selection.arranges {depth : Nat} {s : Selection} {opening : Piece}
    (ho : opening.isFlat = false) (hd : opening.depth = depth)
    (h : ∀ t ∈ s.members, Arranges (depth + 1) (newLine (depth + 1) :: t.layout (depth + 1))
      (t.node :: t.node.outline)) :
    Arranges depth (opening :: s.layout depth) (s.node :: s.node.outline) := by
  have hn : s.node.layout = s.heading ++ spacedBlock 0 (s.members.map (Selection.layout 1)) := by
    rw [layout_node, layout_eq, nestedLayout_eq]
  rw [layout_eq, nestedLayout_eq]
  exact .spacedBlock ho hd s.lexemesOf_members s.outline_node h s.heading_inline hn

/-- The selections of a selection set start lines, and so do all those inside. -/
theorem SelectionSet.arranges (ss : SelectionSet) : ∀ depth, ∀ s ∈ ss.selections,
    Arranges depth (newLine depth :: s.layout depth) (s.node :: s.node.outline) := by
  induction ss using SelectionSet.induct with
  | step ss ih =>
    intro depth s hs
    refine Selection.arranges rfl rfl fun t ht => ?_
    rw [Selection.members] at ht
    cases hset : s.selectionSet? with
    | none =>
      rw [hset] at ht
      cases ht
    | some u =>
      rw [hset] at ht
      exact ih s hs u hset (depth + 1) t ht

/-! ### Definitions -/

theorem SelectionSet.WellFormed.selections_ne_nil {ss : SelectionSet} (h : ss.WellFormed) :
    ss.selections ≠ [] := by
  cases h with
  | intro hne _ _ => exact hne

theorem OperationDefinition.outline_eq (o : OperationDefinition) :
    (Node.operationDefinition o).outline =
      o.selectionSet.selections.flatMap fun s => s.node :: s.node.outline := by
  have hchildren := Node.outline_of_plain (n := .operationDefinition o) _ _ rfl
    (by simp [Node.isPlain, or_imp, forall_and]) (by simp [Node.children, Node.startsLine])
  rw [hchildren, List.flatMap_singleton, SelectionSet.outline_eq]

theorem FragmentDefinition.outline_eq (d : FragmentDefinition) :
    (Node.fragmentDefinition d).outline =
      d.selectionSet.selections.flatMap fun s => s.node :: s.node.outline := by
  have hchildren : (Node.fragmentDefinition d).children =
      ([.name d.name, .name d.typeCondition] ++ d.directives.map .directive)
        ++ [.selectionSet d.selectionSet] := rfl
  rw [Node.outline_of_plain _ _ hchildren (by simp [Node.isPlain, or_imp, forall_and])
    (by simp [Node.children, Node.startsLine]), List.flatMap_singleton, SelectionSet.outline_eq]

section

variable {depth : Nat} {opening : Piece} (ho : opening.isFlat = false)
  (hd : opening.depth = depth)
include ho hd

theorem OperationDefinition.arranges {o : OperationDefinition} (hne : o.selectionSet.selections ≠ []) :
    Arranges depth (opening :: o.layout depth)
      (.operationDefinition o :: (Node.operationDefinition o).outline) := by
  have hmembers := o.selectionSet.arranges (depth + 1)
  cases hshort : o.isShorthand with
  | true =>
    have hlayout (k : Nat) : o.layout k =
        Layout.block k (o.selectionSet.selections.map (Selection.layout (k + 1))) := by
      rw [OperationDefinition.layout, if_pos hshort, SelectionSet.layout, SelectionSet.members_eq]
    rw [hlayout]
    exact .bareBlock ho hd o.selectionSet.lexemesOf_selections o.outline_eq hmembers hne (hlayout 0)
  | false =>
    have hlayout (k : Nat) : o.layout k = o.heading ++
        Layout.spacedBlock k (o.selectionSet.selections.map (Selection.layout (k + 1))) := by
      rw [OperationDefinition.layout_eq k hshort, nestedLayout, SelectionSet.members_eq, heading]
      simp only [List.cons_append, List.append_assoc]
    rw [hlayout]
    exact .spacedBlock ho hd o.selectionSet.lexemesOf_selections o.outline_eq hmembers
      o.heading_inline (hlayout 0)

theorem FragmentDefinition.arranges (d : FragmentDefinition) :
    Arranges depth (opening :: d.layout depth)
      (.fragmentDefinition d :: (Node.fragmentDefinition d).outline) := by
  have hcondition : Trailing ([space, word "on", space] ++ d.typeCondition.layout) :=
    .space (.word _ (.space d.typeCondition.layout_inline))
  have hheading := keyword_layout_inline "fragment" d.name
    (hcondition.append (directivesLayout_trailing d.directives))
  have hlayout (k : Nat) : d.layout k = [word "fragment", space] ++ d.name.layout
      ++ ([space, word "on", space] ++ d.typeCondition.layout ++ directivesLayout d.directives)
      ++ Layout.spacedBlock k (d.selectionSet.selections.map (Selection.layout (k + 1))) := by
    rw [FragmentDefinition.layout, SelectionSet.members_eq]
    simp only [List.append_assoc]
  rw [hlayout]
  exact .spacedBlock ho hd d.selectionSet.lexemesOf_selections d.outline_eq
    (d.selectionSet.arranges (depth + 1)) hheading (hlayout 0)

/-- The members of a definition of a type are written on one line each. -/
theorem Arranges.members {α : Type} {n : Node} {heading : List Piece} {xs : List α}
    {node : α → Node} (h : Inline heading)
    (hout : n.outline = xs.map node)
    (hn : n.layout = heading ++ Layout.spacedBlock 0 (xs.map fun x => (node x).layout))
    (hplain : ∀ x, (node x).isPlain = true) (hinline : ∀ x, Inline (node x).layout) :
    Arranges depth
      (opening :: (heading ++ Layout.spacedBlock depth (xs.map fun x => (node x).layout)))
      (n :: n.outline) := by
  have hout' : n.outline = xs.flatMap fun x => node x :: (node x).outline := by
    rw [hout, List.map_eq_flatMap]
    congr 1
    funext x
    rw [Node.outline_eq_nil (hplain x)]
  exact .spacedBlock (f := fun _ x => (node x).layout) ho hd (fun _ _ _ => rfl) hout'
    (fun x _ => .line rfl rfl (hinline x) (Node.outline_eq_nil (hplain x))) h hn

omit ho hd in
theorem ObjectType.outline_eq (t : ObjectType) :
    (Node.objectType t).outline = t.fields.map .fieldDefinition :=
  Node.outline_of_members (.name t.name :: t.interfaces.map .name) _ rfl
    (by simp [Node.isPlain, Node.startsLine, or_imp, forall_and])
    (by simp [Node.isPlain, Node.startsLine])

omit ho hd in
theorem ObjectType.heading_inline (t : ObjectType) :
    Inline ([word "type", space] ++ t.name.layout ++ interfacesLayout t.interfaces) :=
  keyword_layout_inline "type" t.name (interfacesLayout_trailing t.interfaces)

theorem ObjectType.arranges (t : ObjectType) :
    Arranges depth (opening :: t.layout depth) (.objectType t :: (Node.objectType t).outline) :=
  .members ho hd t.heading_inline t.outline_eq rfl (fun _ => rfl) FieldDefinition.layout_inline

/-- An extension is written as the object type behind its keyword. -/
theorem TypeExtension.arranges (e : TypeExtension) :
    Arranges depth (opening :: e.layout depth)
      (.typeExtension e :: (Node.typeExtension e).outline) := by
  have hout : (Node.typeExtension e).outline = e.definition.fields.map .fieldDefinition := by
    rw [Node.outline_of_plain [] [.objectType e.definition] rfl (by simp)
      (by simp [Node.children, Node.startsLine]), List.flatMap_singleton, ObjectType.outline_eq]
  have hheading : Inline ([word "extend", space] ++ ([word "type", space]
      ++ e.definition.name.layout ++ interfacesLayout e.definition.interfaces)) :=
    .word _ (.space e.definition.heading_inline)
  have hlayout (k : Nat) : e.layout k = [word "extend", space] ++ ([word "type", space]
      ++ e.definition.name.layout ++ interfacesLayout e.definition.interfaces)
      ++ Layout.spacedBlock k (e.definition.fields.map FieldDefinition.layout) := by
    rw [TypeExtension.layout, ObjectType.layout_eq]
    simp only [List.append_assoc]
  rw [hlayout]
  exact .members ho hd hheading hout (hlayout 0) (fun _ => rfl) FieldDefinition.layout_inline

theorem InterfaceType.arranges (t : InterfaceType) :
    Arranges depth (opening :: t.layout depth)
      (.interfaceType t :: (Node.interfaceType t).outline) := by
  have hout : (Node.interfaceType t).outline = t.fields.map .fieldDefinition :=
    Node.outline_of_members [.name t.name] _ rfl (by simp [Node.isPlain, Node.startsLine])
      (by simp [Node.isPlain, Node.startsLine])
  have hheading := keyword_layout_inline "interface" t.name .nil
  rw [List.append_nil] at hheading
  exact .members ho hd hheading hout rfl (fun _ => rfl) FieldDefinition.layout_inline

theorem EnumType.arranges (t : EnumType) :
    Arranges depth (opening :: t.layout depth) (.enumType t :: (Node.enumType t).outline) := by
  have hout : (Node.enumType t).outline = t.values.map .enumValueDefinition :=
    Node.outline_of_members [.name t.name] _ rfl (by simp [Node.isPlain, Node.startsLine])
      (by simp [Node.isPlain, Node.startsLine])
  have hheading := keyword_layout_inline "enum" t.name .nil
  rw [List.append_nil] at hheading
  exact .members ho hd hheading hout rfl (fun _ => rfl) fun v => v.name.layout_inline

theorem InputObjectType.arranges (t : InputObjectType) :
    Arranges depth (opening :: t.layout depth)
      (.inputObjectType t :: (Node.inputObjectType t).outline) := by
  have hout : (Node.inputObjectType t).outline = t.fields.map .inputValueDefinition :=
    Node.outline_of_members [.name t.name] _ rfl (by simp [Node.isPlain, Node.startsLine])
      (by simp [Node.isPlain, Node.startsLine])
  have hheading := keyword_layout_inline "input" t.name .nil
  rw [List.append_nil] at hheading
  exact .members ho hd hheading hout rfl (fun _ => rfl) InputValueDefinition.layout_inline

/-- A definition starts a line, and so do its members and all that is inside. -/
theorem Definition.arranges {d : Definition} (h : d.WellFormed) :
    Arranges depth (opening :: d.layout depth) (d.node :: d.node.outline) := by
  cases d with
  | operation o =>
    have hset := OperationDefinition.WellFormed.selectionSet h
    exact OperationDefinition.arranges ho hd hset.selections_ne_nil
  | fragment f => exact f.arranges ho hd
  | type t =>
    cases t with
    | scalar t =>
      have hline : Inline (Node.scalarType t).layout := .word _ (.space t.name.layout_inline)
      exact .line ho hd hline (Node.outline_eq_nil rfl)
    | union t =>
      have hline : Inline (Node.unionType t).layout := t.layout_inline
      exact .line ho hd hline (Node.outline_eq_nil rfl)
    | object t => exact t.arranges ho hd
    | interface t => exact t.arranges ho hd
    | enum t => exact t.arranges ho hd
    | inputObject t => exact t.arranges ho hd
  | extension e => exact e.arranges ho hd

end

/-! ### Documents -/

/-- An empty line. -/
theorem Rows.blank : Rows 0 [lineFeed] [] [⟨lineFeed, [], none⟩] where
  layout := rfl
  nodes := rfl
  plain := List.forall_mem_singleton.2 ⟨rfl, nofun, nofun, nofun⟩
  starts := .cons nofun .nil
  indented := .cons nofun (.nil 0)

/-- The piece of the end of the input, which writes nothing. -/
def Piece.endOfInput : Piece := lexeme ⟨.endOfInput, none⟩

/-- The line that only the end of the input stands on. -/
theorem Rows.endOfInput : Rows 0 [lineFeed, Piece.endOfInput] []
    [⟨lineFeed, [Piece.endOfInput], none⟩] where
  layout := rfl
  nodes := rfl
  plain := by
    refine List.forall_mem_singleton.2 ⟨rfl, List.forall_mem_singleton.2 rfl, ?_, ?_⟩
    · rintro p ⟨⟩
      exact ⟨_, rfl⟩
    · rintro p ⟨⟩
      exact ⟨_, rfl⟩
  starts := .cons nofun .nil
  indented := by
    refine .cons ?_ (.nil 0)
    rintro x ⟨⟩
    rfl

theorem Document.outline_eq (d : Document) :
    (Node.document d).outline = d.definitions.flatMap fun x => x.node :: x.node.outline := by
  rw [Node.outline_eq, Node.children, List.flatMap_map]
  rfl

/-- Definitions start lines, with an empty line between them. -/
theorem exists_rows_joined {xs : List Definition} (hne : xs ≠ []) (h : ∀ x ∈ xs, x.WellFormed) :
    ∃ rows, Rows 0 (lineFeed :: joined [lineFeed, lineFeed] (xs.map (Definition.layout 0)))
      (xs.flatMap fun x => x.node :: x.node.outline) rows := by
  induction xs with
  | nil => exact absurd rfl hne
  | cons x xs ih =>
    have ho : lineFeed.isFlat = false := rfl
    have hd : lineFeed.depth = 0 := rfl
    obtain ⟨rows, hrows, -⟩ := Definition.arranges ho hd (h x (by simp))
    cases xs with
    | nil => exact ⟨rows, by simpa [joined] using hrows⟩
    | cons y ys =>
      obtain ⟨rows', hrows'⟩ := ih (List.cons_ne_nil y ys) fun z hz => h z (by simp [hz])
      have hall := (hrows.append .blank).append hrows'
      exact ⟨_, by simpa [joined] using hall⟩

/-- A document is made of the lines of its definitions, empty lines between them,
and one last line with the end of the input. -/
theorem Document.exists_rows {d : Document} (h : d.WellFormed) :
    ∃ rows, Rows 0 (lineFeed :: (d.layout 0 ++ [.endOfInput]))
      (Node.document d).outline rows := by
  obtain ⟨rows, hrows⟩ := exists_rows_joined h.1 h.2
  have hall := hrows.append .endOfInput
  exact ⟨_, by simpa [d.outline_eq, Document.layout] using hall⟩

end GraphQL
