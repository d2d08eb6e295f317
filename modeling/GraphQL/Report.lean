/-
Reports of what is wrong with a document.

A `Report` says what is wrong and where, and carries notes that explain it.

* `Report.oneLine` — the report in short, with line and column from one;
* `Report.lines`, `Report.render` — the report in full, with an excerpt of the
  source under the report itself and under each note that has a place.

Design notes: an excerpt shows one line of the source under a gutter that
holds its number.  The report underlines what its span covers of that line
with at least one caret; a note points at the start of its span with a dash.
Where the source has no such line, the excerpt is left out.

The marks are brought to their column with blanks, as many as it takes.  Where
that is done by a formatting width, such a width ends at 65535; spans that start
in a column above that are outside of the range that reports are written for.
-/
import GraphQL.Text.Position
import GraphQL.Text.Line

namespace GraphQL

/-- What a note is for. -/
inductive Note.Label
  /-- Background to the report. -/
  | note
  /-- A way to mend the document. -/
  | help
  /-- A place in the language's specification. -/
  | spec
deriving DecidableEq

/-- How a label is written. -/
def Note.Label.text : Note.Label → String
  | note => "note"
  | help => "help"
  | spec => "spec"

/-- A remark that goes with a report. -/
structure Note where
  label : Note.Label
  message : String
  /-- The place the remark is about, if it is not that of the report. -/
  span? : Option Span
deriving DecidableEq

namespace Note

/-- Background, without a place of its own. -/
def general (message : String) : Note := ⟨.note, message, none⟩

/-- A way to mend the document. -/
def help (message : String) : Note := ⟨.help, message, none⟩

/-- A place in the specification, given by its address. -/
def spec (address : String) : Note := ⟨.spec, address, none⟩

/-- The same note about a place of its own. -/
def about (n : Note) (span : Span) : Note := { n with span? := some span }

/-- A note in one line. -/
def describe (n : Note) : String := n.label.text ++ ": " ++ n.message

end Note

/-- What is wrong, where, and what there is to say about it. -/
structure Report where
  message : String
  span : Span
  notes : List Note
deriving DecidableEq

namespace Report

/-- Where a span starts, with line and column counted from one. -/
def place (s : Span) : String :=
  "<input>:" ++ toString (s.start.line + 1) ++ ":" ++ toString (s.start.column + 1)

/-- A report in one line. -/
def oneLine (r : Report) : String := place r.span ++ ": error: " ++ r.message

/-- As many blanks. -/
def blanks (n : Nat) : String := String.ofList (List.replicate n ' ')

/-- The number that the gutter shows for a line. -/
def lineNumber (line : Nat) : String := toString (line + 1)

/-- The width of the gutter beside a line: that of its number, and at least two. -/
def gutterWidth (line : Nat) : Nat := max 2 (lineNumber line).length

/-- The gutter beside the text of a line. -/
def numberedGutter (line : Nat) : String :=
  blanks (gutterWidth line - (lineNumber line).length) ++ lineNumber line ++ " | "

/-- The gutter beside the marks under a line. -/
def blankGutter (line : Nat) : String := blanks (gutterWidth line) ++ " | "

/-- How many carets stand under a line: one for each code point that the span
covers of the line it starts on, and at least one. -/
def caretCount (s : Span) (content : List Char) : Nat :=
  let last := if s.stop.line = s.start.line then s.stop.column else content.length
  max 1 (last - s.start.column)

/-- The excerpt that goes with the report itself. -/
def excerpt (source : String) (s : Span) : List String :=
  let line := s.start.line
  match (GraphQL.lines source.toList)[line]? with
  | none => []
  | some content =>
    [blanks (gutterWidth line) ++ " |",
     numberedGutter line ++ String.ofList content,
     blankGutter line ++ blanks s.start.column
       ++ String.ofList (List.replicate (caretCount s content) '^')]

/-- The excerpt that goes with a note. -/
def noteExcerpt (source : String) (s : Span) : List String :=
  let line := s.start.line
  match (GraphQL.lines source.toList)[line]? with
  | none => []
  | some content =>
    ["     " ++ numberedGutter line ++ String.ofList content,
     "     " ++ blankGutter line ++ blanks s.start.column ++ "-"]

/-- The lines that a note adds to a report. -/
def noteLines (source? : Option String) (n : Note) : List String :=
  ("   = " ++ n.describe) ::
    match n.span?, source? with
    | some span, some source => noteExcerpt source span
    | _, _ => []

/-- The lines of a report in full; without the source there are no excerpts. -/
def lines (r : Report) (source? : Option String) : List String :=
  ["error: " ++ r.message, "  --> " ++ place r.span]
    ++ (match source? with
        | some source => excerpt source r.span
        | none => [])
    ++ r.notes.flatMap (noteLines source?)

/-- A report in full, each line ended by a line feed. -/
def render (r : Report) (source? : Option String) : String :=
  String.join ((r.lines source?).map (· ++ "\n"))

end Report

end GraphQL
