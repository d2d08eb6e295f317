/-
Quoting a text inside a message.

* `quote` — the text between double quotes, with everything that would be
  invisible or ambiguous there spelled as an escape.

Design notes: a message stays on one line whatever the text holds, since both
line breaks are spelled.
-/
import GraphQL.Text.Unprintable

namespace GraphQL

/-- How one character is spelled inside a quoted text. -/
def quoteChar (c : Char) : List Char :=
  match c with
  | '"' => ['\\', '"']
  | '\\' => ['\\', '\\']
  | '\x00' => ['\\', '0']
  | '\t' => ['\\', 't']
  | '\n' => ['\\', 'n']
  | '\r' => ['\\', 'r']
  | _ =>
    if isUnprintable c then ['\\', 'u', '{'] ++ Nat.toDigits 16 c.toNat ++ ['}'] else [c]

/-- A text between double quotes. -/
def quote (text : String) : String :=
  String.ofList ('"' :: text.toList.flatMap quoteChar ++ ['"'])

end GraphQL
