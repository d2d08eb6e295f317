/-
Naming single characters.

A message shows a character between grave accents, unless it would be
invisible there: a control character, a blank other than the space, or one of
the invisible characters that stray into documents most often.  Those are
shown by code point, followed by their name where they have a common one.

* `Character.describe` — the text that stands for a character in a message;
* `Character.describeNext` — the same where the input may also have ended.
-/
import GraphQL.Text.Hex

namespace GraphQL.Character

/-- The control characters: U+0000 to U+001F and U+007F to U+009F. -/
def isControl (c : Char) : Bool :=
  c.toNat < 0x20 || (0x7F ≤ c.toNat && c.toNat < 0xA0)

/-- The characters with the Unicode property White_Space. -/
def isBlank (c : Char) : Bool :=
  let n := c.toNat
  (9 ≤ n && n ≤ 13) || (0x2000 ≤ n && n ≤ 0x200A)
    || [0x20, 0x85, 0xA0, 0x1680, 0x2028, 0x2029, 0x202F, 0x205F, 0x3000].contains n

/-- The common name of an invisible character. -/
def invisibleName? (c : Char) : Option String :=
  match c.toNat with
  | 0x0000 => some "NULL"
  | 0x0007 => some "BELL"
  | 0x0008 => some "BACKSPACE"
  | 0x0009 => some "HORIZONTAL TAB"
  | 0x000A => some "LINE FEED"
  | 0x000B => some "VERTICAL TAB"
  | 0x000C => some "FORM FEED"
  | 0x000D => some "CARRIAGE RETURN"
  | 0x001B => some "ESCAPE"
  | 0x007F => some "DELETE"
  | 0x0085 => some "NEXT LINE"
  | 0x00A0 => some "NO-BREAK SPACE"
  | 0x200B => some "ZERO WIDTH SPACE"
  | 0x200C => some "ZERO WIDTH NON-JOINER"
  | 0x200D => some "ZERO WIDTH JOINER"
  | 0x2028 => some "LINE SEPARATOR"
  | 0x2029 => some "PARAGRAPH SEPARATOR"
  | 0xFEFF => some "BYTE ORDER MARK"
  | _ => none

/-- Whether a message has to spell the character out. -/
def isInvisible (c : Char) : Bool :=
  isControl c || (isBlank c && c != ' ') || (invisibleName? c).isSome

/-- The code point of an invisible character; all of them lie below U+10000,
so four digits hold it. -/
def codePoint (c : Char) : String := "U+" ++ String.ofList (fourHexDigits c.toNat)

/-- What a message shows for a character. -/
def describe (c : Char) : String :=
  if isInvisible c then
    match invisibleName? c with
    | some name => codePoint c ++ " (" ++ name ++ ")"
    | none => codePoint c
  else "`" ++ c.toString ++ "`"

/-- What a message shows for the next character, or for the end of the input. -/
def describeNext : Option Char → String
  | some c => describe c
  | none => "<EOF>"

end GraphQL.Character
