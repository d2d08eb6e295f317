/-
JSON values.

* `Json` — a JSON value; members of an object keep their order;
* `Codec` — types that can be written as JSON and read back;
* `Json.required`, `Json.optional` — the members of a record;
* `Json.variant` — one alternative of a sum.

Design notes: a record is an object with a member for each field; what else the
object holds is skipped.  A field that may be missing is written as `null`, and
`null` and no member at all read the same.  An alternative that carries data is
an object with a single member, named for the alternative; one without data is
its name as a string, or that name with `null`.

Two kinds of values are outside of the format: objects with two members of one
name, and arrays that list the fields of a record in their order.  A strict
reader refuses the former as duplicates, a lenient one takes the latter.  Here
`required` and `optional` take the first of two members, and an array is never a
record.
-/
namespace GraphQL

/-- A JSON value. -/
inductive Json
  | null
  | bool (b : Bool)
  /-- The number `mantissa` · 10 ^ (-`exponent`). -/
  | number (mantissa : Int) (exponent : Nat)
  | string (s : String)
  | array (items : List Json)
  | object (members : List (String × Json))
deriving Inhabited

/-- Types that can be written as JSON and read back. -/
class Codec (α : Type) where
  encode : α → Json
  decode? : Json → Option α

namespace Codec

instance : Codec String where
  encode := .string
  decode?
    | .string s => some s
    | _ => none

instance : Codec Bool where
  encode := .bool
  decode?
    | .bool b => some b
    | _ => none

instance : Codec Nat where
  encode n := .number n 0
  decode?
    | .number (.ofNat n) 0 => some n
    | _ => none

/-- Reads the items of an array. -/
def decodeItems? {α : Type} [Codec α] : List Json → Option (List α)
  | [] => some []
  | j :: js => do return (← decode? j) :: (← decodeItems? js)

instance {α : Type} [Codec α] : Codec (List α) where
  encode as := .array (as.map encode)
  decode?
    | .array items => decodeItems? items
    | _ => none

instance {α : Type} [Codec α] : Codec (Option α) where
  encode
    | some a => encode a
    | none => .null
  decode?
    | .null => some none
    | j => some <$> decode? j

end Codec

namespace Json

open Codec

/-- The members of an object. -/
def members? : Json → Option (List (String × Json))
  | object members => some members
  | _ => none

/-- Reads a field of a record that must be there. -/
def required {α : Type} [Codec α] (members : List (String × Json)) (field : String) : Option α :=
  match members.lookup field with
  | some j => decode? j
  | none => none

/-- Reads a field of a record that may be missing. -/
def optional {α : Type} [Codec α] (members : List (String × Json)) (field : String) :
    Option (Option α) :=
  decode? ((members.lookup field).getD null)

/-- An alternative that carries data. -/
def variant {α : Type} [Codec α] (tag : String) (a : α) : Json := object [(tag, encode a)]

/-- The name of an alternative without data. -/
def unitVariant? : Json → Option String
  | string tag => some tag
  | object [(tag, null)] => some tag
  | _ => none

end Json

end GraphQL
