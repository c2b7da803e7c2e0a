import Kirchhoff.Decimal.Layout

/-!
# JSON documents

Values of JSON and their text over several lines: two blanks for each level, the members of
a record in the order of their names, and the numbers in `Decimal.Layout.json`.
-/

namespace Kirchhoff

/-- A value of JSON. -/
inductive Json where
  | null
  | bool (value : Bool)
  | count (value : Nat)
  | real (value : Float)
  | text (value : String)
  | list (items : List Json)
  | record (members : List (String × Json))

namespace Json

/-- A number that may be missing; one that is not finite has no text in JSON. -/
def ofFloat (x : Float) : Json := if x.isFinite then .real x else .null

/-! ### Quoted texts -/

/-- The digit of a number below sixteen. -/
def hexDigit (n : Nat) : Char := Nat.digitChar n

/-- A character inside a quoted text. -/
def escape (c : Char) : List Char :=
  if c = '"' then ['\\', '"']
  else if c = '\\' then ['\\', '\\']
  else if c = '\n' then ['\\', 'n']
  else if c = '\r' then ['\\', 'r']
  else if c = '\t' then ['\\', 't']
  else if c.toNat = 8 then ['\\', 'b']
  else if c.toNat = 12 then ['\\', 'f']
  else if c.toNat < 32 then
    ['\\', 'u', '0', '0', hexDigit (c.toNat / 16), hexDigit (c.toNat % 16)]
  else [c]

/-- A quoted text. -/
def quote (s : String) : String := "\"" ++ String.ofList (s.toList.flatMap escape) ++ "\""

/-! ### Layout -/

/-- A new line at a level. -/
def newline (level : Nat) : String := "\n" ++ String.ofList (List.replicate (2 * level) ' ')

/-- Items between brackets, one a line. -/
def enclose (opening closing : String) (level : Nat) (items : List String) : String :=
  if items.isEmpty then opening ++ closing
  else
    opening ++ newline (level + 1)
      ++ String.intercalate ("," ++ newline (level + 1)) items
      ++ newline level ++ closing

/-- The members of a record by name. -/
def sortMembers (members : List (String × String)) : List (String × String) :=
  members.mergeSort fun m n => m.1 ≤ n.1

mutual

/-- The text of a value at a level. -/
def prettyAt (level : Nat) : Json → String
  | .null => "null"
  | .bool b => if b then "true" else "false"
  | .count n => n.repr
  | .real x => Decimal.Layout.json.text x
  | .text s => quote s
  | .list items => enclose "[" "]" level (prettyItems (level + 1) items)
  | .record members =>
    enclose "\x7b" "\x7d" level
      ((sortMembers (prettyMembers (level + 1) members)).map fun (k, v) => quote k ++ ": " ++ v)

/-- The texts of items at a level. -/
def prettyItems (level : Nat) : List Json → List String
  | [] => []
  | j :: js => prettyAt level j :: prettyItems level js

/-- The names and texts of members at a level. -/
def prettyMembers (level : Nat) : List (String × Json) → List (String × String)
  | [] => []
  | (k, j) :: ms => (k, prettyAt level j) :: prettyMembers level ms

end

/-- The text of a document. -/
def pretty (j : Json) : String := j.prettyAt 0

end Json

end Kirchhoff
