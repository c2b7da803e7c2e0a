import Kirchhoff.Decimal.Layout
import Kirchhoff.Text.Quoted

/-!
# Values in templates

What the names in a template stand for: texts, numbers, lists, records, repetitions and
functions. Each value has a text and counts as true or false in a condition; some have fields,
and some may be gone through item by item.
-/

namespace Kirchhoff.Template

/-- A value of a template. -/
inductive Value where
  /-- No value: a name or field that is not known. -/
  | undefined
  /-- The value of a field that is left open. -/
  | absent
  | bool (value : Bool)
  | count (value : Nat)
  | real (value : Float)
  | text (value : String)
  | list (items : List Value)
  | record (fields : List (String × Value))
  /-- What a repetition knows of itself at an item: the place of the item, the number of items
  if it is known beforehand, and the items next to it. -/
  | repetition (place : Nat) (size : Option Nat) (previous next : Value)
  /-- The function of a name. -/
  | function (name : String)

namespace Value

/-- The list of some texts. -/
def texts (ss : List String) : Value := .list (ss.map .text)

/-- The value counts as true: it is neither missing, nor zero, nor empty. -/
def isTrue : Value → Bool
  | .undefined | .absent => false
  | .bool b => b
  | .count n => n != 0
  | .real x => x != 0
  | .text s => !s.isEmpty
  | .list items => !items.isEmpty
  | .record fields => !fields.isEmpty
  | .repetition _ _ _ _ | .function _ => true

/-- The value is left open. -/
def isAbsent : Value → Bool
  | .absent => true
  | _ => false

/-- The text of a repetition: the place of its item, and the number of items if it is known. -/
def repetitionText (place : Nat) (size : Option Nat) : String :=
  "<loop " ++ place.repr ++ (size.elim "" fun n => "/" ++ n.repr) ++ ">"

mutual

/-- The text of a value inside a list or record. -/
def inner : Value → String
  | .undefined => "undefined"
  | .absent => "None"
  | .bool b => if b then "True" else "False"
  | .count n => n.repr
  | .real x => Decimal.Layout.point.text x
  | .text s => Text.quote s
  | .list items => "[" ++ String.intercalate ", " (innerItems items) ++ "]"
  | .record fields => "\x7b" ++ String.intercalate ", " (innerFields fields) ++ "\x7d"
  | .repetition place size _ _ => repetitionText place size
  | .function _ => "<function>"

/-- The texts of items inside a list. -/
def innerItems : List Value → List String
  | [] => []
  | v :: vs => inner v :: innerItems vs

/-- The texts of fields inside a record. -/
def innerFields : List (String × Value) → List String
  | [] => []
  | (k, v) :: fs => (Text.quote k ++ ": " ++ inner v) :: innerFields fs

end

/-- The text of a value. One that is undefined has the empty text. -/
def print : Value → String
  | .undefined => ""
  | .text s => s
  | v => v.inner

/-- A number that may be unknown. -/
def countOrUndefined (n : Option Nat) : Value := n.elim .undefined .count

/-- What can be asked of a repetition: the place of its item from the start and from the end,
whether it is the first or the last, and the items next to it. What hangs on the number of
items has an answer only if that is known. Repetitions do not enter themselves, so that each is
at the outermost depth. -/
def repetitionFields (place : Nat) (size : Option Nat) (previous next : Value) :
    List (String × Value) :=
  [("index0", .count place), ("index", .count (place + 1)), ("length", countOrUndefined size),
    ("revindex", countOrUndefined (size.map (· - place))),
    ("revindex0", countOrUndefined (size.map (· - place - 1))),
    ("first", .bool (place == 0)), ("last", .bool (size == some (place + 1))),
    ("depth", .count 1), ("depth0", .count 0), ("previtem", previous), ("nextitem", next)]

/-- The fields of a value, if it has fields. -/
def fields? : Value → Option (List (String × Value))
  | .record fields => some fields
  | .repetition place size previous next => some (repetitionFields place size previous next)
  | _ => none

/-- The items of a value, if it has items: those of a list, the names of fields, the characters
of a text, and none if it is missing. -/
def items? : Value → Option (List Value)
  | .undefined | .absent => some []
  | .list items => some items
  | .text s => some (s.toList.map fun c => .text c.toString)
  | v => v.fields?.map fun fields => fields.map fun (k, _) => .text k

/-- A field of a value; what is not known is undefined. A value that is undefined itself
has no fields to ask for. -/
def field? (key : String) : Value → Option Value
  | .undefined => none
  | v => some ((v.fields?.bind (·.lookup key)).getD .undefined)

/-- The number of items, where it is known before the items are gone through. That of a text
is not. -/
def size? : Value → Option Nat
  | .text _ => none
  | v => v.items?.map (·.length)

/-- The value of a function at some arguments, if there is one. The function `warn` takes a
message for whoever looks after the rendering, and leaves nothing in the text. -/
def call? : Value → List Value → Option Value
  | .function "warn", [_] => some (.text "")
  | _, _ => none

/-- The text that separates joined items. A value that is missing separates by nothing. -/
def separator : Value → String
  | .undefined | .absent => ""
  | v => v.print

/-- Each of some items with what a repetition knows of itself there. -/
def repetitions (size : Option Nat) (items : List Value) : List (Value × Value) :=
  let neighbours := (.undefined :: items).zip (items.drop 1 ++ [.undefined])
  (items.zipIdx.zip neighbours).map fun ((item, place), (previous, next)) =>
    (item, .repetition place size previous next)

end Value

end Kirchhoff.Template
