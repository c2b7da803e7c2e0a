import Kirchhoff.Context
import Kirchhoff.Decimal.Reading
import Kirchhoff.Text.Blank

/-!
# Assignments

The text `name=value` gives a number to a name. The name ends at the first equals sign.
Blanks around the name and around the value do not count. The name must not be empty.
-/

namespace Kirchhoff

/-- The texts before and after the first equals sign, if there is one. -/
def splitAssignment? (cs : List Char) : Option (List Char × List Char) :=
  if cs.contains '=' then some (cs.takeWhile (· != '='), (cs.dropWhile (· != '=')).drop 1)
  else none

/-- Reads an assignment of a number to a name. -/
def readAssignment (text : String) : Except (InputError Float) (String × Float) :=
  match splitAssignment? text.toList with
  | none => .error (.invalidAssignment text)
  | some (name, value) =>
    let name := Text.trim name
    let value := Text.trim value
    if name.isEmpty then .error (.invalidAssignment text)
    else
      match Decimal.read? value with
      | none => .error (.invalidNumber (String.ofList name) (String.ofList value))
      | some x => .ok (String.ofList name, x)

end Kirchhoff
