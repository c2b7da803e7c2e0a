import Kirchhoff.Template.Value

/-!
# Templates

A template is text with places to be filled in. A place is filled by the value of a term;
pieces may depend on a condition or be repeated for each item of a value. Rendering a
template in a scope, which gives values to names, makes a text of it.
-/

namespace Kirchhoff

namespace Template

/-- What is written in a place of a template. -/
inductive Term where
  | name (name : String)
  | literal (value : Value)
  /-- A field of a record. -/
  | field (record : Term) (key : String)
  /-- What a filter makes of a value and further arguments. -/
  | filter (name : String) (value : Term) (arguments : List Term)
  /-- The texts of two values, one behind the other. -/
  | concat (first second : Term)
  /-- One of two values, as a condition says. -/
  | choose (yes condition no : Term)
  | negate (term : Term)
  /-- Whether a test holds of a value and further arguments. -/
  | test (name : String) (value : Term) (arguments : List Term)
  /-- The value of a function at some arguments. -/
  | call (function : Term) (arguments : List Term)

/-- The items of a value with a separator between them. -/
def Term.join (items separator : Term) : Term := .filter "join" items [separator]

/-- Whether a value is left open. -/
def Term.isAbsent (value : Term) : Term := .test "none" value []

/-- Passes a message on and leaves nothing in the text. -/
def Term.warn (message : Term) : Term := .call (.name "warn") [message]

/-- A piece of a template. -/
inductive Piece where
  | text (text : String)
  | print (term : Term)
  | choice (condition : Term) (yes no : List Piece)
  /-- The body, once for each item of a value, or else something in its place if there is
  none. -/
  | repetition (item : String) (items : Term) (body otherwise : List Piece)

/-- Why a template has no text. -/
inductive Error where
  /-- The template cannot be read. -/
  | unreadable
  /-- A field is asked for of a value that is undefined. -/
  | fieldOfUndefined (key : String)
  /-- A value has no items. -/
  | noItems
  /-- A value is no function of that many arguments. -/
  | noFunction
  /-- There is no filter of that name and that many arguments. -/
  | noFilter (name : String)
  /-- There is no test of that name and that many arguments. -/
  | noTest (name : String)
deriving DecidableEq

/-- The report of an error. -/
def Error.message : Error → String
  | .unreadable => "template cannot be read"
  | .fieldOfUndefined key => "undefined value has no field '" ++ key ++ "'"
  | .noItems => "value has no items"
  | .noFunction => "value cannot be called with these arguments"
  | .noFilter name => "no filter '" ++ name ++ "' for these arguments"
  | .noTest name => "no test '" ++ name ++ "' for these arguments"

/-- The values of names; the first one counts. -/
abbrev Scope := List (String × Value)

/-- The names of functions, which any template may use. -/
def functions : Scope :=
  ["warn", "range", "dict", "namespace", "debug"].map fun name => (name, .function name)

/-! ### Values of terms -/

/-- The items of a value. -/
def itemsOf (v : Value) : Except Error (List Value) :=
  match v.items? with
  | some items => .ok items
  | none => .error .noItems

/-- The texts of a value's items with a separator between them. -/
def joined (separator : String) (v : Value) : Except Error Value := do
  return .text (String.intercalate separator ((← itemsOf v).map (·.print)))

/-- What a filter makes of a value. `join` joins the items of it, and takes a separator. -/
def filtered (name : String) (v : Value) (arguments : List Value) : Except Error Value :=
  match name, arguments with
  | "join", [] => joined "" v
  | "join", [separator] => joined separator.separator v
  | name, _ => .error (.noFilter name)

/-- Whether a test holds of a value. `none` holds of one that is left open. -/
def tested (name : String) (v : Value) (arguments : List Value) : Except Error Value :=
  match name, arguments with
  | "none", [] => .ok (.bool v.isAbsent)
  | name, _ => .error (.noTest name)

/-- The value of a function at some arguments. -/
def valueAt (function : Value) (arguments : List Value) : Except Error Value :=
  match function.call? arguments with
  | some v => .ok v
  | none => .error .noFunction

mutual

/-- The value of a term in a scope. -/
def Term.eval (scope : Scope) : Term → Except Error Value
  | .name x => .ok ((scope.lookup x).getD .undefined)
  | .literal v => .ok v
  | .field t key => do
    match (← t.eval scope).field? key with
    | some v => .ok v
    | none => .error (.fieldOfUndefined key)
  | .filter name t ts => do filtered name (← t.eval scope) (← evalAll scope ts)
  | .concat s t => do return .text ((← s.eval scope).print ++ (← t.eval scope).print)
  | .choose yes condition no => do
    if (← condition.eval scope).isTrue then yes.eval scope else no.eval scope
  | .negate t => do return .bool (!(← t.eval scope).isTrue)
  | .test name t ts => do tested name (← t.eval scope) (← evalAll scope ts)
  | .call f ts => do valueAt (← f.eval scope) (← evalAll scope ts)

/-- The values of terms in a scope. -/
def evalAll (scope : Scope) : List Term → Except Error (List Value)
  | [] => .ok []
  | t :: ts => do return (← t.eval scope) :: (← evalAll scope ts)

end

/-! ### Rendering -/

/-- The scope of the body of a repetition at an item. -/
def Scope.enter (scope : Scope) (x : String) (item repetition : Value) : Scope :=
  (x, item) :: ("loop", repetition) :: scope

mutual

/-- The text of a piece in a scope. -/
def Piece.render (scope : Scope) : Piece → Except Error String
  | .text s => .ok s
  | .print t => do return (← t.eval scope).print
  | .choice condition yes no => do
    if (← condition.eval scope).isTrue then renderAll scope yes else renderAll scope no
  | .repetition x items body otherwise => do
    let value ← items.eval scope
    let items ← itemsOf value
    if items.isEmpty then renderAll scope otherwise
    else
      let texts ← (Value.repetitions value.size? items).mapM fun (item, repetition) =>
        renderAll (scope.enter x item repetition) body
      return String.join texts

/-- The text of pieces in a scope. -/
def renderAll (scope : Scope) : List Piece → Except Error String
  | [] => .ok ""
  | p :: ps => do return (← p.render scope) ++ (← renderAll scope ps)

end

end Template

/-- A template, as its pieces. -/
abbrev Template := List Template.Piece

/-- The text of a template in a scope. -/
def Template.render (t : Template) (scope : Template.Scope) : Except Template.Error String :=
  Template.renderAll scope t

end Kirchhoff
