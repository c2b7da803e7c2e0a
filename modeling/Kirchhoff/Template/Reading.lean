import Kirchhoff.Template.Token

/-!
# Reading templates

A term is a name, a quoted text, a number, a word for a fixed value or a term in parentheses;
fields and arguments of it, then filters and tests may follow. `| f(s)` passes it to a filter
and `is t` to a test, of which the single argument needs no parentheses. `~` joins texts, `not`
denies and `a if c else b` chooses. Pieces are told by the words `if`, `for`, `else`, `endif`
and `endfor`; they may be nested. What pieces depend on and go through is no choice, unless in
parentheses. Pieces and terms together are nested at most `nestingLimit` deep.
-/

namespace Kirchhoff

namespace Template

/-! ### Terms -/

/-- How deep pieces and terms may be nested. A piece counts one. A term counts one where it may
be a choice: in a place to be filled, between parentheses and as an argument. What a term begins
with, a name or a parenthesis, counts one more. -/
def nestingLimit : Nat := 150

/-- What is left of some tokens behind a mark. -/
def mark? (c : Char) : List Token → Option (List Token)
  | .mark d :: ts => if c = d then some ts else none
  | _ => none

/-- The term of a word: a fixed value or a name. -/
def wordTerm : String → Term
  | "true" | "True" => .literal (.bool true)
  | "false" | "False" => .literal (.bool false)
  | "none" | "None" => .literal .absent
  | x => .name x

/-- An argument of a test that stands without parentheses begins the tokens. -/
def beginsArgument : List Token → Bool
  | .word x :: _ => !(["and", "or", "else", "is"].contains x)
  | .text _ :: _ | .count _ :: _ | .real _ :: _ => true
  | _ => false

mutual

/-- Reads a term that may be a choice. The fuel bounds the readers; `room` is how deep the term
may be nested. -/
def term? : (fuel room : Nat) → List Token → Option (Term × List Token)
  | 0, _, _ | _ + 1, 0, _ => none
  | fuel + 1, room + 1, ts => choice? fuel room ts

/-- Reads a term, and the conditions on which it is chosen. -/
def choice? : (fuel room : Nat) → List Token → Option (Term × List Token)
  | 0, _, _ => none
  | fuel + 1, room, ts => do
    let (t, ts) ← denial? fuel room ts
    choices? fuel room t ts

/-- Reads the conditions on which a term is chosen. -/
def choices? : (fuel room : Nat) → Term → List Token → Option (Term × List Token)
  | 0, _, _, _ => none
  | fuel + 1, room, yes, .word "if" :: ts => do
    let (condition, ts) ← denial? fuel room ts
    match ts with
    | .word "else" :: ts =>
      let (no, ts) ← choice? fuel room ts
      choices? fuel room (.choose yes condition no) ts
    | ts => choices? fuel room (.choose yes condition (.literal .undefined)) ts
  | _ + 1, _, t, ts => some (t, ts)

/-- Reads a term that may be denied. -/
def denial? : (fuel room : Nat) → List Token → Option (Term × List Token)
  | 0, _, _ => none
  | fuel + 1, room, .word "not" :: ts =>
    (denial? fuel room ts).map fun (t, ts) => (.negate t, ts)
  | fuel + 1, room, ts => do
    let (t, ts) ← operand? fuel room ts
    concats? fuel room t ts

/-- Reads further terms to be joined to a term. -/
def concats? : (fuel room : Nat) → Term → List Token → Option (Term × List Token)
  | 0, _, _, _ => none
  | fuel + 1, room, first, .mark '~' :: ts => do
    let (second, ts) ← operand? fuel room ts
    concats? fuel room (.concat first second) ts
  | _ + 1, _, first, ts => some (first, ts)

/-- Reads a term without anything to be joined. -/
def operand? : (fuel room : Nat) → List Token → Option (Term × List Token)
  | 0, _, _ => none
  | fuel + 1, room, ts => do
    let (t, ts) ← subject? fuel room ts
    filters? fuel room t ts

/-- Reads a term without filters and tests. -/
def subject? : (fuel room : Nat) → List Token → Option (Term × List Token)
  | 0, _, _ => none
  | fuel + 1, room, ts => do
    let (t, ts) ← start? fuel room ts
    suffixes? fuel room t ts

/-- Reads what a term begins with. -/
def start? : (fuel room : Nat) → List Token → Option (Term × List Token)
  | 0, _, _ | _ + 1, 0, _ => none
  | _ + 1, _ + 1, .text s :: ts => some (.literal (.text s), ts)
  | _ + 1, _ + 1, .count n :: ts => some (.literal (.count n), ts)
  | _ + 1, _ + 1, .real x :: ts => some (.literal (.real x), ts)
  | _ + 1, _ + 1, .word x :: ts => some (wordTerm x, ts)
  | fuel + 1, room + 1, .mark '(' :: ts => do
    let (t, ts) ← term? fuel room ts
    return (t, ← mark? ')' ts)
  | _ + 1, _ + 1, _ => none

/-- Reads the fields and arguments that may follow a term. -/
def suffixes? : (fuel room : Nat) → Term → List Token → Option (Term × List Token)
  | 0, _, _, _ => none
  | fuel + 1, room, t, .mark '.' :: .word key :: ts => suffixes? fuel room (.field t key) ts
  | fuel + 1, room, t, .mark '(' :: ts => do
    let (arguments, ts) ← arguments? fuel room ts
    suffixes? fuel room (.call t arguments) ts
  | _ + 1, _, t, ts => some (t, ts)

/-- Reads arguments up to the parenthesis that closes them. A comma may follow the last one. -/
def arguments? : (fuel room : Nat) → List Token → Option (List Term × List Token)
  | 0, _, _ => none
  | _ + 1, _, .mark ')' :: ts => some ([], ts)
  | fuel + 1, room, ts => do
    let (t, ts) ← term? fuel room ts
    match ts with
    | .mark ')' :: ts => return ([t], ts)
    | .mark ',' :: ts =>
      let (further, ts) ← arguments? fuel room ts
      return (t :: further, ts)
    | _ => none

/-- Reads the filters and tests that may follow a term. -/
def filters? : (fuel room : Nat) → Term → List Token → Option (Term × List Token)
  | 0, _, _, _ => none
  | fuel + 1, room, t, .mark '|' :: .word name :: .mark '(' :: ts => do
    let (further, ts) ← arguments? fuel room ts
    filters? fuel room (.filter name t further) ts
  | fuel + 1, room, t, .mark '|' :: .word name :: ts =>
    filters? fuel room (.filter name t []) ts
  | fuel + 1, room, t, .word "is" :: .word "not" :: .word name :: ts => do
    let (further, ts) ← testArguments? fuel room ts
    filters? fuel room (.negate (.test name t further)) ts
  | _ + 1, _, _, .word "is" :: .word "not" :: _ => none
  | fuel + 1, room, t, .word "is" :: .word name :: ts => do
    let (further, ts) ← testArguments? fuel room ts
    filters? fuel room (.test name t further) ts
  | _ + 1, _, t, ts => some (t, ts)

/-- Reads the arguments of a test: some in parentheses, or a single one without filters. -/
def testArguments? : (fuel room : Nat) → List Token → Option (List Term × List Token)
  | 0, _, _ => none
  | fuel + 1, room, .mark '(' :: ts => arguments? fuel room ts
  | fuel + 1, room, ts =>
    if beginsArgument ts then (subject? fuel room ts).map fun (t, ts) => ([t], ts)
    else some ([], ts)

end

/-- Fuel for the readers of some tokens: each token takes at most eight of them. -/
def fuelFor (ts : List Token) : Nat := 8 * ts.length + 8

/-- The term of all the tokens that a reader has to read. -/
def whole? (result : Option (Term × List Token)) : Option Term :=
  match result with
  | some (t, []) => some t
  | _ => none

/-! ### Pieces -/

/-- A piece that is not complete: its first alternative or its second one, its body or what
stands in its place. -/
inductive OpenPiece where
  | yes (condition : Term) (yes : List Piece)
  | no (condition : Term) (yes no : List Piece)
  | body (item : String) (items : Term) (body : List Piece)
  | otherwise (item : String) (items : Term) (body otherwise : List Piece)

/-- A piece that is not complete, with a further piece in it. -/
def OpenPiece.add (p : Piece) : OpenPiece → OpenPiece
  | .yes c ps => .yes c (ps ++ [p])
  | .no c ps qs => .no c ps (qs ++ [p])
  | .body x xs ps => .body x xs (ps ++ [p])
  | .otherwise x xs ps qs => .otherwise x xs ps (qs ++ [p])

/-- A piece at the word `else`. -/
def OpenPiece.turn? : OpenPiece → Option OpenPiece
  | .yes c ps => some (.no c ps [])
  | .body x xs ps => some (.otherwise x xs ps [])
  | .no _ _ _ | .otherwise _ _ _ _ => none

/-- A piece at the word that ends it. -/
def OpenPiece.close? (word : String) : OpenPiece → Option Piece
  | .yes c ps => if word = "endif" then some (.choice c ps []) else none
  | .no c ps qs => if word = "endif" then some (.choice c ps qs) else none
  | .body x xs ps => if word = "endfor" then some (.repetition x xs ps []) else none
  | .otherwise x xs ps qs => if word = "endfor" then some (.repetition x xs ps qs) else none

/-- Words that do not name the items of a repetition. -/
def reservedNames : List String :=
  ["true", "True", "false", "False", "none", "None", "loop", "self", "in"]

/-- A template in the course of reading: complete pieces, and those that are not complete,
the innermost first. -/
structure Draft where
  pieces : List Piece := []
  opened : List OpenPiece := []

namespace Draft

/-- How deep a term may be nested in a tag of the draft, in `depth` further pieces. -/
def room (d : Draft) (depth : Nat) : Nat := nestingLimit - (d.opened.length + depth)

/-- Adds a complete piece. -/
def add (d : Draft) (p : Piece) : Draft :=
  match d.opened with
  | [] => { d with pieces := d.pieces ++ [p] }
  | o :: os => { d with opened := o.add p :: os }

/-- Begins a piece. -/
def begin (d : Draft) (o : OpenPiece) : Draft := { d with opened := o :: d.opened }

/-- Begins a piece that depends on a condition. -/
def beginChoice? (d : Draft) (ts : List Token) : Option Draft := do
  let condition ← whole? (denial? (fuelFor ts) (d.room 1) ts)
  return d.begin (.yes condition [])

/-- Begins a piece that is repeated. -/
def beginRepetition? (d : Draft) (item : String) (ts : List Token) : Option Draft := do
  let items ← whole? (denial? (fuelFor ts) (d.room 1) ts)
  if reservedNames.contains item then none else return d.begin (.body item items [])

/-- Goes on at a percent tag. -/
def turn? (d : Draft) (ts : List Token) : Option Draft :=
  match ts, d.opened with
  | .word "if" :: ts, _ => d.beginChoice? ts
  | .word "for" :: .word x :: .word "in" :: ts, _ => d.beginRepetition? x ts
  | [.word "else"], o :: os => do return { d with opened := (← o.turn?) :: os }
  | [.word w], o :: os => do return { d with opened := os }.add (← o.close? w)
  | _, _ => none

/-- Adds a piece that prints a value. -/
def print? (d : Draft) (ts : List Token) : Option Draft := do
  return d.add (.print (← whole? (term? (fuelFor ts) (d.room 0) ts)))

/-- Goes on at a part of the template. -/
def step? (d : Draft) : Part → Option Draft
  | .text cs => some (d.add (.text (String.ofList cs)))
  | .comment => some d
  | .tag .print content => do d.print? (← tokens? content)
  | .tag .piece content => do d.turn? (← tokens? content)

end Draft

end Template

/-- Reads a template. -/
def Template.read? (source : String) : Option Template := do
  let d ← (← Template.parts? source).foldlM Template.Draft.step? {}
  if d.opened.isEmpty then some d.pieces else none

end Kirchhoff
