import Kirchhoff.Decimal.Reading
import Kirchhoff.Template.Basic
import Kirchhoff.Template.Literal
import Kirchhoff.Text.Blank

/-!
# Tags of templates

A template as text is cut into plain text and tags. A tag in double braces stands for a
value, one in braces with percent signs begins or ends a piece, and one in braces with number
signs is a comment; quoted text in a tag of a value or piece may hold anything. The words in
such a tag are its tokens.

* One newline at the end of a template does not count.
* A newline right behind a percent tag or comment is cut off.
* Blanks between the start of a line and a percent tag or comment are cut off.

A newline is a line feed, a carriage return, or both in the other order.
-/

namespace Kirchhoff.Template

/-! ### Cutting -/

/-- Tags that print a value, and tags that begin or end a piece. -/
inductive TagKind where
  | print
  | piece
deriving DecidableEq

/-- A part of a template: plain text, what stands in a tag, or a comment. -/
inductive Part where
  | text (text : List Char)
  | tag (kind : TagKind) (content : List Char)
  | comment

/-- Where the cutting is: in text, in a tag, in a quoted text in a tag, or in a comment. What
has been passed there is held in reverse. -/
inductive Cutting where
  | text (passed : List Char)
  | tag (kind : TagKind) (passed : List Char)
  | quoted (kind : TagKind) (quote : Char) (passed : List Char)
  | comment

/-- Cuts a template into parts. A tag or comment that does not end has none. -/
def cut? : Cutting → List Char → Option (List Part)
  | .text passed, [] => some [.text passed.reverse]
  | .text passed, '\x7b' :: '\x7b' :: cs =>
    (cut? (.tag .print []) cs).map (.text passed.reverse :: ·)
  | .text passed, '\x7b' :: '%' :: cs =>
    (cut? (.tag .piece []) cs).map (.text passed.reverse :: ·)
  | .text passed, '\x7b' :: '#' :: cs => (cut? .comment cs).map (.text passed.reverse :: ·)
  | .text passed, c :: cs => cut? (.text (c :: passed)) cs
  | .tag .print passed, '\x7d' :: '\x7d' :: cs =>
    (cut? (.text []) cs).map (.tag .print passed.reverse :: ·)
  | .tag .piece passed, '%' :: '\x7d' :: cs =>
    (cut? (.text []) cs).map (.tag .piece passed.reverse :: ·)
  | .tag kind passed, c :: cs =>
    if c = '"' ∨ c = '\'' then cut? (.quoted kind c (c :: passed)) cs
    else cut? (.tag kind (c :: passed)) cs
  | .quoted kind quote passed, '\\' :: c :: cs =>
    cut? (.quoted kind quote (c :: '\\' :: passed)) cs
  | .quoted kind quote passed, c :: cs =>
    if c = quote then cut? (.tag kind (c :: passed)) cs
    else cut? (.quoted kind quote (c :: passed)) cs
  | .comment, '#' :: '\x7d' :: cs => (cut? (.text []) cs).map (.comment :: ·)
  | .comment, _ :: cs => cut? .comment cs
  | .tag _ _, [] | .quoted _ _ _, [] | .comment, [] => none

/-! ### Newlines -/

/-- A character of a newline. -/
def isNewline (c : Char) : Bool := c = '\n' || c = '\r'

/-- A text without one character at its start. -/
def dropChar (c : Char) : List Char → List Char
  | d :: cs => if c = d then cs else d :: cs
  | [] => []

/-- A text without the newline at its start. -/
def cutNewline (cs : List Char) : List Char := dropChar '\n' (dropChar '\r' cs)

/-- A template without the newline at its end. -/
def dropFinalNewline (cs : List Char) : List Char :=
  (dropChar '\r' (dropChar '\n' cs.reverse)).reverse

/-! ### Lines with percent tags and comments -/

/-- Behind the reversed text only blanks follow the start of a line. `isFirst` tells that
nothing stands before the text. -/
def endsAtLineStart (isFirst : Bool) : List Char → Bool
  | [] => isFirst
  | c :: cs => isNewline c || (Text.isBlank c && endsAtLineStart isFirst cs)

/-- Text without the blanks at its end, if they are all of it or follow a line feed. -/
def cutBlanks (cs : List Char) : List Char :=
  let rest := (cs.reverse.dropWhile fun c => Text.isBlank c && !isNewline c).reverse
  if rest.getLast?.all (· = '\n') then rest else cs

/-- A percent tag or comment. -/
def Part.ownsLine : Part → Bool
  | .tag .piece _ | .comment => true
  | _ => false

/-- Cuts blanks and newlines beside percent tags and comments. `isFirst` tells that nothing
stands before the parts, and `behind` that a percent tag or comment does. -/
def tidy (isFirst behind : Bool) : List Part → List Part
  | [] => []
  | .text cs :: ps =>
    let rest := if behind then cutNewline cs else cs
    let atStart := ps.head?.any Part.ownsLine && endsAtLineStart isFirst cs.reverse
    .text (if atStart then cutBlanks rest else rest) :: tidy false false ps
  | p :: ps => p :: tidy false p.ownsLine ps

/-- The parts of a template. -/
def parts? (source : String) : Option (List Part) :=
  (cut? (.text []) (dropFinalNewline source.toList)).map (tidy true false)

/-! ### Tokens -/

/-- A token in a tag. -/
inductive Token where
  | word (text : String)
  | count (value : Nat)
  | real (value : Float)
  | text (text : String)
  | mark (char : Char)

/-- How far a number has been read. -/
inductive NumberStage where
  /-- Behind a zero that the number begins with. -/
  | zero
  | whole
  /-- Behind the mark of a base other than ten. -/
  | based (base : Nat)
  | fraction
  /-- Behind the letter of the exponent. -/
  | exponent
  | exponentDigits
deriving DecidableEq

namespace NumberStage

/-- The base that a letter behind a zero tells. -/
def base? (c : Char) : Option Nat :=
  match c.toLower with
  | 'b' => some 2
  | 'o' => some 8
  | 'x' => some 16
  | _ => none

/-- The stage of a whole number behind a further character, if the number goes on with it. -/
def stepWhole? (c : Char) : Option NumberStage :=
  if c.isDigit then some .whole
  else if c = '.' then some .fraction
  else if c = 'e' ∨ c = 'E' then some .exponent
  else none

/-- The stage of a number behind a further character, if the number goes on with it. Low lines
may stand anywhere in it. -/
def step? (s : NumberStage) (c : Char) : Option NumberStage :=
  if c = '_' then some (if s = .zero then .whole else s)
  else match s with
  | .zero => ((base? c).map .based).or (stepWhole? c)
  | .whole => stepWhole? c
  | .based base => if c.isDigit ∨ base = 16 ∧ (digit? 16 c).isSome then some s else none
  | .fraction =>
    if c.isDigit then some .fraction
    else if c = 'e' ∨ c = 'E' then some .exponent
    else none
  | .exponent => if c.isDigit ∨ c = '+' ∨ c = '-' then some .exponentDigits else none
  | .exponentDigits => if c.isDigit then some .exponentDigits else none

end NumberStage

/-- The token of a whole number, which has at least one digit and at most 128 bits. -/
def countToken? (base : Nat) (ds : List Char) : Option Token := do
  let n ← digits? base ds
  if ds.isEmpty ∨ Nat.pow 2 128 ≤ n then none else some (.count n)

/-- The token of a number. It does not end with a low line. -/
def numberToken? (s : NumberStage) (cs : List Char) : Option Token :=
  let ds := cs.filter (· ≠ '_')
  if cs.getLast? = some '_' then none
  else match s with
  | .zero | .whole => countToken? 10 ds
  | .based base => countToken? base (ds.drop 2)
  | .fraction | .exponent | .exponentDigits => (Decimal.read? ds).map .real

/-- The token that is being read. What has been read of it is held in reverse. -/
inductive Reading where
  | nothing
  | word (passed : List Char)
  | number (stage : NumberStage) (passed : List Char)
  | quoted (quote : Char) (passed : List Char)
  /-- Behind a backslash in a quoted text. -/
  | escaped (quote : Char) (passed : List Char)

/-- A character that may stand between tokens. -/
def isGap (c : Char) : Bool := c.isWhitespace || c = '\x0c'

/-- A character that a word may begin with. -/
def isWordStart (c : Char) : Bool := c.isAlpha || c == '_'

/-- A character that a word may go on with. -/
def isWordRest (c : Char) : Bool := isWordStart c || c.isDigit

/-- Begins to read at a character: tokens that are complete, and what is being read. -/
def Reading.start? (c : Char) : Option (List Token × Reading) :=
  if isGap c then some ([], .nothing)
  else if isWordStart c then some ([], .word [c])
  else if c.isDigit then some ([], .number (if c = '0' then .zero else .whole) [c])
  else if c = '"' ∨ c = '\'' then some ([], .quoted c [])
  else if ['.', '|', '(', ')', '~', ','].contains c then some ([.mark c], .nothing)
  else none

/-- The word of its reversed characters. -/
def wordToken (passed : List Char) : Token := .word (String.ofList passed.reverse)

/-- Goes on reading at a character. -/
def Reading.step? (r : Reading) (c : Char) : Option (List Token × Reading) :=
  match r with
  | .nothing => start? c
  | .word passed =>
    if isWordRest c then some ([], .word (c :: passed))
    else (start? c).map fun (ts, r) => (wordToken passed :: ts, r)
  | .number stage passed =>
    match stage.step? c with
    | some stage => some ([], .number stage (c :: passed))
    | none => do
      let number ← numberToken? stage passed.reverse
      let (ts, r) ← start? c
      return (number :: ts, r)
  | .quoted quote passed =>
    if c = quote then do return ([.text (← unquote? passed.reverse)], .nothing)
    else if c = '\\' then some ([], .escaped quote (c :: passed))
    else some ([], .quoted quote (c :: passed))
  | .escaped quote passed => some ([], .quoted quote (c :: passed))

/-- Ends the reading. -/
def Reading.stop? : Reading → Option (List Token)
  | .nothing => some []
  | .word passed => some [wordToken passed]
  | .number stage passed => do return [← numberToken? stage passed.reverse]
  | .quoted _ _ | .escaped _ _ => none

/-- The tokens of characters that follow what is being read. -/
def Reading.tokens? : Reading → List Char → Option (List Token)
  | r, [] => r.stop?
  | r, c :: cs => do
    let (ts, r) ← r.step? c
    return ts ++ (← r.tokens? cs)

/-- The tokens of a tag. -/
def tokens? (content : List Char) : Option (List Token) := Reading.nothing.tokens? content

end Kirchhoff.Template
