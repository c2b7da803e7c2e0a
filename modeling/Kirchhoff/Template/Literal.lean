/-!
# Literals in tags

What stands between the quotation marks of a text in a tag. A backslash begins an escape:

* a letter for a character, such as `n` for the newline;
* `x` and two hexadecimal digits, or up to three octal digits, for a character below 256;
* `u` and four hexadecimal digits for a 16-bit unit, where two units that are the halves of
  one character have to stand together.

A backslash before anything else stands for itself.
-/

namespace Kirchhoff.Template

/-! ### Numbers in escapes -/

/-- The value of a digit, if it is one in a base of at most sixteen. -/
def digit? (base : Nat) (c : Char) : Option Nat :=
  let n :=
    if c.isDigit then c.toNat - '0'.toNat
    else if 'a' ≤ c ∧ c ≤ 'f' then c.toNat - 'a'.toNat + 10
    else if 'A' ≤ c ∧ c ≤ 'F' then c.toNat - 'A'.toNat + 10
    else base
  if n < base then some n else none

/-- The number that digits stand for. -/
def digits? (base : Nat) (cs : List Char) : Option Nat :=
  cs.foldlM (fun n c => (digit? base c).map (base * n + ·)) 0

/-- The number of some hexadecimal characters, of which the first may be a plus. -/
def hexadecimal? : List Char → Option Nat
  | '+' :: c :: cs => digits? 16 (c :: cs)
  | cs => digits? 16 cs

/-! ### Escapes -/

/-- What an escape stands for: a character, or a unit of 16 bits. -/
inductive Mark where
  | char (char : Char)
  | unit (value : Nat)

/-- What has been read of an escape. What is read of a number is held in reverse. -/
inductive Escape where
  | nothing
  | backslash
  | byte (passed : List Char)
  | unit (passed : List Char)
  | octal (passed : List Char)

/-- The character that a letter stands for in an escape. -/
def letterChar? (c : Char) : Option Char :=
  match c with
  | '"' | '\\' | '/' | '\'' => some c
  | 'b' => some '\x08'
  | 'f' => some '\x0c'
  | 'n' => some '\n'
  | 'r' => some '\r'
  | 't' => some '\t'
  | _ => none

/-- The character with a code below 256. -/
def byteMark? (code : Nat) : Option Mark :=
  if code < 256 then some (.char (Char.ofNat code)) else none

namespace Escape

/-- Begins to read at a character. -/
def start (c : Char) : List Mark × Escape :=
  if c = '\\' then ([], .backslash) else ([.char c], .nothing)

/-- Goes on reading at a character behind a backslash. -/
def enter (c : Char) : List Mark × Escape :=
  match letterChar? c with
  | some d => ([.char d], .nothing)
  | none =>
    if c = 'x' then ([], .byte [])
    else if c = 'u' then ([], .unit [])
    else if (digit? 8 c).isSome then ([], .octal [c])
    else ([.char '\\', .char c], .nothing)

/-- The character of reversed octal digits. -/
def octalMark? (passed : List Char) : Option Mark := do byteMark? (← digits? 8 passed.reverse)

/-- Goes on reading at a character. -/
def step? (e : Escape) (c : Char) : Option (List Mark × Escape) :=
  match e with
  | .nothing => some (start c)
  | .backslash => some (enter c)
  | .byte passed => do
    if passed.length < 1 then return ([], .byte (c :: passed))
    return ([← byteMark? (← hexadecimal? (c :: passed).reverse)], .nothing)
  | .unit passed => do
    if passed.length < 3 then return ([], .unit (c :: passed))
    return ([.unit (← hexadecimal? (c :: passed).reverse)], .nothing)
  | .octal passed => do
    if passed.length < 3 ∧ (digit? 8 c).isSome then return ([], .octal (c :: passed))
    let (ms, e) := start c
    return ((← octalMark? passed) :: ms, e)

/-- Ends the reading. -/
def stop? : Escape → Option (List Mark)
  | .nothing => some []
  | .octal passed => (octalMark? passed).map ([·])
  | .backslash | .byte _ | .unit _ => none

/-- What characters stand for that follow what has been read. -/
def marks? : Escape → List Char → Option (List Mark)
  | e, [] => e.stop?
  | e, c :: cs => do
    let (ms, e) ← e.step? c
    return ms ++ (← e.marks? cs)

end Escape

/-! ### Units -/

/-- A unit that is the first half of a character. -/
def isFirstHalf (n : Nat) : Bool := 0xD800 ≤ n && n < 0xDC00

/-- A unit that is the second half of a character. -/
def isSecondHalf (n : Nat) : Bool := 0xDC00 ≤ n && n < 0xE000

/-- The character of two halves. -/
def wholeChar (first second : Nat) : Char :=
  Char.ofNat (0x10000 + (first - 0xD800) * 0x400 + (second - 0xDC00))

/-- The characters of marks. Halves have to come in pairs, the first half first. -/
def joinUnits? : List Mark → Option (List Char)
  | [] => some []
  | .char c :: ms => (joinUnits? ms).map (c :: ·)
  | .unit n :: ms =>
    if isFirstHalf n then
      match ms with
      | .unit m :: ms =>
        if isSecondHalf m then (joinUnits? ms).map (wholeChar n m :: ·) else none
      | _ => none
    else if isSecondHalf n then none
    else (joinUnits? ms).map (Char.ofNat n :: ·)

/-- The text that stands between quotation marks. -/
def unquote? (cs : List Char) : Option String := do
  return String.ofList (← joinUnits? (← Escape.nothing.marks? cs))

end Kirchhoff.Template
