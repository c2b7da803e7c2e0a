import Kirchhoff.Text.Blank

/-!
# Reading doubles

A number is an optional sign followed by `inf`, `infinity` or `nan` in any case, or by
decimal digits with at most one point among, before or behind them, and an optional
exponent. There is at least one digit, and nothing else: no blanks, no separators. The
value is the double nearest to the decimal.
-/

namespace Kirchhoff.Decimal

/-- Reads a list of digits as a natural number. -/
def digitsValue (ds : List Char) : Nat := ds.foldl (fun n c => 10 * n + (c.toNat - '0'.toNat)) 0

/-- The double nearest to `mantissa · 10 ^ exponent`. Magnitudes that no double can reach
are cut off first. -/
def nearest (mantissa : Nat) (exponent : Int) : Float :=
  let point := mantissa.repr.length + exponent
  if mantissa = 0 then 0
  else if 400 < point then 1 / 0
  else if point < -400 then 0
  else Float.ofScientific mantissa (decide (exponent < 0)) exponent.natAbs

/-- Splits an optional sign off; `true` for a minus. -/
def readSign : List Char → Bool × List Char
  | '-' :: cs => (true, cs)
  | '+' :: cs => (false, cs)
  | cs => (false, cs)

/-- The exponent behind the digits: nothing at all, or an `e` with a signed number. -/
def readExponent? : List Char → Option Int
  | [] => some 0
  | c :: cs =>
    if c = 'e' ∨ c = 'E' then
      let (minus, ds) := readSign cs
      if ds.isEmpty || !ds.all Char.isDigit then none
      else some (if minus then -(digitsValue ds : Int) else digitsValue ds)
    else none

/-- An unsigned decimal. -/
def readDecimal? (cs : List Char) : Option Float := do
  let whole := cs.takeWhile Char.isDigit
  let rest := cs.dropWhile Char.isDigit
  let (fraction, rest) := match rest with
    | '.' :: rest => (rest.takeWhile Char.isDigit, rest.dropWhile Char.isDigit)
    | rest => ([], rest)
  let ds := whole ++ fraction
  if ds.isEmpty then none
  else
    let exponent ← readExponent? rest
    some (nearest (digitsValue ds) (exponent - fraction.length))

/-- An unsigned number, a word for infinity or an undefined value. -/
def readUnsigned? (cs : List Char) : Option Float :=
  match String.ofList (cs.map Char.toLower) with
  | "inf" | "infinity" => some (1 / 0)
  | "nan" => some (0 / 0)
  | _ => readDecimal? cs

/-- The double that a text stands for, if it is a number. -/
def read? (text : List Char) : Option Float :=
  let (minus, cs) := readSign text
  (readUnsigned? cs).map fun x => if minus then -x else x

end Kirchhoff.Decimal
