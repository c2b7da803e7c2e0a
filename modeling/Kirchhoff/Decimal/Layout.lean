import Kirchhoff.Decimal.Shortest

/-!
# Writing doubles

The digits of a double are always the shortest that read back (`Digits.shortest`). A
`Layout` decides the rest: which magnitudes are written positionally, whether a whole
number keeps a zero behind its point, and how an exponent is signed. The library has
four of them: `Layout.literal` for formulas and generated code, `Layout.plain` for
messages, `Layout.point` for templates, `Layout.json` for JSON documents.
-/

namespace Kirchhoff.Decimal

/-- The decisions in which ways of writing a double differ. -/
structure Layout where
  /-- Of two equally near shortest decimals, the one taken. -/
  tie : Tie
  /-- The powers of ten `10 ^ low ≤ |x| < 10 ^ high` between which a number is written
  positionally; `none` when every number is. -/
  positional : Option (Int × Int)
  /-- A whole number is written with `.0`. -/
  pointZero : Bool
  /-- A positive exponent is written with a plus sign. -/
  plusExponent : Bool

/-- Numbers in formulas: positional from `0.0001` up to `10 ^ 16`, always with a point or
an exponent. -/
def Layout.literal : Layout := ⟨.up, some (-4, 16), true, false⟩

/-- Numbers in messages: always positional, whole numbers without a point. -/
def Layout.plain : Layout := ⟨.up, none, false, false⟩

/-- Numbers in templates: always positional, always with a point. -/
def Layout.point : Layout := ⟨.up, none, true, false⟩

/-- Numbers in JSON documents: positional from `0.00001` up to `10 ^ 16`. -/
def Layout.json : Layout := ⟨.even, some (-5, 16), true, true⟩

/-- A number whose point stands behind its first `point` digits is written positionally. -/
def Layout.isPositional (l : Layout) (point : Int) : Bool :=
  match l.positional with
  | none => true
  | some (low, high) => low < point && point ≤ high

/-- Digits with the point behind the first `point` of them, zeros filled in. -/
def Layout.positionalText (l : Layout) (ds : List Char) (point : Int) : List Char :=
  let zeros (n : Int) := List.replicate n.toNat '0'
  if point ≤ 0 then '0' :: '.' :: (zeros (-point) ++ ds)
  else if (ds.length : Int) ≤ point then
    ds ++ zeros (point - ds.length) ++ (if l.pointZero then ['.', '0'] else [])
  else ds.take point.toNat ++ '.' :: ds.drop point.toNat

/-- Digits with the point behind the first of them, and an exponent. -/
def Layout.exponentText (l : Layout) (ds : List Char) (point : Int) : List Char :=
  let exponent := point - 1
  let sign := if exponent < 0 then ['-'] else if l.plusExponent then ['+'] else []
  ds.take 1 ++ (if ds.length ≤ 1 then [] else '.' :: ds.drop 1)
    ++ 'e' :: (sign ++ exponent.natAbs.repr.toList)

/-- The text of a positive decimal. -/
def Layout.digitsText (l : Layout) (d : Digits) : List Char :=
  let ds := d.digits.repr.toList
  let point := ds.length + d.exponent
  if l.isPositional point then l.positionalText ds point else l.exponentText ds point

/-- The text of the magnitude of a double. -/
def Layout.magnitudeText (l : Layout) (x : Float) : String :=
  if !x.isFinite then "inf"
  else
    let b := Binary.ofBits x.toBits
    if b.significand = 0 then (if l.pointZero then "0.0" else "0")
    else String.ofList (l.digitsText (.shortest l.tie b))

/-- The text of a double. -/
def Layout.text (l : Layout) (x : Float) : String :=
  if x.isNaN then "NaN"
  else if x.toBits >>> 63 = 1 then "-" ++ l.magnitudeText x
  else l.magnitudeText x

end Kirchhoff.Decimal
