/-!
# The shortest decimal of a double

A double stands for all reals that round to it, an interval around its value `m · 2 ^ q`
whose ends belong to it exactly when `m` is even. `Digits.shortest` gives the decimal of
fewest digits inside that interval and, of two such, the one nearer to the value.

The search is exact. For `1, 2, … 17` digits it looks at the two points of that decimal
grid next to the value: if any point of the grid lies in the interval, one of the two
does. The first grid that has one gives the answer.
-/

namespace Kirchhoff.Decimal

/-- A positive decimal `digits · 10 ^ exponent`. -/
structure Digits where
  digits : Nat
  exponent : Int
  deriving DecidableEq

/-- Which of two equally near decimals to take. -/
inductive Tie where
  /-- The greater one. -/
  | up
  /-- The one whose last digit is even. -/
  | even
  deriving DecidableEq

/-- A positive finite double `significand · 2 ^ exponent`. On the edge of a binade the
double below it is only half as far away as the double above. -/
structure Binary where
  significand : Nat
  exponent : Int
  edge : Bool
  deriving DecidableEq

/-- The magnitude of a finite double other than zero, from its bits. -/
def Binary.ofBits (bits : UInt64) : Binary :=
  let field := ((bits >>> 52) &&& 0x7FF).toNat
  let fraction := (bits &&& 0xFFFFFFFFFFFFF).toNat
  if field = 0 then ⟨fraction, -1074, false⟩
  else ⟨Nat.pow 2 52 + fraction, (field : Int) - 1075, fraction = 0 && field > 1⟩

/-- A quotient of naturals, the form in which the value and its interval are compared. -/
structure Quotient where
  num : Nat
  den : Nat
  deriving DecidableEq

/-- `k · 2 ^ e` as a quotient. -/
def Quotient.scaled (k : Nat) (e : Int) : Quotient :=
  if 0 ≤ e then ⟨k * Nat.pow 2 e.toNat, 1⟩ else ⟨k, Nat.pow 2 (-e).toNat⟩

/-- The quotient divided by `10 ^ e`. -/
def Quotient.shift (x : Quotient) (e : Int) : Quotient :=
  if 0 ≤ e then ⟨x.num, x.den * Nat.pow 10 e.toNat⟩ else ⟨x.num * Nat.pow 10 (-e).toNat, x.den⟩

/-- The interval of reals that round to a double, with its value, in units of the decimal
grid `10 ^ e`. -/
structure Interval where
  low : Quotient
  value : Quotient
  high : Quotient
  closed : Bool

/-- The interval of a double on the grid `10 ^ e`. -/
def Binary.interval (x : Binary) (e : Int) : Interval :=
  let point (k : Nat) := (Quotient.scaled k (x.exponent - 2)).shift e
  { low := point (4 * x.significand - if x.edge then 1 else 2)
    value := point (4 * x.significand)
    high := point (4 * x.significand + 2)
    closed := x.significand % 2 = 0 }

/-- A point of the grid lies in the interval. -/
def Interval.has (i : Interval) (d : Nat) : Bool :=
  if i.closed then i.low.num ≤ d * i.low.den && d * i.high.den ≤ i.high.num
  else i.low.num < d * i.low.den && d * i.high.den < i.high.num

/-- The point of the grid in the interval that is nearest to the value, if there is one. -/
def Interval.nearest? (i : Interval) (tie : Tie) : Option Nat :=
  let d := i.value.num / i.value.den
  let below := i.has d && d != 0
  let above := i.has (d + 1)
  if below && above then
    let twice := 2 * (i.value.num % i.value.den)
    if twice < i.value.den then some d
    else if i.value.den < twice then some (d + 1)
    else match tie with
      | .up => some (d + 1)
      | .even => some (if d % 2 = 0 then d else d + 1)
  else if below then some d
  else if above then some (d + 1)
  else none

/-- The value of a double is at least `10 ^ k`. -/
def Binary.reaches (x : Binary) (k : Int) : Bool :=
  let scaled := (Quotient.scaled x.significand x.exponent).shift k
  scaled.den ≤ scaled.num

/-- The number of digits before the decimal point of a double, negative when zeros follow
the point: the `k` with `10 ^ (k - 1) ≤ value < 10 ^ k`. The greatest power of two below the
value, `2 ^ b`, leaves two candidates, which follow the whole part of `b · log 2`. That part
comes out right with five places of the logarithm, since up to `2 ^ 1100` no power of two is
nearer than a thousandth to a power of ten. -/
def Binary.magnitude (x : Binary) : Int :=
  let b := (x.significand.log2 : Int) + x.exponent
  let k := b * 30103 / 100000 + 1
  if x.reaches k then k + 1 else k

/-- The first grid, of at most `more` further digits, that has a point in the interval. -/
def Binary.search (x : Binary) (tie : Tie) : Nat → Int → Digits
  | 0, e => ⟨(x.interval e).value.num / (x.interval e).value.den, e⟩
  | more + 1, e =>
    match (x.interval e).nearest? tie with
    | some d => ⟨d, e⟩
    | none => x.search tie more (e - 1)

/-- A decimal without zeros at its end. -/
def Digits.strip : Nat → Digits → Digits
  | 0, d => d
  | fuel + 1, d =>
    if d.digits ≠ 0 ∧ d.digits % 10 = 0 then strip fuel ⟨d.digits / 10, d.exponent + 1⟩ else d

/-- The shortest decimal that reads back as the double. -/
def Digits.shortest (tie : Tie) (x : Binary) : Digits :=
  (x.search tie 17 (x.magnitude - 1)).strip 20

end Kirchhoff.Decimal
