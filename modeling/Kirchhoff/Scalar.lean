/-!
# Scalars

The numbers that coefficients and exponents are made of. An expression is built over
any `Scalar`, so one set of definitions serves two readings: over `Float` it is the
program, over `Rat` it is exact and can be reasoned about.

A scalar has the four operations, a Boolean equality and an order that may both be
those of floating point (a value that differs from itself is allowed), and two partial
operations: `power?` gives `b ^ e` where the scalar type has a value for it, and
`function?` the value of an elementary function of one argument.
-/

namespace Kirchhoff

/-- The operations on numbers that expressions, their canonical form and the solver need. -/
class Scalar (α : Type) extends Zero α, One α, Neg α, Add α, Mul α, Div α, BEq α, LT α, LE α where
  /-- The order can be tested. -/
  decideLT : DecidableLT α
  /-- The weak order can be tested. -/
  decideLE : DecidableLE α
  /-- The number is finite and has no fractional part. -/
  isInteger : α → Bool
  /-- The number is an ordinary number, neither infinite nor undefined. -/
  isFinite : α → Bool
  /-- The value of a power, where it has one. -/
  power? : α → α → Option α
  /-- The value of an elementary function at a number, where it has one. -/
  function? : String → α → Option α

namespace Scalar

variable {α : Type} [Scalar α]

instance : DecidableLT α := decideLT

instance : DecidableLE α := decideLE

/-- The distance of a number from zero. -/
def abs (x : α) : α := if x < 0 then -x else x

/-- The greater of two numbers; the first when they do not compare. -/
def max (x y : α) : α := if x < y then y else x

/-- A number is negative when it lies below zero. -/
def isNegative (x : α) : Bool := decide (x < 0)

/-- The value of a power of two numbers as a constant: it has to be finite. -/
def foldPower? (b e : α) : Option α := (power? b e).filter isFinite

end Scalar

/-! ### Floating point -/

namespace Scalar

/-- A finite double without a fractional part. -/
def isIntegral (x : Float) : Bool := x.isFinite && x.floor == x

/-- The elementary functions of a double, by name. -/
def elementary? (name : String) (x : Float) : Option Float :=
  match name with
  | "exp" => some x.exp
  | "log" | "ln" => some x.log
  | "sqrt" => some x.sqrt
  | "abs" => some x.abs
  | "sin" => some x.sin
  | "cos" => some x.cos
  | "tan" => some x.tan
  | "tanh" => some x.tanh
  | _ => none

instance : Scalar Float where
  zero := 0
  one := 1
  decideLT := inferInstance
  decideLE := inferInstance
  isInteger := isIntegral
  isFinite x := x.isFinite
  power? b e := some (b.pow e)
  function? := elementary?

/-! ### Exact rationals -/

/-- The integral power of a rational. It has no value for a fractional exponent, nor for
a negative power of zero. -/
def integralPower? (b e : Rat) : Option Rat :=
  if e.den = 1 ∧ (b ≠ 0 ∨ 0 ≤ e.num) then some (b ^ e.num) else none

instance : Scalar Rat where
  toZero := @Zero.ofOfNat0 Rat Rat.instOfNat
  toOne := @One.ofOfNat1 Rat Rat.instOfNat
  decideLT := inferInstance
  decideLE := inferInstance
  isInteger x := x.den == 1
  isFinite _ := true
  power? := integralPower?
  function? _ _ := none

end Scalar

end Kirchhoff
