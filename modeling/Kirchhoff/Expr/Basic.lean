import Kirchhoff.Scalar
import Kirchhoff.Symbol.Basic

/-!
# Expressions

An expression is a number, a symbol, a sum or product of any number of operands, a power,
or the application of a named function. Any tree can be written down; the operations in
`Kirchhoff.Expr.Canonical` build trees in canonical form.
-/

namespace Kirchhoff

/-- Formulas over the numbers of `α`. -/
inductive Expr (α : Type) where
  | number (value : α)
  | symbol (symbol : Symbol)
  | add (terms : List (Expr α))
  | mul (factors : List (Expr α))
  | pow (base exponent : Expr α)
  | call (function : String) (args : List (Expr α))

namespace Expr

variable {α : Type}

instance [Zero α] : Inhabited (Expr α) := ⟨.number 0⟩

instance : Coe Symbol (Expr α) := ⟨.symbol⟩

/-! ### Equality

Two expressions are equal when they have the same tree, with numbers compared as numbers
and symbols by their interning. Over floating point this is not reflexive. -/

mutual

/-- Two expressions have the same tree. -/
def beq [BEq α] : Expr α → Expr α → Bool
  | .number x, .number y => x == y
  | .symbol s, .symbol t => s == t
  | .add xs, .add ys => beqAll xs ys
  | .mul xs, .mul ys => beqAll xs ys
  | .pow b e, .pow c f => beq b c && beq e f
  | .call f xs, .call g ys => f == g && beqAll xs ys
  | _, _ => false

/-- Two lists have pairwise equal trees. -/
def beqAll [BEq α] : List (Expr α) → List (Expr α) → Bool
  | [], [] => true
  | x :: xs, y :: ys => beq x y && beqAll xs ys
  | _, _ => false

end

instance [BEq α] : BEq (Expr α) := ⟨beq⟩

/-! ### Looking into an expression -/

/-- The number that an expression is. -/
def number? : Expr α → Option α
  | .number v => some v
  | _ => none

/-- The symbol that an expression is. -/
def symbol? : Expr α → Option Symbol
  | .symbol s => some s
  | _ => none

/-- The expression is the number zero. -/
def isZero [Zero α] [BEq α] : Expr α → Bool
  | .number v => v == 0
  | _ => false

/-- The expression is a negative number. -/
def isNegative [Scalar α] : Expr α → Bool
  | .number v => Scalar.isNegative v
  | _ => false

mutual

/-- The symbols of an expression, from left to right, each as often as it stands there. -/
def symbols : Expr α → List Symbol
  | .number _ => []
  | .symbol s => [s]
  | .add ts => symbolsAll ts
  | .mul fs => symbolsAll fs
  | .pow b e => symbols b ++ symbols e
  | .call _ args => symbolsAll args

/-- The symbols of a list of expressions. -/
def symbolsAll : List (Expr α) → List Symbol
  | [] => []
  | e :: es => symbols e ++ symbolsAll es

end

/-- One of the given symbols stands in the expression. -/
def dependsOn (e : Expr α) (ss : List Symbol) : Bool := e.symbols.any fun s => ss.any (· == s)

/-- The symbol stands in the expression. -/
def mentions (e : Expr α) (s : Symbol) : Bool := e.symbols.any (· == s)

mutual

/-- The number of nodes of an expression. -/
def size : Expr α → Nat
  | .number _ => 1
  | .symbol _ => 1
  | .add ts => sizeAll ts + 1
  | .mul fs => sizeAll fs + 1
  | .pow b e => size b + size e + 1
  | .call _ args => sizeAll args + 1

/-- The number of nodes of a list of expressions. -/
def sizeAll : List (Expr α) → Nat
  | [] => 0
  | e :: es => size e + sizeAll es

end

end Expr

end Kirchhoff
