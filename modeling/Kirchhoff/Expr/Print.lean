import Kirchhoff.Expr.Canonical
import Kirchhoff.Decimal.Layout

/-!
# The printed form of an expression

Expressions are written as C formulas. A product shows its negative powers as a
denominator, a sum shows its negative terms behind a minus sign, all other powers are
calls of `pow`, and parentheses stand around sums, products and negative numbers where
they are factors.

The written form is first a list of lexemes (`Expr.lexemes`), in which numbers are still
numbers; `Lexeme.text` fixes their spelling and the blanks. A denominator is a power that
is built anew, with its exponent negated, before it is written. Each such step takes
away a negation or descends into a base, so the `budget` for canonical forms is also
enough for writing.
-/

namespace Kirchhoff

/-- The pieces of a written formula. -/
inductive Lexeme (α : Type) where
  /-- A numeral. -/
  | number (value : α)
  /-- The name of a symbol or function. -/
  | name (name : String)
  /-- The sign of a number or product. -/
  | negate
  /-- The sign between two terms of a sum. -/
  | plus
  /-- The sign between two terms of a sum, the second of which is taken away. -/
  | minus
  | times
  | over
  | opening
  | closing
  | comma

/-- The spelling of numbers. -/
class Numeral (α : Type) where
  numeral : α → String

instance : Numeral Float := ⟨Decimal.Layout.literal.text⟩

/-- The spelling of a lexeme. -/
def Lexeme.text {α : Type} [Numeral α] : Lexeme α → String
  | .number v => Numeral.numeral v
  | .name n => n
  | .negate => "-"
  | .plus => " + "
  | .minus => " - "
  | .times => "*"
  | .over => "/"
  | .opening => "("
  | .closing => ")"
  | .comma => ", "

namespace Expr

variable {α : Type} [Scalar α]

/-- The lexemes of a number. -/
def numberLexemes (v : α) : List (Lexeme α) :=
  if v < 0 then [.negate, .number (-v)] else [.number v]

/-- Lexemes in parentheses. -/
def parenthesize (ls : List (Lexeme α)) : List (Lexeme α) := .opening :: ls ++ [.closing]

/-- An expression that needs parentheses as a factor. -/
def isOpen : Expr α → Bool
  | .add _ => true
  | .mul _ => true
  | .number v => Scalar.isNegative v
  | _ => false

/-- What is taken away by a term that is written behind a minus sign. -/
def magnitude? : Expr α → Option (Expr α)
  | .number v => if v < 0 then some (.number (-v)) else none
  | .mul (.number c :: fs) => if c < 0 then some (product (.number (-c) :: fs)) else none
  | _ => none

/-- A product written as a fraction: the coefficient in front, then the factors above and
below the line. -/
structure Fraction (α : Type) where
  coefficient : Option α
  above : List (Expr α)
  below : List (Expr α)

/-- Puts a factor above the line, or below it when it is a power with a negative number
as its exponent. -/
def Fraction.insert (q : Fraction α) : Expr α → Fraction α
  | .pow b (.number e) =>
    if e < 0 then { q with below := q.below ++ [power b (.number (-e))] }
    else { q with above := q.above ++ [.pow b (.number e)] }
  | f => { q with above := q.above ++ [f] }

/-- The fraction that a product is written as. Only a number in front is its coefficient. -/
def Fraction.ofFactors : List (Expr α) → Fraction α
  | .number c :: fs => fs.foldl Fraction.insert ⟨some c, [], []⟩
  | fs => fs.foldl Fraction.insert ⟨none, [], []⟩

/-- The lexemes in front of the factors above the line, and whether a number is among
them. A coefficient of one is left out before a factor, and one of minus one is a sign. -/
def Fraction.lead (q : Fraction α) : List (Lexeme α) × Bool :=
  match q.coefficient with
  | some c =>
    if c == -1 && !q.above.isEmpty then ([.negate], false)
    else if c != 1 || q.above.isEmpty then (numberLexemes c, true)
    else ([], false)
  | none => ([], false)

/-- Lexemes of a list, with a separator between them. -/
def separated (separator : Lexeme α) (items : List (List (Lexeme α))) : List (Lexeme α) :=
  [separator].intercalate items

/-- The lexemes of a fraction, given those of its factors. -/
def Fraction.lexemes (q : Fraction α) (above below : List (List (Lexeme α))) :
    List (Lexeme α) :=
  let (sign, hasNumber) := q.lead
  let top :=
    if hasNumber then separated .times (sign :: above)
    else if above.isEmpty then sign ++ [.number 1]
    else sign ++ separated .times above
  match below with
  | [] => top
  | [f] => top ++ .over :: f
  | fs => top ++ .over :: parenthesize (separated .times fs)

/-- Writes an expression within a budget. -/
def lexemes? : Nat → Expr α → Option (List (Lexeme α))
  | 0, _ => none
  | n + 1, e =>
    let factor (f : Expr α) : Option (List (Lexeme α)) := do
      let ls ← lexemes? n f
      return if f.isOpen then parenthesize ls else ls
    let fraction (fs : List (Expr α)) : Option (List (Lexeme α)) := do
      let q := Fraction.ofFactors fs
      return q.lexemes (← q.above.mapM factor) (← q.below.mapM factor)
    match e with
    | .number v => some (numberLexemes v)
    | .symbol s => some [.name s.name]
    | .add [] => some []
    | .add (t :: ts) => do
      let first ← lexemes? n t
      let rest ← ts.mapM fun t =>
        match t.magnitude? with
        | some m => do
          let ls ← lexemes? n m
          return .minus :: (match m with | .add _ => parenthesize ls | _ => ls)
        | none => do return .plus :: (← lexemes? n t)
      return first ++ rest.flatten
    | .mul fs => fraction fs
    | .pow b x =>
      if x.isNegative then fraction [.pow b x]
      else do
        return .name "pow" :: parenthesize ((← lexemes? n b) ++ .comma :: (← lexemes? n x))
    | .call f args => do
      return .name f :: parenthesize (separated .comma (← args.mapM (lexemes? n)))

/-- The lexemes of an expression. -/
def lexemes (e : Expr α) : List (Lexeme α) := (lexemes? (budget e.size) e).getD []

/-- The text of an expression. -/
def text [Numeral α] (e : Expr α) : String := String.join (e.lexemes.map Lexeme.text)

instance [Numeral α] : ToString (Expr α) := ⟨text⟩

end Expr

end Kirchhoff
