import Kirchhoff.Expr.Basic

/-!
# Canonical form

Sums, products and powers are built so that the result is flat, constants are folded, like
terms and equal bases are combined, and a numeric coefficient is distributed into a sum
that it multiplies. A product keeps its coefficient in front, a sum its constant at the
end. Products of sums are not expanded and function calls are left as they are.

The three operations call each other. A sum multiplies coefficients out, a product adds the
exponents of equal bases and raises each base to its exponent, a power of a product raises
every factor. Two quantities end this. An exponent lies one floor below the power that it
belongs to, and exponents are only ever added to exponents, so there are no more floors
than the tree has nodes. On one floor, each round of calls either opens a sum or descends
into a base, and the `budget` bounds the rounds. The operations on one floor (`sum?`,
`product?`, `power?`) give nothing when the budget is used up; `sum`, `product` and `power`
give them enough.
-/

namespace Kirchhoff.Expr

variable {α : Type} [Scalar α]

/-! ### Combining what is alike -/

/-- Adds an entry to a list of keyed values. An entry with an equal key takes the value in
by `combine`; a new key goes to the end. -/
def insertWith {β : Type} (combine : β → β → β) (key : Expr α) (value : β) :
    List (Expr α × β) → List (Expr α × β)
  | [] => [(key, value)]
  | (k, v) :: rest =>
    if k == key then (k, combine v value) :: rest
    else (k, v) :: insertWith combine key value rest

/-- A sum being collected: the constant, and each other term as a coefficient of its
non-numeric part. -/
structure Terms (α : Type) where
  constant : α
  parts : List (Expr α × α)

/-- The sum of no terms. -/
def Terms.empty : Terms α := ⟨0, []⟩

/-- A term with its numeric coefficient split off. -/
def splitCoefficient : Expr α → α × Expr α
  | .mul [.number c, f] => (c, f)
  | .mul (.number c :: fs) => (c, .mul fs)
  | e => (1, e)

/-- The sum of the collected terms: zero for none and a term itself for one. -/
def ofTerms : List (Expr α) → Expr α
  | [] => .number 0
  | [t] => t
  | ts => .add ts

/-- A product being collected: the coefficient, and each base with its exponent. -/
structure Factors (α : Type) where
  coefficient : α
  powers : List (Expr α × Expr α)

/-- The product of no factors. -/
def Factors.empty : Factors α := ⟨1, []⟩

/-- Multiplies a power onto a product, adding its exponent to that of an equal base. -/
def Factors.insert (sumExponents : List (Expr α) → Expr α) (fs : Factors α)
    (base exponent : Expr α) : Factors α :=
  { fs with powers := insertWith (fun e f => sumExponents [e, f]) base exponent fs.powers }

mutual

/-- Multiplies a factor onto a product. -/
def Factors.collect (sumExponents : List (Expr α) → Expr α) (fs : Factors α) :
    Expr α → Factors α
  | .mul gs => Factors.collectAll sumExponents fs gs
  | .number v => { fs with coefficient := fs.coefficient * v }
  | .pow b e => fs.insert sumExponents b e
  | f => fs.insert sumExponents f (.number 1)

/-- Multiplies a list of factors onto a product. -/
def Factors.collectAll (sumExponents : List (Expr α) → Expr α) (fs : Factors α) :
    List (Expr α) → Factors α
  | [] => fs
  | g :: gs => Factors.collectAll sumExponents (Factors.collect sumExponents fs g) gs

end

/-- Appends a raised base to the factors written so far. A number goes into the
coefficient and a product is spliced in. -/
def appendFactor (acc : α × List (Expr α)) : Expr α → α × List (Expr α)
  | .number v => (acc.1 * v, acc.2)
  | .mul fs => (acc.1, acc.2 ++ fs)
  | f => (acc.1, acc.2 ++ [f])

/-- The product of a coefficient and factors: the number for none, the factor itself for a
single one without coefficient. -/
def ofFactors (c : α) : List (Expr α) → Expr α
  | [] => .number c
  | [f] => if c == 1 then f else .mul [.number c, f]
  | fs => if c == 1 then .mul fs else .mul (.number c :: fs)

/-- The power of two numbers, folded where it has a finite value. -/
def ofNumberPower (b e : α) : Expr α :=
  match Scalar.foldPower? b e with
  | some v => .number v
  | none => .pow (.number b) (.number e)

/-! ### One floor of exponents -/

mutual

/-- Collects one term of a sum. A sum, also one behind a coefficient, is collected term by
term. -/
def collectTerm? (sumExponents : List (Expr α) → Expr α) :
    Nat → Terms α → Expr α → Option (Terms α)
  | 0, _, _ => none
  | n + 1, s, .add ts => ts.foldlM (collectTerm? sumExponents n) s
  | _ + 1, s, .number v => some { s with constant := s.constant + v }
  | n + 1, s, e =>
    let (c, part) := e.splitCoefficient
    match part with
    | .add ts => ts.foldlM (fun s t => do
        collectTerm? sumExponents n s (← product? sumExponents n [.number c, t])) s
    | part => some { s with parts := insertWith (· + ·) part c s.parts }

/-- The canonical sum of some terms. -/
def sum? (sumExponents : List (Expr α) → Expr α) : Nat → List (Expr α) → Option (Expr α)
  | 0, _ => none
  | n + 1, ts => do
    let s ← ts.foldlM (collectTerm? sumExponents n) Terms.empty
    let parts ← (s.parts.filter (·.2 != 0)).mapM fun (part, c) =>
      if c == 1 then some part else product? sumExponents n [.number c, part]
    return ofTerms (if s.constant != 0 then parts ++ [.number s.constant] else parts)

/-- The canonical product of some factors. -/
def product? (sumExponents : List (Expr α) → Expr α) : Nat → List (Expr α) → Option (Expr α)
  | 0, _ => none
  | n + 1, fs => do
    let p := Factors.collectAll sumExponents Factors.empty fs
    if p.coefficient == 0 then return .number 0
    let raised ← p.powers.mapM fun (b, e) => power? sumExponents n b e
    let out := raised.foldl appendFactor (p.coefficient, [])
    if out.1 == 0 then return .number 0
    match out with
    | (c, [.add ts]) =>
      if c == 1 then return .add ts
      sum? sumExponents n (← ts.mapM fun t => product? sumExponents n [.number c, t])
    | (c, fs) => return ofFactors c fs

/-- The canonical power of a base and an exponent. -/
def power? (sumExponents : List (Expr α) → Expr α) : Nat → Expr α → Expr α → Option (Expr α)
  | 0, _, _ => none
  | n + 1, b, .number e =>
    if e == 0 then some (.number 1)
    else if e == 1 then some b
    else match b with
      | .number v => some (ofNumberPower v e)
      | .pow c (.number f) =>
        if Scalar.isInteger e then power? sumExponents n c (.number (f * e))
        else some (.pow b (.number e))
      | .mul fs =>
        if Scalar.isInteger e then do
          product? sumExponents n (← fs.mapM fun f => power? sumExponents n f (.number e))
        else some (.pow b (.number e))
      | b => some (.pow b (.number e))
  | _ + 1, .number v, e => some (if v == 1 then .number 1 else .pow (.number v) e)
  | _ + 1, b, e => some (.pow b e)

end

/-! ### All floors -/

/-- Enough rounds for operands with `n` nodes. A round opens one of at most `n` sums or
descends into one of at most `n` nested bases, and what is opened descends again. -/
def budget (n : Nat) : Nat := 8 * ((n + 2) * (n + 2))

/-- The canonical sum of terms with at most `floors` floors of exponents. -/
def sumOn : Nat → List (Expr α) → Expr α
  | 0, ts => .add ts
  | floors + 1, ts => (sum? (sumOn floors) (budget (sizeAll ts)) ts).getD (.add ts)

/-- The canonical sum of some terms. -/
def sum (ts : List (Expr α)) : Expr α := sumOn (sizeAll ts + 1) ts

/-- The canonical product of some factors. -/
def product (fs : List (Expr α)) : Expr α :=
  (product? (sumOn (sizeAll fs)) (budget (sizeAll fs)) fs).getD (.mul fs)

/-- The canonical power of a base and an exponent. -/
def power (b e : Expr α) : Expr α :=
  (power? (sumOn (size b + size e)) (budget (size b + size e)) b e).getD (.pow b e)

/-! ### The operations of arithmetic -/

instance : Add (Expr α) := ⟨fun a b => sum [a, b]⟩

instance : Mul (Expr α) := ⟨fun a b => product [a, b]⟩

instance : Neg (Expr α) := ⟨fun a => product [.number (-1), a]⟩

instance : Sub (Expr α) := ⟨fun a b => sum [a, -b]⟩

instance : Div (Expr α) := ⟨fun a b => product [a, power b (.number (-1))]⟩

instance : Pow (Expr α) (Expr α) := ⟨power⟩

end Kirchhoff.Expr
