import Kirchhoff.Context
import Kirchhoff.Walk

/-!
# Substitution

A substitution replaces symbols by expressions. It is applied from the operands up: every
sum, product and power is brought into canonical form again, so that numbers are folded
where they are put in. What is put in is not substituted again. The empty substitution
leaves every tree as it is.
-/

namespace Kirchhoff

/-- Replacements of symbols, in the order in which the symbols were first given. -/
structure Substitution (α : Type) where
  entries : List (Symbol × Expr α) := []

namespace Substitution

variable {α : Type}

/-- The substitution that replaces nothing. -/
def empty : Substitution α := {}

/-- No symbol is replaced. -/
def isEmpty (σ : Substitution α) : Bool := σ.entries.isEmpty

/-- The number of replaced symbols. -/
def size (σ : Substitution α) : Nat := σ.entries.length

/-- The replacement of a symbol. -/
def get? (σ : Substitution α) (s : Symbol) : Option (Expr α) := σ.entries.lookup s

/-- Sets the replacement of a symbol. One that is replaced already keeps its place. -/
def insert (σ : Substitution α) (s : Symbol) (e : Expr α) : Substitution α :=
  if (σ.get? s).isSome then
    ⟨σ.entries.map fun (t, f) => if t == s then (t, e) else (t, f)⟩
  else ⟨σ.entries ++ [(s, e)]⟩

/-- The substitution of numbers for names that a context knows. -/
def ofAssignments (c : Context α) (assignments : List (String × α)) :
    Except (InputError α) (Substitution α) :=
  assignments.foldlM (fun σ (name, v) =>
    match c.lookup name with
    | some s => .ok (σ.insert s (.number v))
    | none => .error (.unknownSymbol name)) empty

variable [Scalar α]

/-- What becomes of a node whose operands are done. -/
def replace (σ : Substitution α) : Expr α → Expr α
  | .symbol s => (σ.get? s).getD (.symbol s)
  | .add ts => .sum ts
  | .mul fs => .product fs
  | .pow b e => .power b e
  | e => e

/-- The expression with all symbols replaced at once. -/
def apply (σ : Substitution α) (e : Expr α) : Expr α :=
  if σ.isEmpty then e else e.transform σ.replace

/-- The equation with all symbols replaced at once. -/
def applyEquation (σ : Substitution α) (q : Equation α) : Equation α :=
  if σ.isEmpty then q else q.transform σ.replace

end Substitution

end Kirchhoff
