import Kirchhoff.Proofs.Linear.ClosedForm
import Kirchhoff.Proofs.Linear.Cofactors
import Kirchhoff.Proofs.Linear.Degree

/-!
# Affine equations

An expression is affine in the unknowns when it is built from them and from constants by sums,
differences, and multiples: a product has a constant as one of its factors, and what is divided is
divided by a constant (`IsAffine`). Its degree in the unknowns is at most one, so that equations
with affine sides have a linear system (`exists_linearSystem`). What stands in the entries of the
system stands in the equations (`Equation.linearRow?_within_of`).
-/

namespace Kirchhoff

open Kirchhoff.Expr

variable {α : Type} [Scalar α]

namespace Expr

/-- The expression is built from unknowns and constants by sums and by multiples: products with
constants, and quotients by expressions that may divide. -/
inductive IsAffine (unknowns : List Symbol) (constant divisor : Expr α → Prop) : Expr α → Prop
  | constant {c : Expr α} (hc : constant c) : IsAffine unknowns constant divisor c
  | unknown {u : Symbol} (hu : u ∈ unknowns) : IsAffine unknowns constant divisor (.symbol u)
  | plus {a b : Expr α} (ha : IsAffine unknowns constant divisor a)
    (hb : IsAffine unknowns constant divisor b) : IsAffine unknowns constant divisor (a + b)
  | minus {a b : Expr α} (ha : IsAffine unknowns constant divisor a)
    (hb : IsAffine unknowns constant divisor b) : IsAffine unknowns constant divisor (a - b)
  | negate {a : Expr α} (ha : IsAffine unknowns constant divisor a) :
    IsAffine unknowns constant divisor (-a)
  | sum {ts : List (Expr α)} (h : ∀ t ∈ ts, IsAffine unknowns constant divisor t) :
    IsAffine unknowns constant divisor (sum ts)
  | multiple {c a : Expr α} (hc : constant c) (ha : IsAffine unknowns constant divisor a) :
    IsAffine unknowns constant divisor (c * a)
  | scaled {a c : Expr α} (ha : IsAffine unknowns constant divisor a) (hc : constant c) :
    IsAffine unknowns constant divisor (a * c)
  | divide {a c : Expr α} (ha : IsAffine unknowns constant divisor a) (hc : divisor c) :
    IsAffine unknowns constant divisor (a / c)

variable {unknowns : List Symbol} {constant divisor : Expr α → Prop} {e : Expr α}

omit [Scalar α] in
theorem degree_symbol_le (s : Symbol) : (Expr.symbol s : Expr α).degree unknowns ≤ 1 := by
  rw [degree]
  split <;> omega

/-- An affine expression has degree one at most. -/
theorem IsAffine.degree_le [Scalar.LawfulOne α] (h : IsAffine unknowns constant divisor e)
    (hconstant : ∀ c, constant c → c.Within (IsOther unknowns))
    (hdivisor : ∀ c, divisor c → c.Within (IsOther unknowns)) : e.degree unknowns ≤ 1 := by
  induction h with
  | constant hc => simp [degree_eq_zero (hconstant _ hc)]
  | unknown _ => exact degree_symbol_le _
  | plus _ _ ha hb => exact degree_plus_le ha hb
  | minus _ _ ha hb => exact degree_minus_le ha hb
  | negate _ ha => exact (degree_negate_le _).trans ha
  | sum _ ih => exact degree_sum_le ih
  | multiple hc _ ha =>
    refine (degree_times_le _ _).trans ?_
    rwa [degree_eq_zero (hconstant _ hc), Nat.zero_add]
  | scaled _ hc ha =>
    refine (degree_times_le _ _).trans ?_
    rwa [degree_eq_zero (hconstant _ hc), Nat.add_zero]
  | divide _ hc ha => exact (degree_over_le _ (hdivisor _ hc)).trans ha

/-- The symbols of an affine expression are unknowns and symbols of its constants. -/
theorem IsAffine.within {P : Symbol → Prop} (h : IsAffine unknowns constant divisor e)
    (hunknowns : ∀ u ∈ unknowns, P u) (hconstant : ∀ c, constant c → c.Within P)
    (hdivisor : ∀ c, divisor c → c.Within P) : e.Within P := by
  induction h with
  | constant hc => exact hconstant _ hc
  | unknown hu => exact within_symbol_iff.2 (hunknowns _ hu)
  | plus _ _ ha hb => exact within_plus ha hb
  | minus _ _ ha hb => exact within_minus ha hb
  | negate _ ha => exact within_negate ha
  | sum _ ih => exact within_sum ih
  | multiple hc _ ha => exact within_times (hconstant _ hc) ha
  | scaled _ hc ha => exact within_times ha (hconstant _ hc)
  | divide _ hc ha => exact within_over ha (hdivisor _ hc)

end Expr

/-- Where all unknowns and constants have values, and divisors other values than zero, an affine
expression has a value. -/
theorem Expr.IsAffine.exists_eval {unknowns : List Symbol} {constant divisor : Expr Rat → Prop}
    {e : Expr Rat} (h : e.IsAffine unknowns constant divisor) {ρ : Environment Rat}
    (hunknowns : ∀ u ∈ unknowns, ∃ v, ρ.symbol u = some v)
    (hconstant : ∀ c, constant c → ∃ v, c.eval ρ = some v)
    (hdivisor : ∀ c, divisor c → ∃ v, v ≠ 0 ∧ c.eval ρ = some v) : ∃ v, e.eval ρ = some v := by
  induction h with
  | constant hc => exact hconstant _ hc
  | unknown hu => exact hunknowns _ hu
  | plus _ _ ha hb =>
    obtain ⟨⟨v, hv⟩, w, hw⟩ := And.intro ha hb
    exact ⟨v + w, eval_plus hv hw⟩
  | minus _ _ ha hb =>
    obtain ⟨⟨v, hv⟩, w, hw⟩ := And.intro ha hb
    exact ⟨v - w, eval_minus hv hw⟩
  | negate _ ha =>
    obtain ⟨v, hv⟩ := ha
    exact ⟨-v, eval_negate hv⟩
  | sum _ ih =>
    obtain ⟨vs, hvs⟩ := exists_evalAll ih
    exact ⟨vs.sum, sum_refines _ _ (eval_add_iff.2 ⟨vs, hvs, rfl⟩)⟩
  | multiple hc _ ha =>
    obtain ⟨⟨v, hv⟩, w, hw⟩ := And.intro (hconstant _ hc) ha
    exact ⟨v * w, eval_times hv hw⟩
  | scaled _ hc ha =>
    obtain ⟨⟨v, hv⟩, w, hw⟩ := And.intro ha (hconstant _ hc)
    exact ⟨v * w, eval_times hv hw⟩
  | divide _ hc ha =>
    obtain ⟨⟨v, hv⟩, w, hne, hw⟩ := And.intro ha (hdivisor _ hc)
    exact ⟨v / w, eval_over hv hw hne⟩

/-! ### Systems of affine equations -/

namespace Equation

/-- Both sides are affine. -/
def IsAffine (unknowns : List Symbol) (constant divisor : Expr α → Prop) (q : Equation α) : Prop :=
  q.lhs.IsAffine unknowns constant divisor ∧ q.rhs.IsAffine unknowns constant divisor

variable {unknowns : List Symbol} {constant divisor : Expr α → Prop} {q : Equation α}

theorem IsAffine.isSome_linearRow? [Scalar.LawfulOne α] (h : q.IsAffine unknowns constant divisor)
    (hconstant : ∀ c, constant c → c.Within (IsOther unknowns))
    (hdivisor : ∀ c, divisor c → c.Within (IsOther unknowns)) :
    (q.linearRow? unknowns).isSome := by
  have hdegree : q.residual.degree unknowns ≤ 1 :=
    degree_minus_le (h.1.degree_le hconstant hdivisor) (h.2.degree_le hconstant hdivisor)
  obtain ⟨form, hform⟩ := Option.isSome_iff_exists.1 (isSome_linearForm? hdegree)
  rw [linearRow?, hform]
  rfl

end Equation

/-- Equations with affine sides have a linear system. -/
theorem exists_linearSystem [Scalar.LawfulOne α] {equations : List (Equation α)}
    {unknowns : List Symbol} {constant divisor : Expr α → Prop}
    (h : ∀ q ∈ equations, q.IsAffine unknowns constant divisor)
    (hconstant : ∀ c, constant c → c.Within (IsOther unknowns))
    (hdivisor : ∀ c, divisor c → c.Within (IsOther unknowns)) :
    ∃ system, linearSystem equations unknowns = .ok system := by
  refine exists_mapM_eq_ok fun ⟨q, i⟩ hq => ?_
  have hmem : q ∈ equations := List.mem_of_getElem? (List.mem_zipIdx_iff_getElem?.1 hq)
  obtain ⟨row, hrow⟩ :=
    Option.isSome_iff_exists.1 ((h q hmem).isSome_linearRow? hconstant hdivisor)
  exact ⟨row, by simp only [hrow]⟩

/-- The expression mentions none of the unknowns. -/
def Expr.IsFree (unknowns : List Symbol) (c : Expr α) : Prop :=
  ∀ u ∈ unknowns, c.mentions u = false

/-- **Affine equations are linear.** Equations whose sides are built from the unknowns by sums,
differences and negation, and by products with and quotients by any expressions that mention no
unknown, powers and calls of functions among them, have a linear system. -/
theorem linearSystem_of_isAffine [Scalar.LawfulOne α] {equations : List (Equation α)}
    {unknowns : List Symbol}
    (h : ∀ q ∈ equations, q.IsAffine unknowns (IsFree unknowns) (IsFree unknowns)) :
    ∃ system, linearSystem equations unknowns = .ok system :=
  exists_linearSystem h (fun _ => within_isOther_iff.2) fun _ => within_isOther_iff.2

/-- Powers and calls of other symbols are multiplied onto sums with unknowns in them, and divide
them. -/
theorem linearSystem_of_isAffine_powers :
    let x : Symbol := ⟨0, "x"⟩
    let y : Symbol := ⟨1, "y"⟩
    let a : Expr Rat := .symbol ⟨2, "a"⟩
    let b : Expr Rat := .symbol ⟨3, "b"⟩
    let q : Equation Rat := ⟨a ^ b * (.symbol x - .call "exp" [a] * .symbol y) / (a - b),
      sum [.symbol y / .call "sqrt" [b], -(.symbol x * (a ^ b) ^ (.number (1 / 2) : Expr Rat)), b]⟩
    (∀ q' ∈ [q, ⟨.symbol y, q.lhs⟩], q'.IsAffine [x, y] (IsFree [x, y]) (IsFree [x, y])) ∧
    ∃ system, linearSystem [q, ⟨.symbol y, q.lhs⟩] [x, y] = .ok system := by
  intro x y a b q
  have hx : (Expr.symbol x : Expr Rat).IsAffine [x, y] (IsFree [x, y]) (IsFree [x, y]) :=
    .unknown (by simp)
  have hy : (Expr.symbol y : Expr Rat).IsAffine [x, y] (IsFree [x, y]) (IsFree [x, y]) :=
    .unknown (by simp)
  have hfree (c : Expr Rat) (hc : [x, y].all (fun u => !c.mentions u) = true) :
      IsFree [x, y] c := by
    simpa [IsFree] using hc
  have hlhs : q.lhs.IsAffine [x, y] (IsFree [x, y]) (IsFree [x, y]) :=
    (IsAffine.multiple (hfree _ (by decide +kernel))
      (hx.minus (.multiple (hfree _ (by decide +kernel)) hy))).divide
      (hfree _ (by decide +kernel))
  have hrhs : q.rhs.IsAffine [x, y] (IsFree [x, y]) (IsFree [x, y]) := by
    refine .sum ?_
    simp only [List.forall_mem_cons]
    exact ⟨hy.divide (hfree _ (by decide +kernel)),
      (hx.scaled (hfree _ (by decide +kernel))).negate, .constant (hfree _ (by decide +kernel)),
      by simp⟩
  have h : ∀ q' ∈ [q, ⟨.symbol y, q.lhs⟩], q'.IsAffine [x, y] (IsFree [x, y]) (IsFree [x, y]) := by
    simp only [List.forall_mem_cons]
    exact ⟨⟨hlhs, hrhs⟩, ⟨hy, hlhs⟩, by simp⟩
  exact ⟨h, linearSystem_of_isAffine h⟩

/-! ### The symbols of a row -/

/-- What stands in the row of an equation stands in the equation. -/
theorem Equation.linearRow?_within_of {unknowns : List Symbol} {P : Symbol → Prop}
    {q : Equation α} {row : LinearRow α} (h : q.linearRow? unknowns = some row)
    (hlhs : q.lhs.Within P) (hrhs : q.rhs.Within P) : row.Within P := by
  obtain ⟨form, hform, rfl⟩ := linearRow?_eq_some h
  have hresidual : q.residual.Within P := within_minus hlhs hrhs
  have hwithin :=
    LinearForm.within_of_linearForm? hform (within_cofactors hresidual) hresidual
  exact List.forall_mem_cons.2 ⟨within_negate hwithin.constant,
    List.forall_mem_map.2 fun j _ => form.within_coefficient hwithin.coefficients j⟩

end Kirchhoff
