import Kirchhoff.Proofs.Expr.Canonical
import Kirchhoff.Proofs.Formula.Lexer

/-!
# What lexemes say of an expression

A list of lexemes says what an expression means, at some rank of the grammar, when its tokens are
derived from a formula that has the value of the expression wherever that has one (`Writes`). The
two are compared under a relation between the environments of expressions and the valuations of
formulas, of which nothing is assumed here.

Products, quotients, sums, differences and calls say what they mean when their operands do. The
right operand of a sum may itself be a sum without parentheses (`Writes.plus`): the grammar reads it
from the left, which is the same sum.
-/

namespace Kirchhoff

namespace Formula

/-! ### Values of formulas -/

variable {η : Valuation} {f g : Formula} {x y : Rat}

theorem eval_negate_of (hf : f.eval η = some x) : (negate f).eval η = some (-x) := by
  show (do return -(← f.eval η)) = some (-x)
  rw [hf]
  rfl

theorem eval_plus_of (hf : f.eval η = some x) (hg : g.eval η = some y) :
    (plus f g).eval η = some (x + y) := by
  show (do return (← f.eval η) + (← g.eval η)) = some (x + y)
  rw [hf, hg]
  rfl

theorem eval_minus_of (hf : f.eval η = some x) (hg : g.eval η = some y) :
    (minus f g).eval η = some (x - y) := by
  show (do return (← f.eval η) - (← g.eval η)) = some (x - y)
  rw [hf, hg]
  rfl

theorem eval_times_of (hf : f.eval η = some x) (hg : g.eval η = some y) :
    (times f g).eval η = some (x * y) := by
  show (do return (← f.eval η) * (← g.eval η)) = some (x * y)
  rw [hf, hg]
  rfl

theorem eval_over_of (hf : f.eval η = some x) (hg : g.eval η = some y) (hy : y ≠ 0) :
    (divide f g).eval η = some (x / y) := by
  show (f.eval η).bind (fun x => (g.eval η).bind fun y => if y = 0 then none else some (x / y)) = _
  rw [hf, hg]
  exact if_neg hy

/-- A sum behind a sum, which is read from the left. -/
theorem Derives.plus_sum {ts us : List Token} (hf : Derives .sum ts f) (hg : Derives .sum us g) :
    ∃ h, Derives .sum (ts ++ .plus :: us) h ∧
      ∀ η x y, f.eval η = some x → g.eval η = some y → h.eval η = some (x + y) := by
  generalize hr : Rank.sum = r at hg
  induction hg with
  | ofProduct hg => exact ⟨_, .plus hf hg, fun η x y => eval_plus_of⟩
  | @plus us vs g₁ g₂ _ hg₂ ih =>
    obtain ⟨h, hh, hvalue⟩ := ih hr
    refine ⟨_, by simpa using Derives.plus hh hg₂, fun η x y hx hy => ?_⟩
    simp only [eval, bind, Option.bind_eq_some_iff, pure, Option.some.injEq] at hy
    obtain ⟨y₁, hy₁, y₂, hy₂, rfl⟩ := hy
    rw [← add_assoc]
    exact eval_plus_of (hvalue η x y₁ hx hy₁) hy₂
  | @minus us vs g₁ g₂ _ hg₂ ih =>
    obtain ⟨h, hh, hvalue⟩ := ih hr
    refine ⟨_, by simpa using Derives.minus hh hg₂, fun η x y hx hy => ?_⟩
    simp only [eval, bind, Option.bind_eq_some_iff, pure, Option.some.injEq] at hy
    obtain ⟨y₁, hy₁, y₂, hy₂, rfl⟩ := hy
    rw [← add_sub_assoc]
    exact eval_minus_of (hvalue η x y₁ hx hy₁) hy₂
  | _ => cases hr

end Formula

namespace Expr

open Formula (Derives Rank Token isName)

/-! ### Lists of lexemes -/

/-- Two lists with the separator between them may be one list. -/
theorem separated_append (l : Lexeme Rat) (ls ms : List (Lexeme Rat))
    (lss : List (List (Lexeme Rat))) :
    separated l ((ls ++ l :: ms) :: lss) = separated l (ls :: ms :: lss) := by
  cases lss <;> simp [separated]

theorem separated_cons (l m : Lexeme Rat) (ls : List (Lexeme Rat))
    (lss : List (List (Lexeme Rat))) :
    separated l ((m :: ls) :: lss) = m :: separated l (ls :: lss) := by
  cases lss <;> simp [separated]

/-- The tokens of separated lists are the separated lists of their tokens. -/
theorem map_separated (l : Lexeme Rat) (lss : List (List (Lexeme Rat))) :
    (separated l lss).map Lexeme.token =
      [l.token].intercalate (lss.map (List.map Lexeme.token)) := by
  induction lss with
  | nil => rfl
  | cons ls lss ih =>
    cases lss with
    | nil => simp [separated]
    | cons ms lss => simpa [separated] using ih

/-! ### Meaning -/

/-- How the environments of expressions and the valuations of formulas belong together. -/
abbrev Reading := Environment Rat → Formula.Valuation → Prop

variable {A : Reading} {r : Rank} {d e : Expr Rat} {es : List (Expr Rat)} {ls ms : List (Lexeme Rat)}
  {lss : List (List (Lexeme Rat))}

/-- The formula has the value of the expression, if that has one. -/
def Means (A : Reading) (e : Expr Rat) (f : Formula) : Prop :=
  ∀ ρ η, A ρ η → ∀ v, e.eval ρ = some v → f.eval η = some v

/-- The lexemes are derived from a formula that means the expression. -/
def Writes (A : Reading) (r : Rank) (e : Expr Rat) (ls : List (Lexeme Rat)) : Prop :=
  ∃ f, Derives r (ls.map Lexeme.token) f ∧ Means A e f

namespace Writes

/-! ### Ranks -/

/-- What has more values is written for what has fewer. -/
theorem of_refines (hde : ∀ ρ : Environment Rat, Refines ρ d e) (h : Writes A r e ls) :
    Writes A r d ls := by
  obtain ⟨f, hf, hmeans⟩ := h
  exact ⟨f, hf, fun ρ η hη v hv => hmeans ρ η hη v (hde ρ v hv)⟩

theorem to_product (h : Writes A r e ls) (hr : r ≠ .sum) : Writes A .product e ls := by
  obtain ⟨f, hf, hmeans⟩ := h
  cases r with
  | sum => exact absurd rfl hr
  | product => exact ⟨f, hf, hmeans⟩
  | factor => exact ⟨f, .ofFactor hf, hmeans⟩

theorem to_sum (h : Writes A r e ls) : Writes A .sum e ls := by
  by_cases hr : r = .sum
  · exact hr ▸ h
  · obtain ⟨f, hf, hmeans⟩ := h.to_product hr
    exact ⟨f, .ofProduct hf, hmeans⟩

/-- Parentheses make a factor of any expression. -/
theorem parenthesize (h : Writes A r e ls) : Writes A .factor e (parenthesize ls) := by
  obtain ⟨f, hf, hmeans⟩ := h.to_sum
  exact ⟨f, by simpa [Expr.parenthesize, Lexeme.token] using Derives.parentheses hf, hmeans⟩

/-! ### Numbers and products -/

theorem unsigned (v : Rat) : Writes A .factor (.number v) [.number v] :=
  ⟨.number v, .number v, fun _ _ _ _ h => h⟩

/-- A product with the coefficient minus one is written with a sign. -/
theorem negate (h : Writes A .factor e ls) :
    Writes A .factor (.mul [.number (-1), e]) (.negate :: ls) := by
  obtain ⟨f, hf, hmeans⟩ := h
  refine ⟨.negate f, .negate hf, fun ρ η hη v hv => ?_⟩
  obtain ⟨x, hx, rfl⟩ := eval_scaled_iff.1 hv
  rw [neg_one_mul]
  exact Formula.eval_negate_of (hmeans ρ η hη x hx)

theorem number (v : Rat) : Writes A .factor (.number v) (numberLexemes v) := by
  unfold numberLexemes
  split
  · refine (unsigned (-v)).negate.of_refines fun ρ w hw => ?_
    obtain rfl := Option.some.inj hw
    exact eval_scaled_iff.2 ⟨-v, rfl, by ring⟩
  · exact unsigned v

theorem times (h : Writes A .product (.mul es) ls) (he : Writes A .factor e ms) :
    Writes A .product (.mul (es ++ [e])) (ls ++ .times :: ms) := by
  obtain ⟨f, hf, hfmeans⟩ := h
  obtain ⟨g, hg, hgmeans⟩ := he
  refine ⟨.times f g, by simpa [Lexeme.token] using Derives.times hf hg, fun ρ η hη v hv => ?_⟩
  obtain ⟨x, y, hx, hy, rfl⟩ := eval_mul_append_iff.1 hv
  exact Formula.eval_times_of (hfmeans ρ η hη x hx) (hgmeans ρ η hη y (eval_mul_singleton.1 hy))

/-- The power that a divisor is. -/
def inverse (e : Expr Rat) : Expr Rat := .pow e (.number (-1))

theorem eval_inverse_iff {ρ : Environment Rat} {v : Rat} :
    (inverse e).eval ρ = some v ↔ ∃ x, e.eval ρ = some x ∧ x ≠ 0 ∧ x⁻¹ = v := by
  rw [inverse, eval_pow_number_iff]
  constructor
  · rintro ⟨x, n, hx, hn, hpower, rfl⟩
    obtain rfl : n = -1 := by exact_mod_cast hn.symm
    exact ⟨x, hx, hpower.resolve_right (by decide), (zpow_neg_one x).symm⟩
  · rintro ⟨x, hx, hne, rfl⟩
    exact ⟨x, -1, hx, by norm_num, .inl hne, zpow_neg_one x⟩

/-- A factor that is inverted is written after a division sign. -/
theorem divide (h : Writes A .product (.mul es) ls) (he : Writes A .factor e ms) :
    Writes A .product (.mul (es ++ [inverse e])) (ls ++ .over :: ms) := by
  obtain ⟨f, hf, hfmeans⟩ := h
  obtain ⟨g, hg, hgmeans⟩ := he
  refine ⟨.divide f g, by simpa [Lexeme.token] using Derives.divide hf hg, fun ρ η hη v hv => ?_⟩
  obtain ⟨x, y, hx, hy, rfl⟩ := eval_mul_append_iff.1 hv
  obtain ⟨z, hz, hne, rfl⟩ := eval_inverse_iff.1 (eval_mul_singleton.1 hy)
  rw [← div_eq_mul_inv]
  exact Formula.eval_over_of (hfmeans ρ η hη x hx) (hgmeans ρ η hη z hz) hne

/-- Factors behind a product. -/
theorem separated_times (h : Writes A .product (.mul es) ls) {ds : List (Expr Rat)}
    (hds : List.Forall₂ (Writes A .factor) ds lss) :
    Writes A .product (.mul (es ++ ds)) (separated .times (ls :: lss)) := by
  induction hds generalizing es ls with
  | nil => simpa [separated] using h
  | cons hd _ ih => simpa [separated_append] using ih (h.times hd)

/-- A product of at least one factor. -/
theorem product (hne : es ≠ []) (h : List.Forall₂ (Writes A .factor) es lss) :
    Writes A .product (.mul es) (separated .times lss) := by
  cases h with
  | nil => exact absurd rfl hne
  | cons he hes =>
    have hfirst := (he.to_product (by simp)).of_refines fun ρ v => (eval_mul_singleton (ρ := ρ)).1
    exact hfirst.separated_times hes

/-! ### Sums -/

theorem plus (h : Writes A .sum (.add es) ls) (he : Writes A r e ms) :
    Writes A .sum (.add (es ++ [e])) (ls ++ .plus :: ms) := by
  obtain ⟨f, hf, hfmeans⟩ := h
  obtain ⟨g, hg, hgmeans⟩ := he.to_sum
  obtain ⟨k, hk, hvalue⟩ := hf.plus_sum hg
  refine ⟨k, by simpa [Lexeme.token] using hk, fun ρ η hη v hv => ?_⟩
  obtain ⟨x, y, hx, hy, rfl⟩ := eval_add_append_iff.1 hv
  exact hvalue η x y (hfmeans ρ η hη x hx) (hgmeans ρ η hη y (eval_add_singleton.1 hy))

/-- A term is taken away when its opposite is written behind a minus sign. -/
theorem minus (h : Writes A .sum (.add es) ls) (he : Writes A .product d ms)
    (hde : ∀ (ρ : Environment Rat) v, e.eval ρ = some v → d.eval ρ = some (-v)) :
    Writes A .sum (.add (es ++ [e])) (ls ++ .minus :: ms) := by
  obtain ⟨f, hf, hfmeans⟩ := h
  obtain ⟨g, hg, hgmeans⟩ := he
  refine ⟨.minus f g, by simpa [Lexeme.token] using Derives.minus hf hg, fun ρ η hη v hv => ?_⟩
  obtain ⟨x, y, hx, hy, rfl⟩ := eval_add_append_iff.1 hv
  rw [← sub_neg_eq_add]
  exact Formula.eval_minus_of (hfmeans ρ η hη x hx)
    (hgmeans ρ η hη (-y) (hde ρ y (eval_add_singleton.1 hy)))

/-! ### Calls -/

/-- Formulas for the arguments of a call, with the tokens of each. -/
theorem exists_args (h : List.Forall₂ (Writes A .sum) es lss) :
    ∃ args : List (List Token × Formula), args.map (·.1) = lss.map (List.map Lexeme.token) ∧
      (∀ a ∈ args, Derives .sum a.1 a.2) ∧ ∀ ρ η, A ρ η → ∀ xs, evalAll ρ es = some xs →
        Formula.evalAll η (args.map (·.2)) = some xs := by
  induction h with
  | nil => exact ⟨[], rfl, by simp, fun _ _ _ _ h => h⟩
  | @cons e ls es lss he _ ih =>
    obtain ⟨f, hf, hmeans⟩ := he
    obtain ⟨args, htokens, hargs, hvalues⟩ := ih
    refine ⟨(ls.map Lexeme.token, f) :: args, by simp [htokens],
      List.forall_mem_cons.2 ⟨hf, hargs⟩, fun ρ η hη xs hxs => ?_⟩
    obtain ⟨x, xs, hx, hrest, rfl⟩ := evalAll_cons_iff.1 hxs
    simp [Formula.evalAll, hmeans ρ η hη x hx, hvalues ρ η hη xs hrest]

/-- A call means what its function gives for the values of its arguments. -/
theorem call {n : String} (hn : isName n) (h : List.Forall₂ (Writes A .sum) es lss)
    (hde : ∀ ρ η, A ρ η → ∀ v, d.eval ρ = some v →
      ∃ xs, evalAll ρ es = some xs ∧ η.function n xs = some v) :
    Writes A .factor d (.name n :: Expr.parenthesize (separated .comma lss)) := by
  obtain ⟨args, htokens, hargs, hvalues⟩ := exists_args h
  refine ⟨.call n (args.map (·.2)), ?_, fun ρ η hη v hv => ?_⟩
  · have hcall := Derives.call hn hargs
    rw [htokens] at hcall
    simpa [Expr.parenthesize, map_separated, Lexeme.token] using hcall
  · obtain ⟨xs, hxs, hv⟩ := hde ρ η hη v hv
    simp [Formula.eval, hvalues ρ η hη xs hxs, hv]

end Writes

end Expr

end Kirchhoff
