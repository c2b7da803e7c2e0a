import Kirchhoff.Proofs.Expr.Regular
import Kirchhoff.Proofs.Formula.Writing

/-!
# Products written as fractions

A product is written as a fraction of its factors: powers with negative numbers as exponents stand
below the line, where they are built anew with the opposite exponent. The fraction has the value of
the product (`Fraction.eval_ofFactors`), and its lexemes say so when those of its factors do
(`Fraction.writes`).

The factors of a fraction are no fractions themselves (`Fraction.hasPieces_ofFactors`), so that each
of them is an operand in its own right or in parentheses.
-/

namespace Kirchhoff.Expr

open Formula (isName)

variable {A : Reading} {ρ : Environment Rat} {W n : ℕ}

/-! ### Fractions -/

namespace Fraction

/-- The factors above the line, with the coefficient among them. -/
def numerator (q : Fraction Rat) : List (Expr Rat) := q.coefficient.toList.map .number ++ q.above

/-- The product that a fraction stands for. -/
def expr (q : Fraction Rat) : Expr Rat := .mul (q.numerator ++ q.below.map Writes.inverse)

/-- A power below the line stands for the power with the opposite exponent. -/
theorem eval_inverse_power {b : Expr Rat} {x v : Rat} (hx : x < 0)
    (h : (Expr.pow b (.number x)).eval ρ = some v) :
    (Writes.inverse (power b (.number (-x)))).eval ρ = some v := by
  obtain ⟨y, n, hy, rfl, hn, rfl⟩ := eval_pow_number_iff.1 h
  have hneg : n < 0 := by exact_mod_cast hx
  have hne : y ≠ 0 := hn.resolve_right (not_le.2 hneg)
  have hpower : (power b (.number (-(n : Rat)))).eval ρ = some (y ^ (-n)) :=
    power_refines b _ _ (eval_pow_number_iff.2 ⟨y, -n, hy, by push_cast; rfl, .inl hne, rfl⟩)
  exact Writes.eval_inverse_iff.2 ⟨_, hpower, zpow_ne_zero _ hne, by rw [zpow_neg, inv_inv]⟩

/-- The inverse of a product is the product of the inverses. -/
theorem eval_inverse_mul {fs : List (Expr Rat)} {v : Rat}
    (h : (Expr.mul (fs.map Writes.inverse)).eval ρ = some v) :
    (Writes.inverse (.mul fs)).eval ρ = some v := by
  rw [Writes.eval_inverse_iff]
  induction fs generalizing v with
  | nil => exact ⟨1, eval_mul_nil, one_ne_zero, by simpa using h⟩
  | cons f fs ih =>
    obtain ⟨x, y, hx, hy, rfl⟩ := eval_mul_cons_iff.1 h
    obtain ⟨z, hz, hzne, rfl⟩ := Writes.eval_inverse_iff.1 hx
    obtain ⟨w, hw, hwne, rfl⟩ := ih hy
    exact ⟨z * w, eval_mul_cons_iff.2 ⟨z, w, hz, hw, rfl⟩, mul_ne_zero hzne hwne, mul_inv z w⟩

/-- A factor that is put into a fraction multiplies its value. -/
theorem eval_insert {q : Fraction Rat} {f : Expr Rat} {x y : Rat} (hx : q.expr.eval ρ = some x)
    (hy : f.eval ρ = some y) : (q.insert f).expr.eval ρ = some (x * y) := by
  obtain ⟨a, b, ha, hb, rfl⟩ := eval_mul_append_iff.1 hx
  have habove : (expr { q with above := q.above ++ [f] }).eval ρ = some (a * b * y) := by
    refine eval_mul_append_iff.2 ⟨a * y, b, ?_, hb, by ring⟩
    rw [numerator, ← List.append_assoc]
    exact eval_mul_append_iff.2 ⟨a, y, ha, eval_mul_singleton.2 hy, rfl⟩
  unfold Fraction.insert
  split
  · rename_i c e
    split
    · rename_i he
      refine eval_mul_append_iff.2 ⟨a, b * y, ha, ?_, by ring⟩
      rw [List.map_append]
      exact eval_mul_append_iff.2 ⟨b, y, hb, eval_mul_singleton.2 (eval_inverse_power he hy), rfl⟩
    · exact habove
  · exact habove

theorem eval_foldl_insert {fs : List (Expr Rat)} {q : Fraction Rat} {x y : Rat}
    (hx : q.expr.eval ρ = some x) (hy : (Expr.mul fs).eval ρ = some y) :
    (fs.foldl Fraction.insert q).expr.eval ρ = some (x * y) := by
  induction fs generalizing q x y with
  | nil =>
    obtain rfl : 1 = y := by simpa using hy
    simpa using hx
  | cons f fs ih =>
    obtain ⟨z, w, hz, hw, rfl⟩ := eval_mul_cons_iff.1 hy
    rw [List.foldl_cons, ← mul_assoc]
    exact ih (eval_insert hx hz) hw

/-- The fraction of a product has its value. -/
theorem eval_ofFactors {fs : List (Expr Rat)} : Refines ρ (.mul fs) (ofFactors fs).expr := by
  intro v hv
  unfold Fraction.ofFactors
  split
  · rename_i c fs
    obtain ⟨x, hx, rfl⟩ := eval_mul_number_iff.1 hv
    exact eval_foldl_insert (eval_mul_singleton.2 rfl) hx
  · rw [← one_mul v]
    exact eval_foldl_insert eval_mul_nil hv

/-- The line stands behind what is above it. -/
theorem lexemes_eq (q : Fraction Rat) (above below : List (List (Lexeme Rat))) :
    q.lexemes above below =
      match below with
      | [] => q.lexemes above []
      | [f] => q.lexemes above [] ++ .over :: f
      | fs => q.lexemes above [] ++ .over :: parenthesize (separated .times fs) := by
  unfold Fraction.lexemes
  cases q.lead
  rcases below with _ | ⟨f, _ | ⟨g, fs⟩⟩ <;> rfl

/-- What is written above the line is the numerator. -/
theorem writes_top {q : Fraction Rat} {above : List (List (Lexeme Rat))}
    (habove : List.Forall₂ (Writes A .factor) q.above above) :
    Writes A .product (.mul q.numerator) (q.lexemes above []) := by
  obtain ⟨coefficient, fs, below⟩ := q
  cases coefficient with
  | none =>
    cases habove with
    | nil =>
      have hone : Writes A .product (.mul []) [.number 1] :=
        ((Writes.unsigned 1).to_product (by simp)).of_refines fun ρ v hv => by simpa using hv
      simpa [Fraction.lexemes, lead, numerator] using hone
    | cons hf hfs =>
      simpa [Fraction.lexemes, lead, numerator] using
        Writes.product (List.cons_ne_nil _ _) (.cons hf hfs)
  | some c =>
    have hnumber : Writes A .factor (.number c) (numberLexemes c) := .number c
    cases habove with
    | nil =>
      have hproduct := Writes.product (List.cons_ne_nil _ _) (.cons hnumber .nil)
      simpa [Fraction.lexemes, lead, numerator] using hproduct
    | @cons f ls fs lss hf hfs =>
      by_cases hminus : c = -1
      · subst hminus
        have hsign : Writes A .product (.mul [.mul [.number (-1), f]]) (.negate :: ls) :=
          (hf.negate.to_product (by simp)).of_refines fun ρ v => eval_mul_singleton.1
        have hproduct := hsign.separated_times hfs
        rw [separated_cons] at hproduct
        refine Writes.of_refines (fun ρ v hv => ?_)
          (by simpa [Fraction.lexemes, lead, numerator] using hproduct)
        obtain ⟨x, hx, rfl⟩ := eval_mul_number_iff.1 hv
        obtain ⟨y, z, hy, hz, rfl⟩ := eval_mul_cons_iff.1 hx
        exact eval_mul_cons_iff.2 ⟨-1 * y, z, eval_scaled_iff.2 ⟨y, hy, rfl⟩, hz, by ring⟩
      · by_cases hone : c = 1
        · subst hone
          have hproduct := Writes.product (List.cons_ne_nil _ _) (.cons hf hfs)
          refine Writes.of_refines (fun ρ v hv => ?_)
            (by simpa [Fraction.lexemes, lead, numerator, hminus] using hproduct)
          obtain ⟨x, hx, rfl⟩ := eval_mul_number_iff.1 hv
          rwa [one_mul]
        · have hproduct := Writes.product (List.cons_ne_nil _ _) (.cons hnumber (.cons hf hfs))
          simpa [Fraction.lexemes, lead, numerator, hminus, hone] using hproduct

/-- The lexemes of a fraction say what it stands for. -/
theorem writes {q : Fraction Rat} {above below : List (List (Lexeme Rat))}
    (habove : List.Forall₂ (Writes A .factor) q.above above)
    (hbelow : List.Forall₂ (Writes A .factor) q.below below) :
    Writes A .product q.expr (q.lexemes above below) := by
  have htop := writes_top habove
  rw [lexemes_eq, expr]
  generalize q.below = gs at hbelow
  cases hbelow with
  | nil => simpa using htop
  | cons hf hfs =>
    cases hfs with
    | nil => exact htop.divide hf
    | cons hg hgs =>
      have hproduct := Writes.product (List.cons_ne_nil _ _) (.cons hf (.cons hg hgs))
      refine (htop.divide hproduct.parenthesize).of_refines fun ρ v hv => ?_
      obtain ⟨x, y, hx, hy, rfl⟩ := eval_mul_append_iff.1 hv
      exact eval_mul_append_iff.2 ⟨x, y, hx, eval_mul_singleton.2 (eval_inverse_mul hy), rfl⟩

end Fraction

/-! ### The budget for writing -/

/-- How many rounds of writing an expression takes beyond those for its weight. -/
def level : Expr Rat → ℕ
  | .mul _ => 3
  | .pow _ x => if x.isNegative then 3 else 2
  | _ => 1

theorem level_le (e : Expr Rat) : e.level ≤ 3 := by
  unfold level
  split
  · exact Nat.le_refl _
  · split <;> omega
  · omega

theorem level_pos (e : Expr Rat) : 0 < e.level := by
  unfold level
  split
  · exact Nat.succ_pos _
  · split <;> exact Nat.succ_pos _
  · exact Nat.succ_pos _

/-- An expression that is written in parentheses or without an operator of its own, where it is a
factor: no fraction. -/
structure IsPiece (S : Symbol → Prop) (N : String → Prop) (W : ℕ) (f : Expr Rat) : Prop where
  regular : IsRegular S N f
  level : f.level ≤ 2
  weight : f.weight ≤ W

variable {S : Symbol → Prop} {N : String → Prop}

/-- A power below the line is no fraction: one of a product or of a power with a number as its
exponent would have been multiplied out. -/
theorem level_power_neg {b : Expr Rat} {x : Rat} (h : IsSettled b (.number x)) (hx : x < 0) :
    (power b (.number (-x))).level ≤ 2 := by
  have hinteger (hv : Scalar.isInteger (-x) = true) : Scalar.isInteger x = true := by
    simpa [Scalar.isInteger] using hv
  obtain ⟨m, hm⟩ : ∃ m, budget (size b + size (.number (-x) : Expr Rat)) = m + 1 :=
    Nat.exists_eq_succ_of_ne_zero (by simp [budget])
  have hpower := power?_budget b (.number (-x))
  rw [hm] at hpower
  rcases power?_cases hpower with ⟨u, -, -, h'⟩ | ⟨u, hu, h1, h'⟩ | ⟨u, v, w, -, -, -, h'⟩ |
    ⟨c, u, v, rfl, hv, hint, -⟩ | ⟨fs, v, gs, rfl, hv, hint, -, -⟩ | ⟨u, -, -, h'⟩ | ⟨-, h'⟩
  · rw [h']
    simp [level]
  · obtain rfl := Expr.number.inj hu
    rw [h']
    have hmul := h.integral rfl (hinteger (by rw [eq_of_beq h1]; rfl))
    unfold level
    split
    · exact absurd rfl (hmul.1 _)
    · rename_i c y
      cases y with
      | number v => exact absurd rfl (hmul.2 c v)
      | _ => simp [isNegative]
    · omega
  · rw [h']
    simp [level]
  · obtain rfl := Expr.number.inj hv
    exact absurd rfl ((h.integral rfl (hinteger hint)).2 c u)
  · obtain rfl := Expr.number.inj hv
    exact absurd rfl ((h.integral rfl (hinteger hint)).1 fs)
  · rw [h']
    simp [level]
  · rw [h']
    simp [level, isNegative, Scalar.isNegative, not_lt.2 hx.le]

/-- The pieces of a fraction. -/
def Fraction.HasPieces (S : Symbol → Prop) (N : String → Prop) (W : ℕ) (q : Fraction Rat) : Prop :=
  (∀ f ∈ q.above, IsPiece S N W f) ∧ ∀ f ∈ q.below, IsPiece S N W f

theorem Fraction.hasPieces_insert {q : Fraction Rat} {f : Expr Rat} (hq : q.HasPieces S N W)
    (hf : IsRegular S N f) (hmul : ∀ gs, f ≠ .mul gs) (hW : f.weight ≤ W) :
    (q.insert f).HasPieces S N W := by
  obtain ⟨habove, hbelow⟩ := hq
  have hadd (hlevel : f.level ≤ 2) :
      Fraction.HasPieces S N W { q with above := q.above ++ [f] } :=
    ⟨List.forall_mem_append.2 ⟨habove, by simpa using ⟨hf, hlevel, hW⟩⟩, hbelow⟩
  unfold Fraction.insert
  split
  · rename_i b x
    split
    · rename_i hx
      refine ⟨habove, List.forall_mem_append.2 ⟨hbelow, List.forall_mem_singleton.2 ?_⟩⟩
      obtain _ | _ | _ | _ | ⟨hb, -, hset⟩ := hf
      have hweight := (bounded (sumOn_isLight _) _).power (power?_budget b (.number (-x)))
      simp only [Expr.weight] at hweight hW
      exact ⟨(hereditary_isRegular S N).power hb (.number _), level_power_neg hset hx, by omega⟩
    · rename_i hx
      exact hadd (by simp [level, isNegative, Scalar.isNegative, hx])
  · rename_i hpow
    refine hadd ?_
    unfold level
    split
    · exact absurd rfl (hmul _)
    · rename_i b x
      cases x with
      | number v => exact absurd rfl (hpow b v)
      | _ => simp [isNegative]
    · omega

theorem Fraction.hasPieces_ofFactors {fs : List (Expr Rat)} (hfs : ∀ f ∈ fs, IsRegular S N f)
    (hmul : ∀ f ∈ fs, ∀ gs, f ≠ .mul gs) (hW : weightAll fs ≤ W) :
    (Fraction.ofFactors fs).HasPieces S N W := by
  have hfold (c : Option Rat) {fs : List (Expr Rat)} (hfs : ∀ f ∈ fs, IsRegular S N f)
      (hmul : ∀ f ∈ fs, ∀ gs, f ≠ .mul gs) (hW : weightAll fs ≤ W) :
      (fs.foldl Fraction.insert ⟨c, [], []⟩).HasPieces S N W :=
    List.foldlRecOn (motive := Fraction.HasPieces S N W) _ _ (by simp [HasPieces])
      fun q hq f hf => hasPieces_insert hq (hfs f hf) (hmul f hf)
        ((weight_le_weightAll hf).trans hW)
  unfold Fraction.ofFactors
  split
  · rename_i c fs
    exact hfold _ (List.forall_mem_cons.1 hfs).2 (List.forall_mem_cons.1 hmul).2
      (by simpa [weightAll, Expr.weight] using hW)
  · exact hfold _ hfs hmul hW

end Kirchhoff.Expr
