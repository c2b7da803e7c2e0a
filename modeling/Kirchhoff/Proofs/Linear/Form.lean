import Kirchhoff.Proofs.Expr.Symbols
import Kirchhoff.Proofs.Linear.Elimination

/-!
# What a linear form says

Written out as an expression, in which the unknowns are numbers (`LinearForm.expr`), the linear form
of an expression has the value of the expression (`eval_linearForm?`). Its entries mention no
unknown, and each unknown has one coefficient (`LinearForm.IsProper`), so that the value is the sum
of the coefficients times the unknowns and of the constant (`LinearForm.IsProper.exists_values`).

For an equation, whose residual is brought into linear form, this gives the capstone
`linearSystem_residual`: both sides differ by what the row of the equation says.
-/

namespace Kirchhoff

open Kirchhoff.Expr

variable {α : Type} {unknowns : List Symbol}

/-! ### Positions of unknowns -/

/-- A position is that of an unknown equal to the symbol. -/
theorem unknownIndex?_eq_some {s : Symbol} {j : ℕ} (h : unknownIndex? unknowns s = some j) :
    ∃ u, unknowns[j]? = some u ∧ (u == s) = true := by
  obtain ⟨⟨u, k⟩, hfind, rfl⟩ := Option.map_eq_some_iff.1 h
  have hmem := List.mem_reverse.1 (List.mem_of_find?_eq_some hfind)
  exact ⟨u, List.mem_zipIdx_iff_getElem?.1 hmem, by simpa using List.find?_some hfind⟩

theorem unknownIndex?_eq_none {s : Symbol} (h : unknownIndex? unknowns s = none) :
    IsOther unknowns s := by
  intro u hu
  obtain ⟨j, hj⟩ := List.mem_iff_getElem?.1 hu
  have hmem : (u, j) ∈ unknowns.zipIdx.reverse :=
    List.mem_reverse.2 (List.mem_zipIdx_iff_getElem?.2 hj)
  simpa using List.find?_eq_none.1 (Option.map_eq_none_iff.1 h) _ hmem

variable [Scalar α]

/-! ### Taking expressions apart -/

namespace Expr

/-- Factors are parted by whether they depend on the unknowns. -/
theorem factorForms_eq (fs : List (Expr α)) :
    factorForms unknowns fs = (fs.filter (!·.dependsOn unknowns),
      (fs.filter (·.dependsOn unknowns)).map (linearForm? unknowns)) := by
  induction fs with
  | nil => rfl
  | cons f fs ih =>
    rw [factorForms, ih]
    cases hf : f.dependsOn unknowns <;> simp [hf]

theorem sumForms?_eq (form : LinearForm α) (ts : List (Expr α)) :
    sumForms? unknowns form ts =
      ts.foldlM (fun form t => (linearForm? unknowns t).map form.add) form := by
  induction ts generalizing form with
  | nil => rfl
  | cons t ts ih =>
    rw [sumForms?, List.foldlM_cons]
    cases linearForm? unknowns t with
    | none => rfl
    | some g => exact ih (form.add g)

/-- A product with a linear form depends on the unknowns in no factor, or in one, whose form is
scaled by the others. -/
theorem linearForm?_mul_cases {fs : List (Expr α)} {form : LinearForm α}
    (h : linearForm? unknowns (.mul fs) = some form) :
    ((∀ f ∈ fs, f.dependsOn unknowns = false) ∧ form = .ofConstant (.mul fs)) ∨
    ∃ d g, fs.filter (·.dependsOn unknowns) = [d] ∧ linearForm? unknowns d = some g ∧
      form = g.scale (.product (fs.filter (!·.dependsOn unknowns))) := by
  rw [linearForm?, factorForms_eq] at h
  generalize hdependent : fs.filter (·.dependsOn unknowns) = dependent at h
  match dependent with
  | [] =>
    refine .inl ⟨fun f hf => ?_, (Option.some.inj h).symm⟩
    simpa using List.filter_eq_nil_iff.1 hdependent f hf
  | [d] =>
    cases hd : linearForm? unknowns d with
    | none => simp [hd] at h
    | some g =>
      rw [List.map_singleton, hd] at h
      exact .inr ⟨d, g, rfl, hd, (Option.some.inj h).symm⟩
  | _ :: _ :: _ => simp at h

omit [Scalar α] in
/-- A power or call with a linear form is a constant. -/
theorem linearForm?_of_ite {e : Expr α} {form : LinearForm α}
    (h : (if e.dependsOn unknowns then none else some (LinearForm.ofConstant e)) = some form) :
    e.dependsOn unknowns = false ∧ form = .ofConstant e := by
  cases he : e.dependsOn unknowns with
  | true => simp [he] at h
  | false => exact ⟨rfl, by simpa [he] using h.symm⟩

end Expr

/-! ### Entries without unknowns -/

namespace LinearForm

/-- The positions are those of unknowns, each occurs once, and no coefficient mentions an
unknown. -/
structure AreProper (unknowns : List Symbol) (cs : List (ℕ × Expr α)) : Prop where
  lt_length : ∀ p ∈ cs, p.1 < unknowns.length
  nodup : (cs.map (·.1)).Nodup
  within : ∀ p ∈ cs, p.2.Within (IsOther unknowns)

/-- The coefficients are proper, and the constant mentions no unknown. -/
structure IsProper (unknowns : List Symbol) (f : LinearForm α) : Prop where
  coefficients : AreProper unknowns f.coefficients
  constant : f.constant.Within (IsOther unknowns)

variable {f g : LinearForm α} {cs : List (ℕ × Expr α)} {c e : Expr α} {j : ℕ}

omit [Scalar α] in
theorem isProper_ofConstant (h : e.Within (IsOther unknowns)) :
    (ofConstant e).IsProper unknowns :=
  ⟨⟨by simp [ofConstant], by simp [ofConstant], by simp [ofConstant]⟩, h⟩

theorem isProper_ofUnknown (h : j < unknowns.length) :
    (ofUnknown j : LinearForm α).IsProper unknowns :=
  ⟨⟨by simpa [ofUnknown], by simp [ofUnknown], by simp [ofUnknown]⟩, within_number 0⟩

theorem mem_positions_addCoefficient {k : ℕ} :
    k ∈ (addCoefficient j c cs).map (·.1) ↔ k = j ∨ k ∈ cs.map (·.1) := by
  induction cs with
  | nil => simp [addCoefficient]
  | cons p cs ih =>
    obtain ⟨i, d⟩ := p
    rw [addCoefficient]
    split
    · rename_i hij
      simp [hij]
    · rw [List.map_cons, List.mem_cons, ih, List.map_cons, List.mem_cons]
      exact or_left_comm

theorem nodup_addCoefficient (h : (cs.map (·.1)).Nodup) :
    ((addCoefficient j c cs).map (·.1)).Nodup := by
  induction cs with
  | nil => exact List.nodup_singleton j
  | cons p cs ih =>
    obtain ⟨i, d⟩ := p
    obtain ⟨hi, hcs⟩ := List.nodup_cons.1 h
    rw [addCoefficient]
    split
    · exact h
    · rename_i hij
      refine List.nodup_cons.2 ⟨fun hmem => ?_, ih hcs⟩
      exact (mem_positions_addCoefficient.1 hmem).elim hij hi

theorem forall_mem_addCoefficient {R : ℕ × Expr α → Prop} (hnew : R (j, .number 0 + c))
    (hadd : ∀ d, R (j, d) → R (j, d + c)) (h : ∀ p ∈ cs, R p) :
    ∀ p ∈ addCoefficient j c cs, R p := by
  induction cs with
  | nil => simpa [addCoefficient] using hnew
  | cons p cs ih =>
    obtain ⟨i, d⟩ := p
    obtain ⟨hd, hcs⟩ := List.forall_mem_cons.1 h
    rw [addCoefficient]
    split
    · rename_i hij
      subst hij
      exact List.forall_mem_cons.2 ⟨hadd d hd, hcs⟩
    · exact List.forall_mem_cons.2 ⟨hd, ih hcs⟩

theorem within_addCoefficient {P : Symbol → Prop} (hc : c.Within P) (h : ∀ p ∈ cs, p.2.Within P) :
    ∀ p ∈ addCoefficient j c cs, p.2.Within P :=
  forall_mem_addCoefficient (R := fun p => p.2.Within P) (within_plus (within_number 0) hc)
    (fun _ hd => within_plus hd hc) h

/-- A coefficient is one of the form, or zero. -/
theorem coefficient_cases (f : LinearForm α) (j : ℕ) :
    f.coefficient j = .number 0 ∨ (j, f.coefficient j) ∈ f.coefficients := by
  rw [coefficient]
  cases hj : f.coefficients.lookup j with
  | none => exact .inl rfl
  | some c =>
    obtain ⟨cs, ds, hcs, -⟩ := List.lookup_eq_some_iff.1 hj
    exact .inr (hcs ▸ by simp)

theorem within_coefficient (f : LinearForm α) {P : Symbol → Prop}
    (h : ∀ p ∈ f.coefficients, p.2.Within P) (j : ℕ) : (f.coefficient j).Within P := by
  obtain hj | hj := f.coefficient_cases j
  · exact hj ▸ within_number 0
  · exact h _ hj

theorem AreProper.addCoefficient (h : AreProper unknowns cs) (hj : j < unknowns.length)
    (hc : c.Within (IsOther unknowns)) : AreProper unknowns (addCoefficient j c cs) where
  lt_length p hp := by
    have hmem := mem_positions_addCoefficient.1 (List.mem_map_of_mem hp)
    obtain heq | hmem := hmem
    · rwa [heq]
    · obtain ⟨q, hq, heq⟩ := List.mem_map.1 hmem
      exact heq ▸ h.lt_length q hq
  nodup := nodup_addCoefficient h.nodup
  within := within_addCoefficient hc h.within

theorem IsProper.add (hf : f.IsProper unknowns) (hg : g.IsProper unknowns) :
    (f.add g).IsProper unknowns where
  coefficients := List.foldlRecOn _ _ hf.coefficients fun _ h p hp =>
    h.addCoefficient (hg.coefficients.lt_length p hp) (hg.coefficients.within p hp)
  constant := within_plus hf.constant hg.constant

theorem IsProper.scale (hf : f.IsProper unknowns) (he : e.Within (IsOther unknowns)) :
    (f.scale e).IsProper unknowns where
  coefficients :=
    { lt_length := List.forall_mem_map.2 hf.coefficients.lt_length
      nodup := by
        rw [LinearForm.scale, List.map_map]
        exact hf.coefficients.nodup
      within := List.forall_mem_map.2 fun p hp => within_times (hf.coefficients.within p hp) he }
  constant := within_times hf.constant he

/-- No entry of the linear form of an expression mentions an unknown. -/
theorem isProper_of_linearForm? {e : Expr α} (h : e.linearForm? unknowns = some f) :
    f.IsProper unknowns := by
  induction e generalizing f with
  | number v =>
    obtain rfl := Option.some.inj h
    exact isProper_ofConstant (within_number v)
  | symbol s =>
    rw [Expr.linearForm?] at h
    cases hs : unknownIndex? unknowns s with
    | some j =>
      rw [hs] at h
      obtain rfl := Option.some.inj h
      obtain ⟨u, hu, -⟩ := unknownIndex?_eq_some hs
      exact isProper_ofUnknown (List.getElem?_eq_some_iff.1 hu).1
    | none =>
      rw [hs] at h
      obtain rfl := Option.some.inj h
      exact isProper_ofConstant (within_symbol_iff.2 (unknownIndex?_eq_none hs))
  | add ts ih =>
    rw [Expr.linearForm?, sumForms?_eq] at h
    refine invariant_of_foldlM (fun t ht f f' hf hproper => ?_) h
      (isProper_ofConstant (within_number 0))
    obtain ⟨g, hg, rfl⟩ := Option.map_eq_some_iff.1 hf
    exact hproper.add (ih t ht hg)
  | mul fs ih =>
    obtain ⟨hnone, rfl⟩ | ⟨d, g, hd, hg, rfl⟩ := linearForm?_mul_cases h
    · exact isProper_ofConstant
        (within_mul_iff.2 fun f hf => dependsOn_eq_false_iff.1 (hnone f hf))
    · have hmem : d ∈ fs := List.mem_of_mem_filter (hd ▸ List.mem_singleton_self d)
      refine (ih d hmem hg).scale (within_product fun f hf => dependsOn_eq_false_iff.1 ?_)
      simpa using (List.mem_filter.1 hf).2
  | pow b x _ _ =>
    obtain ⟨hfree, rfl⟩ := linearForm?_of_ite h
    exact isProper_ofConstant (dependsOn_eq_false_iff.1 hfree)
  | call name args _ =>
    obtain ⟨hfree, rfl⟩ := linearForm?_of_ite h
    exact isProper_ofConstant (dependsOn_eq_false_iff.1 hfree)

end LinearForm

/-! ### Values of linear forms -/

/-- The numbers are the values of the unknowns, where these have one. -/
def AreValues (ρ : Valuation Rat) (unknowns : List Symbol) (x : ℕ → Rat) : Prop :=
  ∀ j, ∀ u ∈ unknowns[j]?, ∀ v ∈ ρ.symbol u, x j = v

namespace LinearForm

variable {ρ : Environment Rat} {x : ℕ → Rat} {f g : LinearForm Rat} {cs ds : List (ℕ × Expr Rat)}
  {c e : Expr Rat} {j : ℕ} {u v y : Rat}

/-- A coefficient times its unknown. -/
def term (x : ℕ → Rat) (p : ℕ × Expr Rat) : Expr Rat := .mul [.number (x p.1), p.2]

/-- The sum of the coefficients times their unknowns. -/
def combination (x : ℕ → Rat) (cs : List (ℕ × Expr Rat)) : Expr Rat := .add (cs.map (term x))

/-- The expression that a form stands for. -/
def expr (x : ℕ → Rat) (f : LinearForm Rat) : Expr Rat :=
  .add [f.constant, combination x f.coefficients]

theorem eval_combination_cons_iff {p : ℕ × Expr Rat} :
    (combination x (p :: cs)).eval ρ = some v ↔
      ∃ y z, p.2.eval ρ = some y ∧ (combination x cs).eval ρ = some z ∧ x p.1 * y + z = v := by
  simp only [combination, List.map_cons, eval_add_cons_iff, term, eval_scaled_iff]
  constructor
  · rintro ⟨_, z, ⟨y, hy, rfl⟩, hz, rfl⟩
    exact ⟨y, z, hy, hz, rfl⟩
  · rintro ⟨y, z, hy, hz, rfl⟩
    exact ⟨_, z, ⟨y, hy, rfl⟩, hz, rfl⟩

theorem eval_expr_iff : (f.expr x).eval ρ = some v ↔
    ∃ b z, f.constant.eval ρ = some b ∧ (combination x f.coefficients).eval ρ = some z ∧
      b + z = v := by
  rw [expr, eval_add_cons_iff]
  simp only [eval_add_singleton]

/-- A coefficient is added to the one at its position. -/
theorem eval_addCoefficient (hcs : (combination x cs).eval ρ = some v)
    (hc : c.eval ρ = some y) :
    (combination x (addCoefficient j c cs)).eval ρ = some (v + x j * y) := by
  induction cs generalizing v with
  | nil =>
    obtain rfl : 0 = v := Option.some.inj (eval_add_nil.symm.trans hcs)
    refine eval_combination_cons_iff.2 ⟨0 + y, 0, eval_plus (eval_number 0) hc, eval_add_nil, ?_⟩
    ring
  | cons p cs ih =>
    obtain ⟨i, d⟩ := p
    obtain ⟨w, z, hw, hz, rfl⟩ := eval_combination_cons_iff.1 hcs
    rw [addCoefficient]
    split
    · rename_i hij
      refine eval_combination_cons_iff.2 ⟨w + y, z, eval_plus hw hc, hz, ?_⟩
      rw [hij]
      ring
    · exact eval_combination_cons_iff.2 ⟨w, z + x j * y, hw, ih hz, by ring⟩

theorem eval_addCoefficients (hcs : (combination x cs).eval ρ = some u)
    (hds : (combination x ds).eval ρ = some v) :
    (combination x (ds.foldl (fun cs p => addCoefficient p.1 p.2 cs) cs)).eval ρ
      = some (u + v) := by
  induction ds generalizing cs u v with
  | nil =>
    obtain rfl : 0 = v := Option.some.inj (eval_add_nil.symm.trans hds)
    rwa [add_zero]
  | cons p ds ih =>
    obtain ⟨y, z, hy, hz, rfl⟩ := eval_combination_cons_iff.1 hds
    rw [List.foldl_cons, ← add_assoc]
    exact ih (eval_addCoefficient hcs hy) hz

/-- The value of added forms is the sum of their values. -/
theorem eval_add (hf : (f.expr x).eval ρ = some u) (hg : (g.expr x).eval ρ = some v) :
    ((f.add g).expr x).eval ρ = some (u + v) := by
  obtain ⟨b, z, hb, hz, rfl⟩ := eval_expr_iff.1 hf
  obtain ⟨b', z', hb', hz', rfl⟩ := eval_expr_iff.1 hg
  exact eval_expr_iff.2 ⟨b + b', z + z', eval_plus hb hb', eval_addCoefficients hz hz', by ring⟩

theorem eval_scaled_combination (hcs : (combination x cs).eval ρ = some v)
    (he : e.eval ρ = some y) :
    (combination x (cs.map fun p => (p.1, p.2 * e))).eval ρ = some (v * y) := by
  induction cs generalizing v with
  | nil =>
    obtain rfl : 0 = v := Option.some.inj (eval_add_nil.symm.trans hcs)
    rw [zero_mul]
    exact hcs
  | cons p cs ih =>
    obtain ⟨w, z, hw, hz, rfl⟩ := eval_combination_cons_iff.1 hcs
    exact eval_combination_cons_iff.2 ⟨w * y, z * y, eval_times hw he, ih hz, by ring⟩

/-- Scaling a form multiplies its value. -/
theorem eval_scale (hf : (f.expr x).eval ρ = some v) (he : e.eval ρ = some y) :
    ((f.scale e).expr x).eval ρ = some (v * y) := by
  obtain ⟨b, z, hb, hz, rfl⟩ := eval_expr_iff.1 hf
  exact eval_expr_iff.2 ⟨b * y, z * y, eval_times hb he, eval_scaled_combination hz he, by ring⟩

theorem eval_ofConstant (he : e.eval ρ = some v) : ((ofConstant e).expr x).eval ρ = some v :=
  eval_expr_iff.2 ⟨v, 0, he, eval_add_nil, add_zero v⟩

theorem eval_ofUnknown (j : ℕ) : ((ofUnknown j : LinearForm Rat).expr x).eval ρ = some (x j) :=
  eval_expr_iff.2 ⟨0, x j, rfl,
    eval_combination_cons_iff.2 ⟨1, 0, rfl, eval_add_nil, by ring⟩, zero_add _⟩

/-- The factors with a property and the others make up a product. -/
theorem eval_mul_filter {p : Expr Rat → Bool} {fs : List (Expr Rat)}
    (h : (Expr.mul fs).eval ρ = some v) :
    ∃ y z, (Expr.mul (fs.filter p)).eval ρ = some y ∧
      (Expr.mul (fs.filter (!p ·))).eval ρ = some z ∧ y * z = v := by
  induction fs generalizing v with
  | nil =>
    obtain rfl : 1 = v := by simpa using h
    exact ⟨1, 1, eval_mul_nil, eval_mul_nil, one_mul 1⟩
  | cons f fs ih =>
    obtain ⟨w, v, hw, hv, rfl⟩ := eval_mul_cons_iff.1 h
    obtain ⟨y, z, hy, hz, rfl⟩ := ih hv
    cases hf : p f with
    | true =>
      rw [List.filter_cons_of_pos hf, List.filter_cons_of_neg (by simp [hf])]
      exact ⟨w * y, z, eval_mul_cons_iff.2 ⟨w, y, hw, hy, rfl⟩, hz, mul_assoc w y z⟩
    | false =>
      rw [List.filter_cons_of_neg (by simp [hf]), List.filter_cons_of_pos (by simp [hf])]
      exact ⟨y, w * z, hy, eval_mul_cons_iff.2 ⟨w, z, hw, hz, rfl⟩, mul_left_comm y w z⟩

/-- Adding the forms of terms adds their values. -/
theorem eval_foldlM_add {form? : Expr Rat → Option (LinearForm Rat)} {ts : List (Expr Rat)}
    (hform : ∀ t ∈ ts, ∀ f v, form? t = some f → t.eval ρ = some v → (f.expr x).eval ρ = some v)
    (h : ts.foldlM (fun f t => (form? t).map f.add) f = some g) (hf : (f.expr x).eval ρ = some u)
    (hv : (Expr.add ts).eval ρ = some v) : (g.expr x).eval ρ = some (u + v) := by
  induction ts generalizing f u v with
  | nil =>
    obtain rfl : f = g := by simpa using h
    obtain rfl : 0 = v := by simpa using hv
    rwa [add_zero]
  | cons t ts ih =>
    obtain ⟨y, z, hy, hz, rfl⟩ := eval_add_cons_iff.1 hv
    obtain ⟨ht, hts⟩ := List.forall_mem_cons.1 hform
    rw [List.foldlM_cons] at h
    obtain ⟨f', hf', h⟩ := Option.bind_eq_some_iff.1 h
    obtain ⟨d, hd, rfl⟩ := Option.map_eq_some_iff.1 hf'
    rw [← add_assoc]
    exact ih hts h (eval_add hf (ht d y hd hy)) hz

/-- The linear form of an expression has its value. -/
theorem eval_linearForm? (hx : AreValues ρ unknowns x) {e : Expr Rat}
    (h : e.linearForm? unknowns = some f) (hv : e.eval ρ = some v) :
    (f.expr x).eval ρ = some v := by
  induction e generalizing f v with
  | number y =>
    obtain rfl := Option.some.inj h
    exact eval_ofConstant hv
  | symbol s =>
    rw [Expr.linearForm?] at h
    cases hs : unknownIndex? unknowns s with
    | some j =>
      rw [hs] at h
      obtain rfl := Option.some.inj h
      obtain ⟨u, hu, hus⟩ := unknownIndex?_eq_some hs
      rw [← hx j u hu v ((ρ.symbol_congr hus).trans hv)]
      exact eval_ofUnknown j
    | none =>
      rw [hs] at h
      obtain rfl := Option.some.inj h
      exact eval_ofConstant hv
  | add ts ih =>
    rw [Expr.linearForm?, sumForms?_eq] at h
    rw [← zero_add v]
    exact eval_foldlM_add (fun t ht _ _ hf hv => ih t ht hf hv) h (eval_ofConstant rfl) hv
  | mul fs ih =>
    obtain ⟨-, rfl⟩ | ⟨d, g, hd, hg, rfl⟩ := linearForm?_mul_cases h
    · exact eval_ofConstant hv
    · have hmem : d ∈ fs := List.mem_of_mem_filter (hd ▸ List.mem_singleton_self d)
      obtain ⟨y, z, hy, hz, rfl⟩ := eval_mul_filter (p := (·.dependsOn unknowns)) hv
      rw [hd, eval_mul_singleton] at hy
      exact eval_scale (ih d hmem hg hy) (product_refines _ _ hz)
  | pow b e _ _ =>
    obtain ⟨-, rfl⟩ := linearForm?_of_ite h
    exact eval_ofConstant hv
  | call name args _ =>
    obtain ⟨-, rfl⟩ := linearForm?_of_ite h
    exact eval_ofConstant hv

/-! ### Coefficients by position -/

theorem lookup_eq_none {k : ℕ} (h : k ∉ cs.map (·.1)) : cs.lookup k = none := by
  refine List.lookup_eq_none_iff.2 fun p hp => ?_
  simpa using fun hk => h (List.mem_map.2 ⟨p, hp, hk.symm⟩)

/-- Looked up by position, the coefficients make up the combination. -/
theorem AreProper.exists_values (h : AreProper unknowns cs)
    (hv : (combination x cs).eval ρ = some v) :
    ∃ a : ℕ → Rat, (∀ j, ((cs.lookup j).getD (.number 0)).eval ρ = some (a j)) ∧
      ∑ j ∈ Finset.range unknowns.length, a j * x j = v := by
  induction cs generalizing v with
  | nil =>
    obtain rfl : 0 = v := Option.some.inj (eval_add_nil.symm.trans hv)
    exact ⟨0, fun _ => rfl, by simp⟩
  | cons p cs ih =>
    obtain ⟨k, c⟩ := p
    obtain ⟨hk, hlt⟩ := List.forall_mem_cons.1 h.lt_length
    obtain ⟨hnew, hnodup⟩ := List.nodup_cons.1 h.nodup
    obtain ⟨y, z, hy, hz, rfl⟩ := eval_combination_cons_iff.1 hv
    obtain ⟨a, ha, hsum⟩ := ih ⟨hlt, hnodup, (List.forall_mem_cons.1 h.within).2⟩ hz
    have hak : a k = 0 := by
      have hnone := ha k
      rw [lookup_eq_none hnew] at hnone
      exact (Option.some.inj hnone).symm
    refine ⟨fun j => if j = k then y else a j, fun j => ?_, ?_⟩
    · by_cases hj : j = k
      · simpa [List.lookup_cons, hj] using hy
      · simpa [List.lookup_cons, hj, beq_false_of_ne hj] using ha j
    · have hsplit (j : ℕ) :
          (if j = k then y else a j) * x j = (if j = k then x k * y else 0) + a j * x j := by
        split
        · rename_i hj
          rw [hj, hak]
          ring
        · ring
      rw [Finset.sum_congr rfl fun j _ => hsplit j, Finset.sum_add_distrib, hsum,
        Finset.sum_ite_eq' _ k, if_pos (Finset.mem_range.2 hk)]

theorem IsProper.exists_values (h : f.IsProper unknowns) (hv : (f.expr x).eval ρ = some v) :
    ∃ (a : ℕ → Rat) (b : Rat), (∀ j, (f.coefficient j).eval ρ = some (a j)) ∧
      f.constant.eval ρ = some b ∧
      ∑ j ∈ Finset.range unknowns.length, a j * x j + b = v := by
  obtain ⟨b, z, hb, hz, rfl⟩ := eval_expr_iff.1 hv
  obtain ⟨a, ha, rfl⟩ := h.coefficients.exists_values hz
  exact ⟨a, b, ha, hb, add_comm _ b⟩

end LinearForm

/-! ### The system -/

/-- A row has the coefficients of the form, and its constant on the right side. -/
theorem linearRow?_eq_some {q : Equation α} {row : LinearRow α}
    (h : q.linearRow? unknowns = some row) : ∃ form, q.residual.linearForm? unknowns = some form ∧
      row = ⟨(List.range unknowns.length).map form.coefficient, -form.constant⟩ := by
  obtain ⟨form, hform, hrow⟩ := Option.bind_eq_some_iff.1 h
  exact ⟨form, hform, (Option.some.inj hrow).symm⟩

theorem linearRow?_length {q : Equation α} {row : LinearRow α}
    (h : q.linearRow? unknowns = some row) : row.coefficients.length = unknowns.length := by
  obtain ⟨form, -, rfl⟩ := linearRow?_eq_some h
  simp

/-- A system has the row of each equation. -/
theorem linearSystem_rows {equations : List (Equation α)} {system : List (LinearRow α)}
    (h : linearSystem equations unknowns = .ok system) :
    List.Forall₂ (fun q row => q.linearRow? unknowns = some row) equations system := by
  have hrows := (forall₂_of_mapM_eq_ok h).imp (S := fun p row =>
    p.1.linearRow? unknowns = some row) fun p row hrow => by
      dsimp only at hrow
      split at hrow
      · rename_i hp
        rw [hp, Except.ok.inj hrow]
      · cases hrow
  rw [← List.zipIdx_map_fst 0 equations, List.forall₂_map_left_iff]
  exact hrows

/-- No entry of a row mentions an unknown. -/
theorem Equation.linearRow?_within {q : Equation α} {row : LinearRow α}
    (h : q.linearRow? unknowns = some row) :
    ∀ e ∈ row.rhs :: row.coefficients, e.Within (IsOther unknowns) := by
  obtain ⟨form, hform, rfl⟩ := linearRow?_eq_some h
  have hproper := LinearForm.isProper_of_linearForm? hform
  exact List.forall_mem_cons.2 ⟨within_negate hproper.constant,
    List.forall_mem_map.2 fun j _ => form.within_coefficient hproper.coefficients.within j⟩

/-- The row of an equation says by how much its sides differ. -/
theorem Equation.linearRow?_residual {ρ : Environment Rat} {q : Equation Rat} {row : LinearRow Rat}
    (h : q.linearRow? unknowns = some row) {x : ℕ → Rat} (hx : AreValues ρ unknowns x) {l r : Rat}
    (hl : q.lhs.eval ρ = some l) (hr : q.rhs.eval ρ = some r) :
    ∃ a b, row.HasValues ρ a b ∧
      l - r = ∑ j ∈ Finset.range unknowns.length, a j * x j - b := by
  obtain ⟨form, hform, rfl⟩ := linearRow?_eq_some h
  have hproper := LinearForm.isProper_of_linearForm? hform
  obtain ⟨a, b, ha, hb, hsum⟩ :=
    hproper.exists_values (LinearForm.eval_linearForm? hx hform (eval_minus hl hr))
  -- Past the unknowns, a row and its form have no coefficient.
  refine ⟨fun j => if j < unknowns.length then a j else 0, -b, ⟨fun j => ?_, eval_negate hb⟩, ?_⟩
  · rw [LinearRow.coefficient]
    by_cases hj : j < unknowns.length
    · simpa [hj] using ha j
    · simp [hj]
  · rw [← hsum, sub_neg_eq_add]
    congr 1
    refine Finset.sum_congr rfl fun j hj => ?_
    have hj : j < unknowns.length := Finset.mem_range.1 hj
    simp only [hj, if_true]

/-- **The linear form is the equation.** A linear system has a row for each equation, with a
coefficient for each unknown. No entry mentions an unknown; and wherever both sides of the equation
have values, the entries have values, and the sides differ by the sum of the coefficients times the
unknowns less the right-hand side. -/
theorem linearSystem_residual {equations : List (Equation Rat)} {system : List (LinearRow Rat)}
    (h : linearSystem equations unknowns = .ok system) :
    List.Forall₂ (fun q row =>
      row.coefficients.length = unknowns.length ∧
      (∀ e ∈ row.rhs :: row.coefficients, ∀ u ∈ unknowns, e.mentions u = false) ∧
      ∀ (ρ : Environment Rat) (x : ℕ → Rat) (l r : Rat), AreValues ρ unknowns x →
        q.lhs.eval ρ = some l → q.rhs.eval ρ = some r →
        ∃ a b, row.HasValues ρ a b ∧
          l - r = ∑ j ∈ Finset.range unknowns.length, a j * x j - b)
      equations system := by
  refine (linearSystem_rows h).imp fun q row hrow => ⟨linearRow?_length hrow, ?_, ?_⟩
  · intro e he u hu
    exact mentions_eq_false (q.linearRow?_within hrow e he) hu
  · intro ρ x l r hx hl hr
    exact q.linearRow?_residual hrow hx hl hr

/-- Unknowns under a product in a sum in a product, and one of them on both sides. -/
theorem linearSystem_residual_nested :
    let x : Symbol := ⟨0, "x"⟩
    let y : Symbol := ⟨1, "y"⟩
    let a : Expr Rat := .symbol ⟨2, "a"⟩
    let c : Expr Rat := .symbol ⟨3, "c"⟩
    let q : Equation Rat :=
      ⟨.number 2 * (.symbol x + a * (.symbol y - c)) - .symbol x * c, .symbol y / c⟩
    let system := (linearSystem [q] [x, y]).toOption.getD []
    let ρ : Environment Rat := .ofIds fun i => some (i + 1)
    q.lhs.eval ρ = some (-14) ∧ q.rhs.eval ρ = some (1 / 2) ∧ ∃ row ∈ system,
      (∀ e ∈ row.rhs :: row.coefficients, ∀ u ∈ [x, y], e.mentions u = false) ∧
      ∃ d b, row.HasValues ρ d b ∧
        (-14 : Rat) - 1 / 2 = ∑ j ∈ Finset.range 2, d j * (j + 1) - b := by
  intro x y a c q system ρ
  have hsystem : linearSystem [q] [x, y] = .ok system := eq_ok_getD (by decide +kernel)
  have hl : q.lhs.eval ρ = some (-14) := by decide +kernel
  have hr : q.rhs.eval ρ = some (1 / 2) := by decide +kernel
  have hvalues : AreValues ρ [x, y] fun j => j + 1 := by
    intro j u hu v hv
    match j with
    | 0 | 1 =>
      obtain rfl := Option.some.inj hu
      simpa [ρ, Environment.ofIds, x, y] using hv
  obtain ⟨row, rows, ⟨-, hfree, hresidual⟩, -, heq⟩ :=
    List.forall₂_cons_left_iff.1 (linearSystem_residual hsystem)
  exact ⟨hl, hr, row, heq ▸ List.mem_cons_self, hfree, hresidual ρ _ _ _ hvalues hl hr⟩

end Kirchhoff
