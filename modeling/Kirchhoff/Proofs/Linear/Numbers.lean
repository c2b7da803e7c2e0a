import Kirchhoff.Proofs.Expr.Rebuilding
import Kirchhoff.Proofs.Linear.Solvability

/-!
# Rows of numbers

A canonical expression without symbols that has a value is a number, written as such
(`Expr.IsCanonical.eq_number_of_eval`). So the operations fold numbers, and the row of an equation
that is built from numbers and unknowns consists of numbers (`Equation.IsNumeric.isNumeric_row`). An
elimination keeps such rows (`Gauge.isNumeric_eliminate`), whatever it drops.
-/

namespace Kirchhoff

open Kirchhoff.Expr

/-! ### Numbers -/

namespace Expr

variable {m : ℕ} {e : Expr Rat} {v : Rat}

theorem eval_of_evalAll {ρ : Valuation Rat} {es : List (Expr Rat)} {vs : List Rat}
    (h : evalAll ρ es = some vs) : ∀ e ∈ es, ∃ v, e.eval ρ = some v := by
  induction es generalizing vs with
  | nil => simp
  | cons e es ih =>
    obtain ⟨x, xs, hx, hxs, -⟩ := evalAll_cons_iff.1 h
    exact List.forall_mem_cons.2 ⟨⟨x, hx⟩, ih hxs⟩

/-- A list of numbers has no other operands. -/
theorem others_eq_nil {es : List (Expr Rat)} (h : ∀ e ∈ es, ∃ v, e = .number v) :
    others es = [] := by
  refine List.filter_eq_nil_iff.2 fun e he => ?_
  obtain ⟨v, rfl⟩ := h e he
  simp [number?]

/-- A canonical expression without symbols that has a value is a number. -/
theorem IsCanonical.eq_number_of_eval (h : IsCanonical m e) (hfree : e.Within NoSymbol)
    (hv : e.eval Environment.bare = some v) : e = .number v := by
  induction h generalizing v with
  | number w => exact congrArg _ (Option.some.inj hv)
  | symbol _ s => exact (within_symbol_iff.1 hfree).elim
  | @add m ts _ _ hts ih =>
    -- Only one of the terms may be a number, but there are two at least.
    obtain ⟨xs, hxs, -⟩ := eval_add_iff.1 hv
    have hothers : others ts = [] := others_eq_nil fun t ht =>
      (eval_of_evalAll hxs t ht).imp fun x hx => ih t ht (within_add_iff.1 hfree t ht) hx
    have hlength := hts.two_le
    obtain hts | ⟨w, -, hts⟩ := hts.constant <;> rw [hothers] at hts <;> simp [hts] at hlength
  | @mul m fs _ _ hfs ih =>
    obtain ⟨xs, hxs, -⟩ := eval_mul_iff.1 hv
    have hothers : others fs = [] := others_eq_nil fun f hf =>
      (eval_of_evalAll hxs f hf).imp fun x hx => ih f hf (within_mul_iff.1 hfree f hf) hx
    have hlength := hfs.two_le
    obtain hfs | ⟨w, -, -, hfs⟩ := hfs.coefficient <;> rw [hothers] at hfs <;>
      simp [hfs] at hlength
  | pow _ _ _ _ hset ihb ihx =>
    -- The power of the two numbers would have been folded.
    rw [within_pow_iff] at hfree
    obtain ⟨x, n, hx, hn, hpower, -⟩ := eval_pow_iff.1 hv
    have hfold := hset.unfolded (ihb hfree.1 hx) (ihx hfree.2 hn)
    have hvalue : Scalar.power? x (n : Rat) = some (x ^ n) :=
      integralPower?_eq_some_iff.2 ⟨n, rfl, hpower, rfl⟩
    simp [Scalar.foldPower?, hvalue, Scalar.isFinite] at hfold
  | call _ f _ _ =>
    obtain ⟨xs, -, hf⟩ := eval_call_iff.1 hv
    cases hf

@[simp] theorem value_number (v : Rat) : (Expr.number v).value = v := rfl

/-- Numbers are multiplied to a number. -/
theorem number_times (a b : Rat) : (.number a * .number b : Expr Rat) = .number (a * b) :=
  (isCanonical_one_times (.number a) (.number b)).eq_number_of_eval
    (within_times (within_number a) (within_number b)) (eval_times rfl rfl)

theorem number_minus (a b : Rat) : (.number a - .number b : Expr Rat) = .number (a - b) :=
  (isCanonical_one_minus (.number a) (.number b)).eq_number_of_eval
    (within_minus (within_number a) (within_number b)) (eval_minus rfl rfl)

theorem number_over {a b : Rat} (hb : b ≠ 0) :
    (.number a / .number b : Expr Rat) = .number (a / b) :=
  (isCanonical_one_over (.number a) (.number b)).eq_number_of_eval
    (within_over (within_number a) (within_number b)) (eval_over rfl rfl hb)

end Expr

/-! ### Rows of numbers -/

namespace LinearForm

variable {unknowns : List Symbol} {f g : LinearForm Rat} {e : Expr Rat}

/-- The entries are canonical, and the coefficients stand at the positions where unknowns are
found. -/
structure IsCanonical (unknowns : List Symbol) (f : LinearForm Rat) : Prop where
  position : ∀ p ∈ f.coefficients, ∃ s, unknownIndex? unknowns s = some p.1
  coefficients : ∀ p ∈ f.coefficients, Expr.IsCanonical 1 p.2
  constant : Expr.IsCanonical 1 f.constant

theorem isCanonical_ofConstant (h : Expr.IsCanonical 1 e) : (ofConstant e).IsCanonical unknowns :=
  ⟨List.forall_mem_nil _, List.forall_mem_nil _, h⟩

/-- Forms are added entry by entry. -/
theorem IsCanonical.add (hf : f.IsCanonical unknowns) (hg : g.IsCanonical unknowns) :
    (f.add g).IsCanonical unknowns where
  position :=
    List.foldlRecOn (motive := fun cs : List (ℕ × Expr Rat) =>
      ∀ p ∈ cs, ∃ s, unknownIndex? unknowns s = some p.1) _ _ hf.position fun _ h p hp =>
        forall_mem_addCoefficient (hg.position p hp) (fun _ hd => hd) h
  coefficients :=
    List.foldlRecOn (motive := fun cs : List (ℕ × Expr Rat) =>
      ∀ p ∈ cs, Expr.IsCanonical 1 p.2) _ _ hf.coefficients fun _ h p hp =>
        forall_mem_addCoefficient (R := fun p => Expr.IsCanonical 1 p.2)
          (isCanonical_one_plus (.number 0) (hg.coefficients p hp))
          (fun _ hd => isCanonical_one_plus hd (hg.coefficients p hp)) h
  constant := isCanonical_one_plus hf.constant hg.constant

theorem IsCanonical.scale (hf : f.IsCanonical unknowns) (he : Expr.IsCanonical 1 e) :
    (f.scale e).IsCanonical unknowns where
  position := List.forall_mem_map.2 fun p hp => hf.position p hp
  coefficients := List.forall_mem_map.2 fun p hp => isCanonical_one_times (hf.coefficients p hp) he
  constant := isCanonical_one_times hf.constant he

/-- The linear form of a canonical expression is canonical. -/
theorem isCanonical_of_linearForm? (h : e.linearForm? unknowns = some f)
    (he : Expr.IsCanonical 1 e) : f.IsCanonical unknowns := by
  induction e generalizing f with
  | number v =>
    obtain rfl := Option.some.inj h
    exact isCanonical_ofConstant he
  | symbol s =>
    rw [Expr.linearForm?] at h
    cases hs : unknownIndex? unknowns s with
    | some j =>
      rw [hs] at h
      obtain rfl := Option.some.inj h
      exact ⟨List.forall_mem_singleton.2 ⟨s, hs⟩, List.forall_mem_singleton.2 (.number 1),
        .number 0⟩
    | none =>
      rw [hs] at h
      obtain rfl := Option.some.inj h
      exact isCanonical_ofConstant he
  | add ts ih =>
    rw [Expr.linearForm?, sumForms?_eq] at h
    refine invariant_of_foldlM (fun t ht f f' hf hcanonical => ?_) h
      (isCanonical_ofConstant (.number 0))
    obtain ⟨g, hg, rfl⟩ := Option.map_eq_some_iff.1 hf
    exact hcanonical.add (ih t ht hg (he.forall_mem_add t ht))
  | mul fs ih =>
    have hfs := he.forall_mem_mul
    obtain ⟨-, rfl⟩ | ⟨d, g, hd, hg, rfl⟩ := linearForm?_mul_cases h
    · exact isCanonical_ofConstant he
    · have hmem : d ∈ fs := List.mem_of_mem_filter (hd ▸ List.mem_singleton_self d)
      exact (ih d hmem hg (hfs d hmem)).scale
        (isCanonical_one_product fun f hf => hfs f (List.mem_of_mem_filter hf))
  | pow b x _ _ =>
    obtain ⟨-, rfl⟩ := linearForm?_of_ite h
    exact isCanonical_ofConstant he
  | call name args _ =>
    obtain ⟨-, rfl⟩ := linearForm?_of_ite h
    exact isCanonical_ofConstant he

end LinearForm

/-- The entries of the row are numbers. -/
def LinearRow.IsNumeric (r : LinearRow Rat) : Prop :=
  ∀ e ∈ r.rhs :: r.coefficients, ∃ v, e = .number v

namespace LinearRow.IsNumeric

variable {r : LinearRow Rat}

theorem rhs (h : r.IsNumeric) : ∃ v, r.rhs = .number v := h _ List.mem_cons_self

theorem mem_coefficients (h : r.IsNumeric) {e : Expr Rat} (he : e ∈ r.coefficients) :
    ∃ v, e = .number v := h e (List.mem_cons_of_mem _ he)

theorem coefficient (h : r.IsNumeric) (j : ℕ) : ∃ v, r.coefficient j = .number v := by
  unfold LinearRow.coefficient
  cases hj : r.coefficients[j]? with
  | none => exact ⟨0, rfl⟩
  | some e => exact h.mem_coefficients (List.mem_of_getElem? hj)

/-- Rows of numbers are told apart by the numbers. -/
theorem ext {r' : LinearRow Rat} (h : r.IsNumeric) (h' : r'.IsNumeric)
    (hlength : r.coefficients.length = r'.coefficients.length)
    (hcoefficients : ∀ j, (r.coefficient j).value = (r'.coefficient j).value)
    (hrhs : r.rhs.value = r'.rhs.value) : r = r' := by
  have hvalue {e d : Expr Rat} (he : ∃ v, e = .number v) (hd : ∃ v, d = .number v)
      (hed : e.value = d.value) : e = d := by
    obtain ⟨v, rfl⟩ := he
    obtain ⟨w, rfl⟩ := hd
    exact congrArg _ hed
  have hlists : r.coefficients = r'.coefficients := by
    refine List.ext_getElem hlength fun j hj hj' => ?_
    have hj₁ : r.coefficient j = r.coefficients[j] := by simp [LinearRow.coefficient, hj]
    have hj₂ : r'.coefficient j = r'.coefficients[j] := by simp [LinearRow.coefficient, hj']
    rw [← hj₁, ← hj₂]
    exact hvalue (h.coefficient j) (h'.coefficient j) (hcoefficients j)
  cases r
  cases r'
  simp only [LinearRow.mk.injEq]
  exact ⟨hlists, hvalue h.rhs h'.rhs hrhs⟩

end LinearRow.IsNumeric

namespace Equation.IsNumeric

variable {unknowns : List Symbol} {q : Equation Rat} {row : LinearRow Rat}

theorem isCanonical_residual (h : q.IsNumeric unknowns) : Expr.IsCanonical 1 q.residual := by
  have hside {e : Expr Rat} (he : e.IsAffine unknowns (fun c => ∃ v, c = .number v)
      fun c => ∃ v, v ≠ 0 ∧ c = .number v) : Expr.IsCanonical 1 e := by
    induction he with
    | constant hc =>
      obtain ⟨v, rfl⟩ := hc
      exact .number v
    | unknown => exact .symbol Nat.one_pos _
    | plus _ _ ha hb => exact isCanonical_one_plus ha hb
    | minus _ _ ha hb => exact isCanonical_one_minus ha hb
    | negate _ ha => exact isCanonical_one_negate ha
    | sum _ ih => exact isCanonical_one_sum ih
    | multiple hc _ ha =>
      obtain ⟨v, rfl⟩ := hc
      exact isCanonical_one_times (.number v) ha
    | scaled _ hc ha =>
      obtain ⟨v, rfl⟩ := hc
      exact isCanonical_one_times ha (.number v)
    | divide _ hc ha =>
      obtain ⟨v, -, rfl⟩ := hc
      exact isCanonical_one_over ha (.number v)
  exact isCanonical_one_minus (hside h.1) (hside h.2)

/-- The row of an equation of numbers and unknowns consists of numbers. -/
theorem isNumeric_row (h : q.IsNumeric unknowns) (hrow : q.linearRow? unknowns = some row) :
    row.IsNumeric := by
  obtain ⟨form, hform, heq⟩ := linearRow?_eq_some hrow
  have hcanonical := LinearForm.isCanonical_of_linearForm? hform h.isCanonical_residual
  have hentries : ∀ e ∈ row.rhs :: row.coefficients, Expr.IsCanonical 1 e := by
    subst heq
    refine List.forall_mem_cons.2
      ⟨isCanonical_one_negate hcanonical.constant, List.forall_mem_map.2 fun j _ => ?_⟩
    obtain hj | hj := form.coefficient_cases j
    · exact hj ▸ .number 0
    · exact hcanonical.coefficients _ hj
  let ρ : Environment Rat := .ofIds fun _ => some 0
  obtain ⟨l, r, hl, hr⟩ := h.exists_values (ρ := ρ) fun _ _ => ⟨0, rfl⟩
  have hx : AreValues ρ unknowns 0 := fun j u _ v hv => Option.some.inj hv
  obtain ⟨hcoefficients, hrhs⟩ := (h.residual_row hrow hx rfl hl hr).1.isDefined
  have hvalues : ∀ e ∈ row.rhs :: row.coefficients, (e.eval Environment.bare).isSome = true :=
    List.forall_mem_cons.2 ⟨hrhs, hcoefficients⟩
  intro e he
  obtain ⟨v, hv⟩ := Option.isSome_iff_exists.1 (hvalues e he)
  exact ⟨v, (hentries e he).eq_number_of_eval (h.within_noSymbol hrow e he) hv⟩

/-- There is no coefficient but where an unknown is found. -/
theorem coefficient_eq_zero (h : q.IsNumeric unknowns) (hrow : q.linearRow? unknowns = some row)
    {j : ℕ} (hj : ∀ s, unknownIndex? unknowns s ≠ some j) : row.coefficient j = .number 0 := by
  obtain ⟨form, hform, rfl⟩ := linearRow?_eq_some hrow
  have hcanonical := LinearForm.isCanonical_of_linearForm? hform h.isCanonical_residual
  obtain hzero | hmem := form.coefficient_cases j
  · by_cases hlt : j < unknowns.length <;> simp [LinearRow.coefficient, hlt, hzero]
  · obtain ⟨s, hs⟩ := hcanonical.position _ hmem
    exact absurd hs (hj s)

end Equation.IsNumeric

/-- Equations with numeric coefficients are linear. -/
theorem exists_linearSystem_of_isNumeric {equations : List (Equation Rat)}
    {unknowns : List Symbol} (h : ∀ q ∈ equations, q.IsNumeric unknowns) :
    ∃ system, linearSystem equations unknowns = .ok system := by
  refine exists_linearSystem h ?_ ?_
  · rintro _ ⟨v, rfl⟩
    exact within_number v
  · rintro _ ⟨v, -, rfl⟩
    exact within_number v

theorem isNumeric_linearSystem {equations : List (Equation Rat)} {unknowns : List Symbol}
    {system : List (LinearRow Rat)} (h : ∀ q ∈ equations, q.IsNumeric unknowns)
    (hsystem : linearSystem equations unknowns = .ok system) : ∀ row ∈ system, row.IsNumeric := by
  intro row hrow
  obtain ⟨q, hq, hrow⟩ := exists_left_of_forall₂ (linearSystem_rows hsystem) hrow
  exact (h q hq).isNumeric_row hrow

/-! ### Eliminating numbers -/

theorem Expr.isZero_number (v : Rat) : (Expr.number v).isZero = (v == 0) := rfl

theorem Expr.exists_multiple {a b e : Expr Rat} (ha : ∃ v, a = .number v) (hb : ∃ v, b = .number v)
    (he : ∃ v, e = .number v) (hzero : b.isZero = false) : ∃ v, a / b * e = .number v := by
  obtain ⟨u, rfl⟩ := ha
  obtain ⟨w, rfl⟩ := hb
  obtain ⟨y, rfl⟩ := he
  have hw : w ≠ 0 := by simpa [isZero_number] using hzero
  exact ⟨u / w * y, by rw [number_over hw, number_times]⟩

namespace Gauge

/-- Numbers are measured by their distance from zero. -/
def MeasuresNumbers (g : Gauge Rat) : Prop := ∀ v, g.magnitude (.number v) = |v|

theorem measuresNumbers_probing (tolerance : Rat) (probe : Symbol → Rat)
    (unknowns : List Symbol) : (Gauge.probing tolerance probe unknowns).MeasuresNumbers :=
  fun v => Scalar.abs_eq v

/-- The difference of two numbers, or zero when it is negligible next to them. -/
def prune (tolerance x y : Rat) : Rat :=
  if |x - y| ≤ tolerance * Scalar.max |x| |y| then 0 else x - y

variable {g : Gauge Rat} {c p : ℕ} {rows rows' : List (PivotRow Rat)} {us : List Symbol}
  {pivots : List ℕ} {pivot row : PivotRow Rat}

theorem reduce_number (hg : g.MeasuresNumbers) (x y : Rat) :
    g.reduce (.number x) (.number y) = .number (prune g.tolerance x y) := by
  have hmagnitude : ∀ v, g.magnitude (.number v) = |v| := hg
  simp only [reduce, number_minus, isZero_number, hmagnitude, prune]
  split
  · rename_i hzero
    rw [eq_of_beq hzero, ite_self]
  · split <;> rfl

theorem exists_reduce (hg : g.MeasuresNumbers) {old delta : Expr Rat}
    (hold : ∃ v, old = .number v) (hdelta : ∃ v, delta = .number v) :
    ∃ v, g.reduce old delta = .number v := by
  obtain ⟨x, rfl⟩ := hold
  obtain ⟨y, rfl⟩ := hdelta
  exact ⟨_, reduce_number hg x y⟩

/-- A row that may become a pivot has a coefficient other than zero. -/
theorem isZero_of_relative? {α : Type} [Scalar α] {g : Gauge α} {row : PivotRow α} {x : α}
    (h : g.relative? c row = some x) : (row.coefficient c).isZero = false := by
  simp only [relative?] at h
  split at h
  · cases h
  · rename_i hrow
    exact (Bool.or_eq_false_iff.1 (Bool.eq_false_iff.2 hrow)).2

/-- A pivot is not zero. -/
theorem isZero_of_pivot? (hp : g.pivot? rows c = some p) (hpivot : rows[p]? = some pivot) :
    (pivot.coefficient c).isZero = false := by
  obtain ⟨row, x, hrow, hx⟩ := relative?_of_pivot? hp
  obtain rfl : row = pivot := Option.some.inj (hrow.symm.trans hpivot)
  exact isZero_of_relative? hx

/-- What an elimination of numbers computes are numbers, if the pivot is not zero. -/
theorem isNumeric_eliminate (hg : g.MeasuresNumbers) (hpivot : pivot.IsNumeric)
    (hrow : row.IsNumeric) (hc : (pivot.coefficient c).isZero = false) :
    (g.eliminate pivot c row).IsNumeric := by
  have hreduce {old e : Expr Rat} (hold : ∃ v, old = .number v) (he : ∃ v, e = .number v) :
      ∃ v, g.reduce old (row.coefficient c / pivot.coefficient c * e) = .number v :=
    exists_reduce hg hold
      (exists_multiple (hrow.coefficient c) (hpivot.coefficient c) he hc)
  have hcoefficients : ∀ e ∈ List.zipWith (fun old (kc : Expr Rat × ℕ) =>
      if kc.2 = c then .number 0 else if kc.1.isZero then old
      else g.reduce old (row.coefficient c / pivot.coefficient c * kc.1))
      row.coefficients pivot.coefficients.zipIdx, ∃ v, e = .number v := by
    refine forall_mem_zipWith fun old hold kc hkc => ?_
    have hk := hpivot.mem_coefficients (List.mem_of_getElem? (List.mem_zipIdx_iff_getElem?.1 hkc))
    split_ifs
    · exact ⟨0, rfl⟩
    · exact hrow.mem_coefficients hold
    · exact hreduce (hrow.mem_coefficients hold) hk
  unfold eliminate
  dsimp only
  split_ifs
  · exact hrow
  · exact List.forall_mem_cons.2 ⟨hrow.rhs, hcoefficients⟩
  · exact List.forall_mem_cons.2 ⟨hreduce hrow.rhs hpivot.rhs, hcoefficients⟩

/-- Clearing a column leaves rows of numbers. -/
theorem isNumeric_clearColumn (hg : g.MeasuresNumbers) (hpivot : pivot.IsNumeric)
    (hc : (pivot.coefficient c).isZero = false) (h : ∀ row ∈ rows, row.IsNumeric) :
    ∀ row ∈ g.clearColumn rows c p pivot, row.IsNumeric := by
  intro row' hrow'
  obtain ⟨r, hr, rfl⟩ := List.mem_mapIdx.1 hrow'
  have hrow := h _ (List.getElem_mem hr)
  split
  · exact hrow
  · exact isNumeric_eliminate hg hpivot hrow hc

/-- A run from rows of numbers meets rows of numbers at all stages. -/
theorem isNumeric_stages (hg : g.MeasuresNumbers) (h : ∀ row ∈ rows, row.IsNumeric) :
    ∀ s ∈ g.stages us c rows, ∀ row ∈ s.rows, row.IsNumeric :=
  forall_mem_stages (P := fun rows => ∀ row ∈ rows, row.IsNumeric) (fun hrows hp hpivot =>
    isNumeric_clearColumn hg (hrows _ (List.mem_of_getElem? hpivot)) (isZero_of_pivot? hp hpivot)
      hrows) h

/-- A run from rows of numbers leaves rows of numbers. -/
theorem isNumeric_run (hg : g.MeasuresNumbers) (hrun : g.run us c rows = .ok (rows', pivots))
    (h : ∀ row ∈ rows, row.IsNumeric) : ∀ row ∈ rows', row.IsNumeric := by
  induction us generalizing c rows pivots with
  | nil =>
    obtain ⟨rfl, -⟩ : rows = rows' ∧ [] = pivots := by simpa [run] using hrun
    exact h
  | cons u us ih =>
    obtain ⟨p, pivot, ps, hp, hpivot, -, htail⟩ := run_cons hrun
    exact ih htail (isNumeric_clearColumn hg (h pivot (List.mem_of_getElem? hpivot))
      (isZero_of_pivot? hp hpivot) h)

end Gauge

end Kirchhoff
