import Kirchhoff.Proofs.Linear.Form

/-!
# The symbols of a linear form

The coefficients of a linear form are made of the expressions by which the unknowns are multiplied
(`Expr.cofactors`), and its constant of any part of the expression. So whatever is true of the
symbols of the cofactors is true of those of the coefficients (`LinearForm.within_of_linearForm?`).
-/

namespace Kirchhoff

open Kirchhoff.Expr

variable {α : Type} {unknowns : List Symbol} {C P : Symbol → Prop}

/-! ### Cofactors -/

namespace Expr

mutual

/-- The expressions by which a factor that depends on unknowns is multiplied. -/
def cofactors (unknowns : List Symbol) : Expr α → List (Expr α)
  | .add ts => cofactorsAll unknowns ts
  | .mul fs =>
    if fs.any (·.dependsOn unknowns) then
      fs.filter (!·.dependsOn unknowns) ++ cofactorsAll unknowns fs
    else []
  | _ => []

/-- The cofactors of all expressions of a list. -/
def cofactorsAll (unknowns : List Symbol) : List (Expr α) → List (Expr α)
  | [] => []
  | e :: es => cofactors unknowns e ++ cofactorsAll unknowns es

end

/-- The cofactors of several expressions are those of any of them. -/
theorem mem_cofactorsAll {c : Expr α} {es : List (Expr α)} :
    c ∈ cofactorsAll unknowns es ↔ ∃ e ∈ es, c ∈ e.cofactors unknowns := by
  induction es with
  | nil => simp [cofactorsAll]
  | cons e es ih => simp [cofactorsAll, ih]

theorem mem_cofactors_add {c t : Expr α} {ts : List (Expr α)} (ht : t ∈ ts)
    (hc : c ∈ t.cofactors unknowns) : c ∈ (Expr.add ts).cofactors unknowns := by
  rw [cofactors]
  exact mem_cofactorsAll.2 ⟨t, ht, hc⟩

/-- The factors without unknowns go with the one that has them. -/
theorem mem_cofactors_mul {c d : Expr α} {fs : List (Expr α)} (hd : d ∈ fs)
    (hdepends : d.dependsOn unknowns = true)
    (hc : c ∈ fs.filter (!·.dependsOn unknowns) ∨ c ∈ d.cofactors unknowns) :
    c ∈ (Expr.mul fs).cofactors unknowns := by
  rw [cofactors, if_pos (List.any_eq_true.2 ⟨d, hd, hdepends⟩), List.mem_append]
  exact hc.imp_right fun hc => mem_cofactorsAll.2 ⟨d, hd, hc⟩

/-- A cofactor is made of the symbols of the expression. -/
theorem within_cofactors {e : Expr α} (h : e.Within P) :
    ∀ c ∈ e.cofactors unknowns, c.Within P := by
  induction e with
  | add ts ih =>
    intro c hc
    rw [cofactors] at hc
    obtain ⟨t, ht, hc⟩ := mem_cofactorsAll.1 hc
    exact ih t ht (within_add_iff.1 h t ht) c hc
  | mul fs ih =>
    intro c hc
    have hfs := within_mul_iff.1 h
    rw [cofactors] at hc
    split at hc
    · obtain hc | hc := List.mem_append.1 hc
      · exact hfs c (List.mem_of_mem_filter hc)
      · obtain ⟨f, hf, hc⟩ := mem_cofactorsAll.1 hc
        exact ih f hf (hfs f hf) c hc
    · cases hc
  | _ => exact nofun

end Expr

/-! ### Linear forms -/

namespace LinearForm

/-- Every symbol of a coefficient has one property, and every symbol of the constant another. -/
structure Within (C P : Symbol → Prop) (f : LinearForm α) : Prop where
  coefficients : ∀ p ∈ f.coefficients, p.2.Within C
  constant : f.constant.Within P

variable [Scalar α] {f g : LinearForm α} {e : Expr α}

omit [Scalar α] in
theorem within_ofConstant (h : e.Within P) : (ofConstant e).Within C P := ⟨List.forall_mem_nil _, h⟩

theorem Within.add (hf : f.Within C P) (hg : g.Within C P) : (f.add g).Within C P where
  coefficients :=
    List.foldlRecOn (motive := fun cs : List (ℕ × Expr α) => ∀ p ∈ cs, p.2.Within C) _ _
      hf.coefficients fun _ h p hp => within_addCoefficient (hg.coefficients p hp) h
  constant := within_plus hf.constant hg.constant

theorem Within.scale (hf : f.Within C P) (hC : e.Within C) (hP : e.Within P) :
    (f.scale e).Within C P where
  coefficients := List.forall_mem_map.2 fun p hp => within_times (hf.coefficients p hp) hC
  constant := within_times hf.constant hP

/-- The symbols of the coefficients are those of the cofactors. -/
theorem within_of_linearForm? (h : e.linearForm? unknowns = some f)
    (hC : ∀ c ∈ e.cofactors unknowns, c.Within C) (hP : e.Within P) : f.Within C P := by
  induction e generalizing f with
  | number v =>
    obtain rfl := Option.some.inj h
    exact within_ofConstant hP
  | symbol s =>
    rw [Expr.linearForm?] at h
    split at h
    · obtain rfl := Option.some.inj h
      exact ⟨List.forall_mem_singleton.2 (within_number 1), within_number 0⟩
    · obtain rfl := Option.some.inj h
      exact within_ofConstant hP
  | add ts ih =>
    rw [Expr.linearForm?, sumForms?_eq] at h
    refine invariant_of_foldlM (fun t ht f f' hf hwithin => ?_) h
      (within_ofConstant (within_number 0))
    obtain ⟨g, hg, rfl⟩ := Option.map_eq_some_iff.1 hf
    exact hwithin.add
      (ih t ht hg (fun c hc => hC c (mem_cofactors_add ht hc)) (within_add_iff.1 hP t ht))
  | mul fs ih =>
    have hfs := within_mul_iff.1 hP
    obtain ⟨-, rfl⟩ | ⟨d, g, hd, hg, rfl⟩ := linearForm?_mul_cases h
    · exact within_ofConstant hP
    · obtain ⟨hmem, hdepends⟩ := List.mem_filter.1 (hd ▸ List.mem_singleton_self d)
      have hform := ih d hmem hg (fun c hc => hC c (mem_cofactors_mul hmem hdepends (.inr hc)))
        (hfs d hmem)
      exact hform.scale
        (within_product fun c hc => hC c (mem_cofactors_mul hmem hdepends (.inl hc)))
        (within_product fun c hc => hfs c (List.mem_of_mem_filter hc))
  | pow b x _ _ =>
    obtain ⟨-, rfl⟩ := linearForm?_of_ite h
    exact within_ofConstant hP
  | call name args _ =>
    obtain ⟨-, rfl⟩ := linearForm?_of_ite h
    exact within_ofConstant hP

end LinearForm

end Kirchhoff
