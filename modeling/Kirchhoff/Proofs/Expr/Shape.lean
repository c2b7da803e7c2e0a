import Kirchhoff.Proofs.Expr.Regular

/-!
# The shape of a canonical form

A sum in canonical form has at least two terms, none of them a sum, at most one constant, which
stands at the end and is not zero, and no two terms with the same part beside their coefficients
(`SumShape`). A product has at least two factors, none of them a product, at most one coefficient,
which stands in front and is neither zero nor one, no two factors with the same base, and it is not
a coefficient before a single sum (`ProductShape`).

`IsCanonical` says this of all operands down the tree, with a bound on the floors of exponents, and
says that no product and no power is the base of a power. In such an expression, the factors of a
term without its coefficient are factors of a canonical product again (`IsPart.areFactors`).
-/

namespace Kirchhoff

/-- One is told apart from zero and leaves numbers as they are. -/
class Scalar.LawfulOne (α : Type) [Scalar α] : Prop where
  one_mul (c : α) : 1 * c = c
  one_beq_one : ((1 : α) == 1) = true
  one_beq_zero : ((1 : α) == 0) = false

instance : Scalar.LawfulOne Rat where
  one_mul := Rat.one_mul
  one_beq_one := rfl
  one_beq_zero := rfl

namespace Expr

variable {α : Type} [Scalar α]

/-! ### Shapes -/

/-- A term without its coefficient. -/
def part (t : Expr α) : Expr α := t.splitCoefficient.2

/-- The terms of a sum in canonical form. -/
structure SumShape (ts : List (Expr α)) : Prop where
  two_le : 2 ≤ ts.length
  flat : ∀ t ∈ ts, ∀ us, t ≠ .add us
  constant : ts = others ts ∨ ∃ v, (v == 0) = false ∧ ts = others ts ++ [.number v]
  distinct : (others ts).Pairwise fun t u => (t.part == u.part) = false

/-- The factors of a product in canonical form. -/
structure ProductShape (fs : List (Expr α)) : Prop where
  two_le : 2 ≤ fs.length
  flat : ∀ f ∈ fs, ∀ gs, f ≠ .mul gs
  coefficient : fs = others fs ∨
    ∃ c, (c == 0) = false ∧ (c == 1) = false ∧ fs = .number c :: others fs
  distinct : (others fs).Pairwise fun f g => (f.base == g.base) = false
  undistributed : ∀ c ts, fs ≠ [.number c, .add ts]

/-- The operands of a node are those of a canonical form. -/
def HasShape : Expr α → Prop
  | .add ts => SumShape ts
  | .mul fs => ProductShape fs
  | _ => True

/-- The expression may be the base of a power: it is no product and no power. -/
def IsBase (b : Expr α) : Prop := (∀ fs, b ≠ .mul fs) ∧ ∀ c x, b ≠ .pow c x

/-- The expression is canonical with fewer floors of exponents than the bound. Without a floor, it
is a number. Exponents within the arguments of a call have floors of their own. -/
inductive IsCanonical : ℕ → Expr α → Prop
  | number {m : ℕ} (v : α) : IsCanonical m (.number v)
  | symbol {m : ℕ} (hm : 0 < m) (s : Symbol) : IsCanonical m (.symbol s)
  | add {m : ℕ} {ts : List (Expr α)} (hm : 0 < m) (h : ∀ t ∈ ts, IsCanonical m t)
    (hts : SumShape ts) : IsCanonical m (.add ts)
  | mul {m : ℕ} {fs : List (Expr α)} (hm : 0 < m) (h : ∀ f ∈ fs, IsCanonical m f)
    (hfs : ProductShape fs) : IsCanonical m (.mul fs)
  | pow {m k : ℕ} {b x : Expr α} (hk : k < m) (hb : IsCanonical m b) (hx : IsCanonical k x)
    (hbase : IsBase b) (hset : IsSettled b x) : IsCanonical m (.pow b x)
  | call {m k : ℕ} (hm : 0 < m) (f : String) {args : List (Expr α)}
    (h : ∀ a ∈ args, IsCanonical k a) : IsCanonical m (.call f args)

section

omit [Scalar α]

theorem size_pos (e : Expr α) : 0 < e.size := by
  cases e <;> simp [size]

theorem sizeAll_eq_sum (es : List (Expr α)) : sizeAll es = (es.map size).sum := by
  induction es with
  | nil => rfl
  | cons e es ih => simp [sizeAll, ih]

theorem size_le_sizeAll {e : Expr α} {es : List (Expr α)} (h : e ∈ es) : e.size ≤ sizeAll es := by
  rw [sizeAll_eq_sum]
  exact List.le_sum_of_mem (List.mem_map_of_mem h)

end

namespace IsCanonical

variable {m k : ℕ} {e : Expr α}

/-- A canonical expression stays one under a larger bound. -/
theorem mono (h : IsCanonical m e) (hmk : m ≤ k) : IsCanonical k e := by
  induction h generalizing k with
  | number v => exact .number v
  | symbol hm s => exact .symbol (by omega) s
  | add hm _ hts ih => exact .add (by omega) (fun t ht => ih t ht hmk) hts
  | mul hm _ hfs ih => exact .mul (by omega) (fun f hf => ih f hf hmk) hfs
  | pow hk _ hx hbase hset ihb => exact .pow (by omega) (ihb hmk) hx hbase hset
  | call hm f h => exact .call (by omega) f h

theorem pos (h : IsCanonical m e) (he : e.number? = none) : 0 < m := by
  cases h with
  | number v => cases he
  | pow hk => exact Nat.zero_lt_of_lt hk
  | _ => assumption

/-- There are no more floors of exponents than nodes. -/
theorem of_size (h : IsCanonical m e) : IsCanonical e.size e := by
  induction h with
  | number v => exact .number v
  | symbol hm s => exact .symbol (size_pos _) s
  | add hm _ hts ih =>
    refine .add (size_pos _) (fun t ht => ?_) hts
    exact (ih t ht).mono (Nat.le_succ_of_le (size_le_sizeAll ht))
  | mul hm _ hfs ih =>
    refine .mul (size_pos _) (fun f hf => ?_) hfs
    exact (ih f hf).mono (Nat.le_succ_of_le (size_le_sizeAll hf))
  | pow hk _ _ hbase hset ihb ihx =>
    exact .pow (by simp only [size]; omega) (ihb.mono (by simp only [size]; omega)) ihx hbase hset
  | call hm f _ ih => exact .call (size_pos _) f fun a ha => (ih a ha).mono (size_le_sizeAll ha)

/-- Every node of a canonical expression has the shape of a canonical form. -/
theorem hasShape (h : IsCanonical m e) : ∀ d, .enterExpr d ∈ e.walk → d.HasShape := by
  induction h with
  | number v => exact forall_node_number.2 trivial
  | symbol _ s => exact forall_node_symbol.2 trivial
  | add _ _ hts ih => exact forall_node_add.2 ⟨hts, ih⟩
  | mul _ _ hfs ih => exact forall_node_mul.2 ⟨hfs, ih⟩
  | pow _ _ _ _ _ ihb ihx => exact forall_node_pow.2 ⟨trivial, ihb, ihx⟩
  | call _ f _ ih => exact forall_node_call.2 ⟨trivial, ih⟩

end IsCanonical

/-! ### Factors without a coefficient -/

/-- The factors of a canonical product without its coefficient, or of any other factor. -/
structure AreFactors (m : ℕ) (fs : List (Expr α)) : Prop where
  canonical : ∀ f ∈ fs, IsCanonical m f
  other : ∀ f ∈ fs, f.number? = none
  flat : ∀ f ∈ fs, ∀ gs, f ≠ .mul gs
  distinct : fs.Pairwise fun f g => (f.base == g.base) = false

variable {m : ℕ} {c : α} {e t : Expr α} {fs : List (Expr α)}

omit [Scalar α] in
theorem others_eq_self (h : ∀ f ∈ fs, f.number? = none) : others fs = fs :=
  List.filter_eq_self.2 fun f hf => by simp [h f hf]

/-- Factors and a coefficient make a canonical product. -/
theorem AreFactors.ofFactors (h : AreFactors m fs) (h0 : (c == 0) = false)
    (hsum : ∀ ts, fs ≠ [.add ts]) : IsCanonical m (Expr.ofFactors c fs) := by
  have hothers : others fs = fs := others_eq_self h.other
  have hcons (hc : (c == 1) = false) (hne : fs ≠ []) : IsCanonical m (.mul (.number c :: fs)) := by
    obtain ⟨f, hf⟩ := List.exists_mem_of_ne_nil fs hne
    refine .mul ((h.canonical f hf).pos (h.other f hf))
      (List.forall_mem_cons.2 ⟨.number c, h.canonical⟩) ⟨?_, ?_, ?_, ?_, ?_⟩
    · simpa using Nat.succ_le_of_lt (List.length_pos_iff.2 hne)
    · exact List.forall_mem_cons.2 ⟨by simp, h.flat⟩
    · exact .inr ⟨c, h0, hc, by rw [others_number, hothers]⟩
    · rw [others_number, hothers]
      exact h.distinct
    · exact fun d ts heq => hsum ts (List.cons.inj heq).2
  unfold Expr.ofFactors
  split
  · exact .number c
  · rename_i f
    split
    · exact h.canonical f (by simp)
    · exact hcons (Bool.eq_false_iff.2 ‹¬(c == 1) = true›) (by simp)
  · rename_i hnil hone
    split
    · obtain ⟨f, hf⟩ := List.exists_mem_of_ne_nil fs hnil
      refine .mul ((h.canonical f hf).pos (h.other f hf)) h.canonical
        ⟨two_le_length hnil hone, h.flat, .inl hothers.symm, ?_, ?_⟩
      · rw [hothers]
        exact h.distinct
      · rintro d ts rfl
        cases h.other (.number d) (by simp)
    · exact hcons (Bool.eq_false_iff.2 ‹¬(c == 1) = true›) hnil

/-! ### Parts of a sum -/

/-- A part of a sum beside its coefficient. -/
structure IsPart (m : ℕ) (e : Expr α) : Prop where
  canonical : IsCanonical m e
  other : e.number? = none
  flat : ∀ ts, e ≠ .add ts
  bare : ∀ c fs, e ≠ .mul (.number c :: fs)

/-- The factors of a product, or an expression as its own factor. -/
def factors : Expr α → List (Expr α)
  | .mul fs => fs
  | e => [e]

omit [Scalar α] in
theorem factors_eq (h : ∀ fs, e ≠ .mul fs) : e.factors = [e] := by
  cases e with
  | mul fs => exact absurd rfl (h fs)
  | _ => rfl

/-- The factors of a part have no coefficient among them. -/
theorem IsPart.areFactors (h : IsPart m e) : AreFactors m e.factors := by
  obtain ⟨hcanonical, hother, -, hbare⟩ := h
  by_cases hmul : ∃ fs, e = .mul fs
  · obtain ⟨fs, rfl⟩ := hmul
    obtain _ | _ | _ | ⟨-, hfs, hshape⟩ := hcanonical
    obtain hfs' | ⟨c, -, -, hfs'⟩ := hshape.coefficient
    · refine ⟨hfs, fun f hf => ?_, hshape.flat, hfs' ▸ hshape.distinct⟩
      rw [factors, hfs'] at hf
      simpa using (List.mem_filter.1 hf).2
    · exact absurd (congrArg _ hfs') (hbare c (others fs))
  · have hmul : ∀ fs, e ≠ .mul fs := fun fs he => hmul ⟨fs, he⟩
    rw [factors_eq hmul]
    exact ⟨by simpa using hcanonical, by simpa using hother, by simpa using hmul,
      List.pairwise_singleton _ _⟩

theorem IsPart.factors_ne_nil (h : IsPart m e) : e.factors ≠ [] := by
  cases h.canonical with
  | mul _ _ hfs => exact List.ne_nil_of_length_pos (Nat.zero_lt_of_lt hfs.two_le)
  | _ => simp [factors]

theorem IsPart.factors_ne_add (h : IsPart m e) (ts : List (Expr α)) : e.factors ≠ [.add ts] := by
  by_cases hmul : ∃ fs, e = .mul fs
  · obtain ⟨fs, rfl⟩ := hmul
    rintro (rfl : fs = _)
    obtain _ | _ | _ | ⟨-, -, hshape⟩ := h.canonical
    simpa using hshape.two_le
  · rw [factors_eq fun fs he => hmul ⟨fs, he⟩]
    simpa using h.flat ts

/-- A coefficient in front of the factors of a part is split off again. -/
theorem IsPart.splitCoefficient_scaled (h : IsPart m e) :
    (Expr.mul (.number c :: e.factors)).splitCoefficient = (c, e) := by
  by_cases hmul : ∃ fs, e = .mul fs
  · obtain ⟨fs, rfl⟩ := hmul
    obtain _ | _ | _ | ⟨-, -, hshape⟩ := h.canonical
    match fs, hshape.two_le with
    | _ :: _ :: _, _ => rfl
  · rw [factors_eq fun fs he => hmul ⟨fs, he⟩]
    rfl

/-- A part has no coefficient to split off. -/
theorem IsPart.part_self (h : IsPart m e) : e.part = e := by
  unfold part splitCoefficient
  split
  · exact absurd rfl (h.bare _ _)
  · exact absurd rfl (h.bare _ _)
  · rfl

/-- A term of a canonical sum without its coefficient is a part. -/
theorem IsCanonical.isPart (h : IsCanonical m t) (ht : t.number? = none)
    (hsum : ∀ ts, t.part ≠ .add ts) : IsPart m t.part := by
  by_cases hled : ∃ c fs, t = .mul (.number c :: fs)
  · obtain ⟨c, fs, rfl⟩ := hled
    obtain _ | _ | _ | ⟨hm, hfs, hshape⟩ := h
    have hothers : fs = others fs := by
      obtain hfs | ⟨d, -, -, hfs⟩ := hshape.coefficient
      · have hmem : Expr.number c ∈ others fs := hfs ▸ List.mem_cons_self
        simpa [number?] using (List.mem_filter.1 hmem).2
      · exact (List.cons.inj hfs).2
    have hother (f : Expr α) (hf : f ∈ fs) : f.number? = none := by
      rw [hothers] at hf
      simpa using (List.mem_filter.1 hf).2
    have hfs := (List.forall_mem_cons.1 hfs).2
    have hflat := (List.forall_mem_cons.1 hshape.flat).2
    have hdistinct := hshape.distinct
    rw [others_number, ← hothers] at hdistinct
    cases fs with
    | nil => simpa using hshape.two_le
    | cons f fs =>
      cases fs with
      | nil =>
        refine ⟨hfs f (by simp), hother f (by simp), hsum, fun d gs hf => ?_⟩
        exact hflat f (by simp) _ hf
      | cons g fs =>
        refine ⟨.mul hm hfs ⟨by simp, hflat, .inl hothers, ?_, ?_⟩, rfl, by simp [part,
          splitCoefficient], fun d gs hled => ?_⟩
        · rw [← hothers]
          exact hdistinct
        · intro d ts heq
          cases hother (.number d) (by simp [heq])
        · cases hother (.number d) (by simp [(Expr.mul.inj hled)])
  · have hpart : t.part = t := by
      unfold part splitCoefficient
      split
      · exact absurd ⟨_, _, rfl⟩ hled
      · exact absurd ⟨_, _, rfl⟩ hled
      · rfl
    rw [hpart] at hsum ⊢
    exact ⟨h, ht, hsum, fun c fs heq => hled ⟨c, fs, heq⟩⟩

end Expr

end Kirchhoff
