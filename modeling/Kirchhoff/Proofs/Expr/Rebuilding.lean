import Kirchhoff.Proofs.Expr.Guarantees
import Kirchhoff.Proofs.Substitution

/-!
# Building a canonical expression anew

Every operation is the identity on the operands of a canonical node. The terms of a canonical sum
are collected in their order, each with its coefficient, and are written down as they were
(`IsCanonical.sum_eq`); the factors of a canonical product are raised to themselves
(`IsCanonical.product_eq`), and a power stays as it is (`IsCanonical.power_eq`).

A substitution builds all nodes anew, also those that it replaces nothing in. This changes nothing
in what is built with integers as exponents (`Substitution.apply_of_isIntegral`): the exponents of
such an expression are numbers, so that each power of a product dissolves. A power of a product that
stays as it is can turn into an expression that is not canonical
(`IsBuiltWith.isCanonical`, `exists_isBuilt_not_hasShape`), and nothing is said of that here.
-/

namespace Kirchhoff.Expr

variable {m n : ℕ} {b x e t u : Expr Rat} {fs ts : List (Expr Rat)}
  {sumExponents : List (Expr Rat) → Expr Rat}

theorem forall_mem_others {P : Expr Rat → Prop} (h : ∀ t ∈ ts, P t) : ∀ t ∈ others ts, P t :=
  fun t ht => h t (List.mem_filter.1 ht).1

theorem forall_mem_others_number? : ∀ t ∈ others ts, t.number? = none :=
  fun _ ht => by simpa using (List.mem_filter.1 ht).2

/-! ### Sums -/

/-- The coefficient of a term. -/
def coefficient (t : Expr Rat) : Rat := t.splitCoefficient.1

/-- A canonical term is its own part, or it has a coefficient in front of the factors of its part,
which is no sum. -/
theorem IsCanonical.split (h : IsCanonical m t) : t.splitCoefficient = (1, t) ∨
    ∃ c p, t.splitCoefficient = (c, p) ∧ (c == 0) = false ∧ (c == 1) = false ∧
      (∀ ts, p ≠ .add ts) ∧ t = .mul (.number c :: p.factors) := by
  by_cases hled : ∃ c fs, t = .mul (.number c :: fs)
  · obtain ⟨c, fs, rfl⟩ := hled
    obtain _ | _ | _ | ⟨-, -, hshape⟩ := h
    obtain hfs | ⟨d, h0, h1, hd⟩ := hshape.coefficient
    · have hmem : Expr.number c ∈ others (.number c :: fs) := hfs ▸ List.mem_cons_self
      simp [others, number?] at hmem
    · obtain ⟨rfl, -⟩ : c = d ∧ fs = _ := by simpa using hd
      cases fs with
      | nil => simpa using hshape.two_le
      | cons f fs =>
        cases fs with
        | nil =>
          refine .inr ⟨c, f, rfl, h0, h1, fun ts hts => hshape.undistributed c ts (by rw [hts]), ?_⟩
          rw [factors_eq (hshape.flat f (by simp))]
        | cons g fs => exact .inr ⟨c, .mul (f :: g :: fs), rfl, h0, h1, by simp, rfl⟩
  · left
    unfold splitCoefficient
    split
    · exact absurd ⟨_, _, rfl⟩ hled
    · exact absurd ⟨_, _, rfl⟩ hled
    · rfl

theorem IsCanonical.part_ne_add (h : IsCanonical m t) (hflat : ∀ ts, t ≠ .add ts) :
    ∀ ts, t.part ≠ .add ts := by
  obtain hsplit | ⟨c, p, hsplit, -, -, hp, -⟩ := h.split <;> rw [part, hsplit] <;> assumption

theorem IsCanonical.coefficient_ne_zero (h : IsCanonical m t) : (t.coefficient == 0) = false := by
  obtain hsplit | ⟨c, p, hsplit, h0, -⟩ := h.split <;> rw [coefficient, hsplit]
  · rfl
  · exact h0

/-- The terms of a canonical sum beside its constant. -/
structure AreTerms (m : ℕ) (ts : List (Expr Rat)) : Prop where
  canonical : ∀ t ∈ ts, IsCanonical m t
  other : ∀ t ∈ ts, t.number? = none
  flat : ∀ t ∈ ts, ∀ us, t ≠ .add us
  distinct : ts.Pairwise fun t u => (t.part == u.part) = false

/-- Terms with distinct parts are collected in their order. -/
theorem AreTerms.foldlM (h : AreTerms m ts) {s : Terms Rat}
    (hs : ∀ p ∈ s.parts, ∀ t ∈ ts, (p.1 == t.part) = false) :
    ts.foldlM (collectTerm? sumExponents (n + 1)) s =
      some { s with parts := s.parts ++ ts.map fun t => (t.part, t.coefficient) } := by
  induction ts generalizing s with
  | nil => simp
  | cons t ts ih =>
    obtain ⟨hcanonical, hother, hflat, hdistinct⟩ := h
    obtain ⟨ht, hcanonical⟩ := List.forall_mem_cons.1 hcanonical
    obtain ⟨hnumber, hother⟩ := List.forall_mem_cons.1 hother
    obtain ⟨hadd, hflat⟩ := List.forall_mem_cons.1 hflat
    obtain ⟨hpart, hdistinct⟩ := List.pairwise_cons.1 hdistinct
    have hcollect : collectTerm? sumExponents (n + 1) s t =
        some { s with parts := s.parts ++ [(t.part, t.coefficient)] } := by
      rw [← insertWith_eq_append fun p hp => hs p hp t List.mem_cons_self,
        collectTerm?_eq_collectPart? hadd hnumber]
      unfold collectPart?
      split
      · exact absurd ‹_› (ht.part_ne_add hadd _)
      · rfl
    rw [List.foldlM_cons, hcollect, Option.bind_eq_bind, Option.bind_some,
      ih ⟨hcanonical, hother, hflat, hdistinct⟩]
    · simp
    · intro p hp u hu
      obtain hp | hp := List.mem_append.1 hp
      · exact hs p hp u (List.mem_cons_of_mem _ hu)
      · obtain rfl := List.mem_singleton.1 hp
        exact hpart u hu

/-- What is written down for a term with its coefficient is the term. -/
theorem IsCanonical.eq_of_scaled (h : IsCanonical m t) (hother : t.number? = none)
    (hflat : ∀ ts, t ≠ .add ts)
    (hu : (if t.coefficient == 1 then some t.part
      else product? sumExponents n [.number t.coefficient, t.part]) = some u) : t = u := by
  have hpart := h.isPart hother (h.part_ne_add hflat)
  obtain hsplit | ⟨c, p, hsplit, h0, h1, -, ht⟩ := h.split <;>
    rw [part, coefficient, hsplit] at hu
  · exact Option.some.inj hu
  · rw [part, hsplit] at hpart
    simp only [h1] at hu
    exact ht.trans (hpart.product?_scaled h0 h1 hu).symm

theorem IsCanonical.areTerms (h : IsCanonical m (.add ts)) : AreTerms m (others ts) := by
  obtain _ | _ | ⟨-, hts, hshape⟩ := h
  exact ⟨forall_mem_others hts, forall_mem_others_number?, forall_mem_others hshape.flat,
    hshape.distinct⟩

/-- A canonical sum ends with its constant, unless that is zero. -/
theorem SumShape.exists_constant (h : SumShape ts) :
    ∃ v : Rat, ts = if v != 0 then others ts ++ [.number v] else others ts := by
  obtain hts | ⟨v, hv, hts⟩ := h.constant
  · exact ⟨0, hts⟩
  · exact ⟨v, by simpa [bne, hv] using hts⟩

/-- Terms with distinct parts are collected as they are, and so is the constant behind them. -/
theorem AreTerms.foldlM_constant (h : AreTerms m ts) (v : Rat) :
    (if v != 0 then ts ++ [.number v] else ts).foldlM (collectTerm? sumExponents (n + 1))
      Terms.empty = some { constant := v, parts := ts.map fun t => (t.part, t.coefficient) } := by
  have hts : ts.foldlM (collectTerm? sumExponents (n + 1)) Terms.empty = _ :=
    h.foldlM (by simp [Terms.empty])
  split
  · rw [List.foldlM_append, hts]
    simp [collectTerm?, Terms.empty]
  · obtain rfl : v = 0 := by simpa using ‹¬(v != 0) = true›
    exact hts

theorem IsCanonical.sum?_eq (h : IsCanonical m (.add ts)) (he : sum? sumExponents n ts = some e) :
    e = .add ts := by
  have hterms := h.areTerms
  obtain _ | _ | ⟨-, -, hshape⟩ := h
  have htwo := hshape.two_le
  obtain ⟨v, hv⟩ := hshape.exists_constant
  obtain _ | _ | n := n
  · simp [sum?] at he
  · -- The floor of numbers does not collect the two terms that there are.
    obtain ⟨s, -, hs, -⟩ := sum?_cases he
    obtain _ | ⟨t, ts⟩ := ts
    · simp at htwo
    · simp [collectTerm?] at hs
  · obtain ⟨s, parts, hs, hparts, rfl⟩ := sum?_cases he
    generalize others ts = us at hterms hv
    subst hv
    obtain rfl := Option.some.inj ((hterms.foldlM_constant v).symm.trans hs)
    have hnonzero : ∀ p ∈ us.map (fun t => (t.part, t.coefficient)), (p.2 != 0) = true :=
      List.forall_mem_map.2 fun t ht => by
        simp [bne, (hterms.canonical t ht).coefficient_ne_zero]
    rw [List.filter_eq_self.2 hnonzero, List.mapM_map] at hparts
    obtain rfl : us = parts := eq_of_mapM_eq_some (fun t ht u hu =>
      (hterms.canonical t ht).eq_of_scaled (hterms.other t ht) (hterms.flat t ht) hu) hparts
    exact ofTerms_of_two_le htwo

/-- The sum of the terms of a canonical sum is that sum. -/
theorem IsCanonical.sum_eq (h : IsCanonical m (.add ts)) : Expr.sum ts = .add ts :=
  h.sum?_eq (sum?_budget _ ts)

/-! ### Products and powers -/

theorem IsCanonical.areFactors (h : IsCanonical m (.mul fs)) : AreFactors m (others fs) := by
  obtain _ | _ | _ | ⟨-, hfs, hshape⟩ := h
  exact ⟨forall_mem_others hfs, forall_mem_others_number?, forall_mem_others hshape.flat,
    hshape.distinct⟩

theorem IsCanonical.product?_eq (h : IsCanonical m (.mul fs))
    (he : product? sumExponents n fs = some e) : e = .mul fs := by
  have hfactors := h.areFactors
  have hcollect (c : Rat) : Factors.collectAll sumExponents ⟨c, []⟩ (others fs) = _ :=
    hfactors.collectAll (by simp)
  obtain _ | _ | _ | ⟨-, -, hshape⟩ := h
  have htwo := hshape.two_le
  obtain hfs | ⟨c, h0, h1, hfs⟩ := hshape.coefficient
  · rw [← hfs] at hfactors hcollect
    rw [hfactors.product?_eq (c := 1) rfl (by rintro ts rfl; simp at htwo) (hcollect 1) he]
    match fs, htwo with
    | f :: g :: fs, _ => rfl
  · have hundistributed := hshape.undistributed c
    generalize others fs = gs at hfactors hcollect hfs
    subst hfs
    rw [hfactors.product?_eq h0 (by simpa using hundistributed) ?_ he]
    · exact ofFactors_of_ne_one h1 (by rintro rfl; simp at htwo)
    · simp only [Factors.collectAll, Factors.collect, Factors.empty, Rat.one_mul]
      exact hcollect c

/-- The product of the factors of a canonical product is that product. -/
theorem IsCanonical.product_eq (h : IsCanonical m (.mul fs)) : Expr.product fs = .mul fs :=
  h.product?_eq (product?_budget fs)

theorem IsCanonical.power?_eq (h : IsCanonical m (.pow b x))
    (he : power? sumExponents n b x = some e) : e = .pow b x := by
  obtain _ | _ | _ | _ | ⟨-, -, -, -, hset⟩ := h
  match n with
  | 0 => simp [power?] at he
  | n + 1 => exact Option.some.inj (he.symm.trans (power?_of_isSettled hset))

/-- The power of the base and the exponent of a canonical power is that power. -/
theorem IsCanonical.power_eq (h : IsCanonical m (.pow b x)) : Expr.power b x = .pow b x :=
  h.power?_eq (power?_budget b x)

/-! ### Substitution -/

theorem transformAll_eq_self {exit : Expr Rat → Expr Rat} (h : ∀ t ∈ ts, t.transform exit = t) :
    transformAll exit ts = ts := by
  rw [transformAll_eq_map, List.map_congr_left h, List.map_id']

/-- A substitution that replaces no symbol of a canonical expression leaves it as it is. -/
theorem IsCanonical.transform_eq (h : IsCanonical m e) {σ : Substitution Rat}
    (hσ : e.Within fun s => σ.get? s = none) : e.transform σ.replace = e := by
  induction h with
  | number v => rfl
  | symbol _ s =>
    rw [within_symbol_iff] at hσ
    rw [transform, Substitution.replace, hσ, Option.getD_none]
  | @add m ts hm h hts ih =>
    rw [within_add_iff] at hσ
    rw [transform, transformAll_eq_self fun t ht => ih t ht (hσ t ht)]
    exact (IsCanonical.add hm h hts).sum_eq
  | @mul m fs hm h hfs ih =>
    rw [within_mul_iff] at hσ
    rw [transform, transformAll_eq_self fun f hf => ih f hf (hσ f hf)]
    exact (IsCanonical.mul hm h hfs).product_eq
  | @pow m k b x hk hb hx hbase hset ihb ihx =>
    rw [within_pow_iff] at hσ
    rw [transform, ihb hσ.1, ihx hσ.2]
    exact (IsCanonical.pow hk hb hx hbase hset).power_eq
  | @call m k hm f args h ih =>
    rw [within_call_iff] at hσ
    rw [transform, transformAll_eq_self fun a ha => ih a ha (hσ a ha)]
    rfl

/-! ### Integers as exponents -/

/-- The expression is an integer. -/
def IsIntegral (x : Expr Rat) : Prop := ∃ n : ℤ, x = .number n

theorem IsCanonical.eq_number (h : IsCanonical 0 e) : ∃ v, e = .number v := by
  cases h with
  | number v => exact ⟨v, rfl⟩
  | pow hk => exact absurd hk (Nat.not_lt_zero _)
  | _ => contradiction

/-- Without a floor above numbers, powers with integers as exponents dissolve. -/
theorem IsCanonical.dissolves (hb : IsCanonical 1 b) (hx : x.IsIntegral) : Dissolves b x := by
  obtain ⟨n, rfl⟩ := hx
  refine .inr ⟨n, rfl, by simp [Scalar.isInteger], ?_⟩
  have hfactors : ∀ f ∈ b.factors, IsCanonical 1 f := by
    unfold factors
    split
    · exact hb.forall_mem_mul
    · simpa using hb
  rintro f hf c y rfl
  obtain _ | _ | _ | _ | ⟨hk, -, hy, -, -⟩ := hfactors _ hf
  obtain rfl := Nat.lt_one_iff.1 hk
  exact hy.eq_number

theorem isCanonical_one_sum (h : ∀ t ∈ ts, IsCanonical 1 t) : IsCanonical 1 (Expr.sum ts) := by
  cases ts with
  | nil => exact .number 0
  | cons t ts =>
    exact isCanonical_sum_of_le ((size_pos t).trans_le (size_le_sizeAll List.mem_cons_self)) h

theorem isCanonical_one_product (h : ∀ f ∈ fs, IsCanonical 1 f) :
    IsCanonical 1 (Expr.product fs) := by
  cases fs with
  | nil => exact .number 1
  | cons f fs =>
    exact isCanonical_product_of_le ((size_pos f).trans_le (size_le_sizeAll List.mem_cons_self)) h

theorem isCanonical_one_power (hb : IsCanonical 1 b) (hx : x.IsIntegral) :
    IsCanonical 1 (Expr.power b x) := by
  have hd := hb.dissolves hx
  obtain ⟨n, rfl⟩ := hx
  exact isCanonical_power_of_le ((size_pos b).trans_le (Nat.le_add_right _ _)) hb
    ⟨0, Nat.one_pos, .number _⟩ hd

theorem isCanonical_one_plus (he : IsCanonical 1 e) (ht : IsCanonical 1 t) :
    IsCanonical 1 (e + t) :=
  isCanonical_one_sum (by simp [he, ht])

theorem isCanonical_one_times (he : IsCanonical 1 e) (ht : IsCanonical 1 t) :
    IsCanonical 1 (e * t) :=
  isCanonical_one_product (by simp [he, ht])

theorem isCanonical_one_negate (he : IsCanonical 1 e) : IsCanonical 1 (-e) :=
  isCanonical_one_times (.number (-1)) he

theorem isCanonical_one_minus (he : IsCanonical 1 e) (ht : IsCanonical 1 t) :
    IsCanonical 1 (e - t) :=
  isCanonical_one_plus he (isCanonical_one_negate ht)

theorem isCanonical_one_over (he : IsCanonical 1 e) (ht : IsCanonical 1 t) :
    IsCanonical 1 (e / t) :=
  isCanonical_one_times he (isCanonical_one_power ht ⟨-1, rfl⟩)

/-- What is built with integers as exponents is canonical, and has no exponents but numbers. -/
theorem IsBuiltWith.isCanonical_one (h : IsBuiltWith (fun _ x => x.IsIntegral) e) :
    IsCanonical 1 e := by
  induction h with
  | number v => exact .number v
  | symbol s => exact .symbol Nat.one_pos s
  | plus _ _ ha hb => exact isCanonical_one_plus ha hb
  | minus _ _ ha hb => exact isCanonical_one_minus ha hb
  | times _ _ ha hb => exact isCanonical_one_times ha hb
  | divide _ _ _ ha hb => exact isCanonical_one_over ha hb
  | negate _ ha => exact isCanonical_one_negate ha
  | power _ _ hx hb _ => exact isCanonical_one_power hb hx
  | call f _ ih => exact .call Nat.one_pos f ih
  | sum _ ih => exact isCanonical_one_sum ih
  | product _ ih => exact isCanonical_one_product ih

end Kirchhoff.Expr

namespace Kirchhoff.Substitution

variable {e : Expr Rat} {σ : Substitution Rat}

theorem get?_eq_none {s : Symbol} (h : ∀ p ∈ σ.entries, (s == p.1) = false) : σ.get? s = none :=
  List.lookup_eq_none_iff.2 fun p hp => by simp [bne, h p hp]

/-- **Building an expression anew changes nothing.** A substitution leaves an expression that is
built with integers as exponents as it is, operand for operand, if none of its symbols occurs
there. -/
theorem apply_of_isIntegral (h : Expr.IsBuiltWith (fun _ x => x.IsIntegral) e)
    (hσ : ∀ p ∈ σ.entries, e.mentions p.1 = false) : σ.apply e = e := by
  unfold apply
  split
  · rfl
  · refine h.isCanonical_one.transform_eq fun s hs => get?_eq_none fun p hp => ?_
    simpa using List.any_eq_false.1 (hσ p hp) s hs

/-- A product with a quotient, a sum and a call in it, while another symbol is replaced. -/
theorem apply_of_isIntegral_quotient :
    let x : Expr Rat := .symbol ⟨0, "x"⟩
    let y : Expr Rat := .symbol ⟨1, "y"⟩
    let e := .number 6 * x * (x + .number 2 * y) ^ (.number (-3) : Expr Rat) *
      .call "exp" [x / y - .number 1] / (.number 4 * y)
    let σ : Substitution Rat := empty.insert ⟨2, "z"⟩ (x + y)
    (e == .mul [.number (3 / 2), x, .pow (.add [x, .mul [.number 2, y]]) (.number (-3)),
      .call "exp" [.add [.mul [x, .pow y (.number (-1))], .number (-1)]],
      .pow y (.number (-1))]) = true ∧
    σ.isEmpty = false ∧ σ.apply e = e := by
  intro x y e σ
  have hx : Expr.IsBuiltWith (fun _ x => x.IsIntegral) x := .symbol _
  have hy : Expr.IsBuiltWith (fun _ x => x.IsIntegral) y := .symbol _
  have hone : (Expr.number (-1) : Expr Rat).IsIntegral := ⟨-1, rfl⟩
  have he : Expr.IsBuiltWith (fun _ x => x.IsIntegral) e :=
    ((((Expr.IsBuiltWith.number 6).times hx).times
      ((hx.plus ((Expr.IsBuiltWith.number 2).times hy)).power (.number (-3)) ⟨-3, rfl⟩)).times
      (.call "exp" (by simpa using (hx.divide hy hone).minus (.number 1)))).divide
      ((Expr.IsBuiltWith.number 4).times hy) hone
  exact ⟨by decide +kernel, rfl, apply_of_isIntegral he (by decide +kernel)⟩

end Kirchhoff.Substitution
