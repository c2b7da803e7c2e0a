import Kirchhoff.Proofs.Expr.Shape
import Kirchhoff.Proofs.Linear.Form

/-!
# Degrees in the unknowns

The degree of an expression in the unknowns is zero without an unknown and one for an unknown. The
degree of a sum is that of its greatest term, degrees of factors are added, and two stands for all
that is not linear: for products of several factors with unknowns, and for powers and calls with
unknowns in them. An expression of degree at most one has a linear form (`isSome_linearForm?`).

Canonical operations do not raise degrees: a sum stays within the degree of its terms, and a product
within the sum of the degrees of its factors (`degree_sum_le`, `degree_product_le`). The reason is
that equal bases, whose exponents are added, have equal degrees: if unknowns stand in them, the two
powers together had degree two before.
-/

namespace Kirchhoff.Expr

variable {α : Type}

/-! ### Degrees -/

mutual

/-- The degree of an expression in the unknowns, up to two. -/
def degree (unknowns : List Symbol) : Expr α → ℕ
  | .number _ => 0
  | .symbol s => if (Expr.symbol s : Expr α).dependsOn unknowns then 1 else 0
  | .add ts => degreeMax unknowns ts
  | .mul fs => min 2 (degreeSum unknowns fs)
  | .pow b x => if (Expr.pow b x).dependsOn unknowns then 2 else 0
  | .call f args => if (Expr.call f args).dependsOn unknowns then 2 else 0

/-- The greatest degree of some expressions. -/
def degreeMax (unknowns : List Symbol) : List (Expr α) → ℕ
  | [] => 0
  | e :: es => max (degree unknowns e) (degreeMax unknowns es)

/-- The sum of the degrees of some expressions. -/
def degreeSum (unknowns : List Symbol) : List (Expr α) → ℕ
  | [] => 0
  | e :: es => degree unknowns e + degreeSum unknowns es

end

variable {us : List Symbol} {e f b x : Expr α} {es fs ts : List (Expr α)} {d : ℕ}

theorem degreeMax_le_iff : degreeMax us ts ≤ d ↔ ∀ t ∈ ts, t.degree us ≤ d := by
  induction ts with
  | nil => simp [degreeMax]
  | cons t ts ih => rw [degreeMax, max_le_iff, ih, List.forall_mem_cons]

/-- A sum has the greatest degree of its terms. -/
theorem degree_add_le_iff : (Expr.add ts).degree us ≤ d ↔ ∀ t ∈ ts, t.degree us ≤ d := by
  rw [degree, degreeMax_le_iff]

theorem degreeSum_eq_sum (fs : List (Expr α)) : degreeSum us fs = (fs.map (degree us)).sum := by
  induction fs with
  | nil => rfl
  | cons f fs ih => rw [degreeSum, ih, List.map_cons, List.sum_cons]

theorem degreeSum_append (es fs : List (Expr α)) :
    degreeSum us (es ++ fs) = degreeSum us es + degreeSum us fs := by
  simp [degreeSum_eq_sum]

theorem degree_le_degreeSum (us : List Symbol) (hf : f ∈ fs) : f.degree us ≤ degreeSum us fs := by
  rw [degreeSum_eq_sum]
  exact List.le_sum_of_mem (List.mem_map_of_mem hf)

/-- Results of no greater degree than what they are made of. -/
theorem degreeSum_le_of_forall₂ {β : Type} {R : β → Expr α → Prop} {size : β → ℕ} {bs : List β}
    (h : List.Forall₂ R bs es) (hR : ∀ b e, R b e → e.degree us ≤ size b) :
    degreeSum us es ≤ (bs.map size).sum := by
  induction h with
  | nil => simp [degreeSum]
  | cons he _ ih =>
    have := hR _ _ he
    simp only [degreeSum, List.map_cons, List.sum_cons]
    omega

/-- Degrees are counted up to two. -/
theorem degree_le_two (us : List Symbol) (e : Expr α) : e.degree us ≤ 2 := by
  induction e with
  | number _ => simp [degree]
  | symbol _ =>
    rw [degree]
    split <;> simp
  | add ts ih => exact degree_add_le_iff.2 ih
  | mul _ _ => exact min_le_left _ _
  | pow _ _ _ _ =>
    rw [degree]
    split <;> simp
  | call _ _ _ =>
    rw [degree]
    split <;> simp

/-- An expression without unknowns has degree zero. -/
theorem degree_eq_zero (h : e.Within (IsOther us)) : e.degree us = 0 := by
  induction e with
  | number _ => rfl
  | symbol _ => rw [degree, dependsOn_eq_false_iff.2 h, if_neg Bool.false_ne_true]
  | add ts ih =>
    exact Nat.le_zero.1 (degree_add_le_iff.2 fun t ht => (ih t ht (within_add_iff.1 h t ht)).le)
  | mul fs ih =>
    have hsum : degreeSum us fs = 0 := by
      rw [degreeSum_eq_sum]
      refine List.sum_eq_zero fun n hn => ?_
      obtain ⟨f, hf, rfl⟩ := List.mem_map.1 hn
      exact ih f hf (within_mul_iff.1 h f hf)
    rw [degree, hsum]
    rfl
  | pow _ _ _ _ => rw [degree, dependsOn_eq_false_iff.2 h, if_neg Bool.false_ne_true]
  | call _ _ _ => rw [degree, dependsOn_eq_false_iff.2 h, if_neg Bool.false_ne_true]

/-- A sum or a product depends on the unknowns through one of its operands. -/
theorem exists_dependsOn (h : dependsOn e us = true) (hes : e = .add es ∨ e = .mul es) :
    ∃ f ∈ es, f.dependsOn us = true := by
  by_contra hnone
  have hfree : ∀ f ∈ es, f.Within (IsOther us) := fun f hf =>
    dependsOn_eq_false_iff.1 (Bool.eq_false_iff.2 fun hdep => hnone ⟨f, hf, hdep⟩)
  have hfalse : e.dependsOn us = false := by
    obtain rfl | rfl := hes
    · exact dependsOn_eq_false_iff.2 (within_add_iff.2 hfree)
    · exact dependsOn_eq_false_iff.2 (within_mul_iff.2 hfree)
  rw [hfalse] at h
  cases h

/-- An expression with an unknown has a degree. -/
theorem one_le_degree (h : e.dependsOn us = true) : 1 ≤ e.degree us := by
  induction e with
  | number _ => cases h
  | symbol _ => rw [degree, if_pos h]
  | add ts ih =>
    obtain ⟨t, ht, hdep⟩ := exists_dependsOn h (.inl rfl)
    exact (ih t ht hdep).trans (degree_add_le_iff.1 le_rfl t ht)
  | mul fs ih =>
    obtain ⟨f, hf, hdep⟩ := exists_dependsOn h (.inr rfl)
    exact le_min one_le_two ((ih f hf hdep).trans (degree_le_degreeSum us hf))
  | pow _ _ _ _ =>
    rw [degree, if_pos h]
    exact one_le_two
  | call _ _ _ =>
    rw [degree, if_pos h]
    exact one_le_two

/-! ### Linear forms of expressions of degree one -/

/-- Every factor that depends on the unknowns adds to the degree. -/
theorem length_filter_dependsOn (us : List Symbol) (fs : List (Expr α)) :
    (fs.filter (·.dependsOn us)).length ≤ degreeSum us fs := by
  induction fs with
  | nil => simp
  | cons f fs ih =>
    rw [degreeSum]
    by_cases hf : f.dependsOn us = true
    · have := one_le_degree hf
      rw [List.filter_cons_of_pos (by exact hf), List.length_cons]
      omega
    · rw [List.filter_cons_of_neg (by exact hf)]
      omega

variable [Scalar α]

/-- An expression of degree at most one has a linear form. -/
theorem isSome_linearForm? (h : e.degree us ≤ 1) : (e.linearForm? us).isSome := by
  induction e with
  | number _ => rfl
  | symbol s =>
    rw [linearForm?]
    split <;> rfl
  | add ts ih =>
    rw [linearForm?, sumForms?_eq]
    have hts := degree_add_le_iff.1 h
    generalize (LinearForm.ofConstant (.number 0) : LinearForm α) = form
    induction ts generalizing form with
    | nil => rfl
    | cons t ts ihts =>
      have hfirst := ih t List.mem_cons_self (hts t List.mem_cons_self)
      obtain ⟨g, hg⟩ := Option.isSome_iff_exists.1 hfirst
      rw [List.foldlM_cons, hg]
      exact ihts (fun t ht => ih t (List.mem_cons_of_mem _ ht))
        (degree_add_le_iff.2 fun t ht => hts t (List.mem_cons_of_mem _ ht))
        (fun t ht => hts t (List.mem_cons_of_mem _ ht)) (form.add g)
  | mul fs ih =>
    rw [degree] at h
    have hlength := length_filter_dependsOn us fs
    rw [linearForm?, factorForms_eq]
    generalize hdependent : fs.filter (·.dependsOn us) = dependent at hlength
    obtain _ | ⟨d, _ | ⟨_, _⟩⟩ := dependent
    · rfl
    · have hd : d ∈ fs := List.mem_of_mem_filter (hdependent ▸ List.mem_singleton_self d)
      have hdegree := degree_le_degreeSum us hd
      obtain ⟨g, hg⟩ := Option.isSome_iff_exists.1 (ih d hd (by omega))
      rw [List.map_singleton, hg]
      rfl
    · simp only [List.length_cons] at hlength
      omega
  | pow b x _ _ =>
    rw [degree] at h
    rw [linearForm?]
    split
    · rename_i hdep
      rw [if_pos hdep] at h
      omega
    · rfl
  | call f args _ =>
    rw [degree] at h
    rw [linearForm?]
    split
    · rename_i hdep
      rw [if_pos hdep] at h
      omega
    · rfl

/-! ### Powers -/

/-- The expression is the number one. -/
def isOne : Expr α → Bool
  | .number v => v == 1
  | _ => false

/-- The degree of a base that is raised: that of the base itself, if the exponent is one. -/
def powerDegree (us : List Symbol) (p : Expr α × Expr α) : ℕ :=
  if p.2.isOne then p.1.degree us else if (Expr.pow p.1 p.2).dependsOn us then 2 else 0

theorem powerDegree_le_two (us : List Symbol) (p : Expr α × Expr α) : powerDegree us p ≤ 2 := by
  unfold powerDegree
  split
  · exact degree_le_two us p.1
  · split <;> omega

omit [Scalar α] in
theorem dependsOn_pow : (Expr.pow b x).dependsOn us = (b.dependsOn us || x.dependsOn us) := by
  rw [dependsOn, symbols, List.any_append]
  rfl

theorem powerDegree_eq_zero (hb : b.Within (IsOther us)) (hx : x.Within (IsOther us)) :
    powerDegree us (b, x) = 0 := by
  unfold powerDegree
  split
  · exact degree_eq_zero hb
  · rw [dependsOn_eq_false_iff.2 (within_pow_iff.2 ⟨hb, hx⟩), if_neg Bool.false_ne_true]

theorem one_le_powerDegree (hb : b.dependsOn us = true) : 1 ≤ powerDegree us (b, x) := by
  unfold powerDegree
  split
  · exact one_le_degree hb
  · rw [dependsOn_pow, hb, Bool.true_or, if_pos rfl]
    exact one_le_two

/-- An exponent that depends on the unknowns is not linear. -/
theorem powerDegree_eq_two (hx : x.dependsOn us = true) : powerDegree us (b, x) = 2 := by
  cases x with
  | number _ => cases hx
  | _ => simp [powerDegree, isOne, dependsOn_pow, hx]

theorem powerDegree_one [Scalar.LawfulOne α] : powerDegree us (b, .number 1) = b.degree us :=
  if_pos Scalar.LawfulOne.one_beq_one

section

variable {sumExponents : List (Expr α) → Expr α} {n : ℕ}

/-- Raised to one, a base stays what it is, or is one. -/
theorem power?_of_isOne (hone : x.isOne = true) (h : power? sumExponents (n + 1) b x = some e) :
    b = e ∨ .number 1 = e := by
  cases x with
  | number v =>
    have hv : (v == 1) = true := hone
    simp only [power?, hv, if_true] at h
    split at h
    · exact .inr (Option.some.inj h)
    · exact .inl (Option.some.inj h)
  | _ => cases hone

/-- A power that is built has no greater degree than the power that is written. -/
theorem degree_power?_le (hS : Hereditary.Adds (Within (IsOther us)) sumExponents)
    (h : power? sumExponents n b x = some e) : e.degree us ≤ powerDegree us (b, x) := by
  cases n with
  | zero => simp [power?] at h
  | succ n =>
    by_cases hdep : (Expr.pow b x).dependsOn us = true
    · unfold powerDegree
      split
      · rename_i hone
        obtain rfl | rfl := power?_of_isOne hone h
        · exact le_rfl
        · exact Nat.zero_le _
      · exact degree_le_two us e
    · have hfree := within_pow_iff.1 (dependsOn_eq_false_iff.1 (Bool.eq_false_iff.2 hdep))
      have hwithin := ((hereditary_within (IsOther us)).kept hS (n + 1)).power h hfree.1 hfree.2
      rw [degree_eq_zero hwithin]
      exact Nat.zero_le _

/-! ### Collecting factors -/

/-- The degree of what is collected of a product, up to two. -/
def Factors.degree (us : List Symbol) (s : Factors α) : ℕ :=
  min 2 (s.powers.map (powerDegree us)).sum

/-- Merging equal bases adds no degree beyond that of the power. -/
theorem Factors.degree_insert (hS : Hereditary.Adds (Within (IsOther us)) sumExponents)
    (s : Factors α) (b x : Expr α) :
    (s.insert sumExponents b x).degree us ≤ s.degree us + powerDegree us (b, x) := by
  have hinsert := sum_insertWith_le (fun y z => sumExponents [y, z]) (powerDegree us) b x
    (fun k y hkb => ?_) s.powers
  · change min 2 ((insertWith _ b x s.powers).map (powerDegree us)).sum ≤ _
    unfold Factors.degree
    omega
  · have htwo := powerDegree_le_two us (k, sumExponents [y, x])
    have hbase := dependsOn_of_beq hkb us
    by_cases hk : k.dependsOn us = true
    · have hold := one_le_powerDegree (x := y) hk
      have hnew := one_le_powerDegree (x := x) (hbase ▸ hk)
      omega
    · by_cases hy : y.dependsOn us = true
      · rw [powerDegree_eq_two hy]
        omega
      · by_cases hx : x.dependsOn us = true
        · rw [powerDegree_eq_two hx]
          omega
        · simp only [Bool.not_eq_true, dependsOn_eq_false_iff] at hk hy hx
          rw [powerDegree_eq_zero hk (hS y x hy hx)]
          exact Nat.zero_le _

mutual

theorem Factors.degree_collect [Scalar.LawfulOne α]
    (hS : Hereditary.Adds (Within (IsOther us)) sumExponents) :
    ∀ (f : Expr α) (s : Factors α),
      (Factors.collect sumExponents s f).degree us ≤ s.degree us + f.degree us
  | .mul gs, s => by
    have hall := Factors.degree_collectAll hS gs s
    have htwo : (Factors.collectAll sumExponents s gs).degree us ≤ 2 := min_le_left _ _
    simp only [Factors.collect, Expr.degree]
    omega
  | .number _, s => Nat.le_add_right _ _
  | .pow b x, s => by
    have hinsert := Factors.degree_insert hS s b x
    have htwo : (s.insert sumExponents b x).degree us ≤ 2 := min_le_left _ _
    rw [Factors.collect, Expr.degree]
    split
    · exact htwo.trans (Nat.le_add_left _ _)
    · rename_i hfree
      have hwithin := within_pow_iff.1 (dependsOn_eq_false_iff.1 (Bool.eq_false_iff.2 hfree))
      rwa [powerDegree_eq_zero hwithin.1 hwithin.2] at hinsert
  | .symbol t, s => (Factors.degree_insert hS s (.symbol t) (.number 1)).trans_eq
    (congrArg _ powerDegree_one)
  | .add ts, s => (Factors.degree_insert hS s (.add ts) (.number 1)).trans_eq
    (congrArg _ powerDegree_one)
  | .call f args, s => (Factors.degree_insert hS s (.call f args) (.number 1)).trans_eq
    (congrArg _ powerDegree_one)

/-- What is collected of factors has no higher degree than they have. -/
theorem Factors.degree_collectAll [Scalar.LawfulOne α]
    (hS : Hereditary.Adds (Within (IsOther us)) sumExponents) :
    ∀ (gs : List (Expr α)) (s : Factors α),
      (Factors.collectAll sumExponents s gs).degree us ≤ s.degree us + degreeSum us gs
  | [], _ => le_rfl
  | g :: gs, s => by
    have hrest := Factors.degree_collectAll hS gs (Factors.collect sumExponents s g)
    have hfirst := Factors.degree_collect hS g s
    simp only [Factors.collectAll, degreeSum]
    omega

end

/-! ### Writing down what is collected -/

/-- A term without its coefficient has no higher degree. -/
theorem degree_splitCoefficient (us : List Symbol) (t : Expr α) :
    t.splitCoefficient.2.degree us ≤ t.degree us := by
  have htwo (e : Expr α) := degree_le_two us e
  unfold splitCoefficient
  split
  · rename_i c f
    have := htwo f
    simp only [degree, degreeSum]
    omega
  · simp [degree, degreeSum]
  · exact le_rfl

theorem degree_ofTerms_le (h : ∀ t ∈ ts, t.degree us ≤ d) : (ofTerms ts).degree us ≤ d := by
  unfold ofTerms
  split
  · exact Nat.zero_le _
  · exact h _ List.mem_cons_self
  · exact degree_add_le_iff.2 h

theorem degree_ofFactors_le (us : List Symbol) (c : α) (fs : List (Expr α)) :
    (ofFactors c fs).degree us ≤ degreeSum us fs := by
  unfold ofFactors
  split
  · exact Nat.zero_le _
  · split <;> simp [degree, degreeSum]
  · split <;> simp [degree, degreeSum]

theorem degree_appendFactor (us : List Symbol) (acc : α × List (Expr α)) (f : Expr α) :
    min 2 (degreeSum us (appendFactor acc f).2) ≤ degreeSum us acc.2 + f.degree us := by
  unfold appendFactor
  split
  · simp [degree]
  · rw [degreeSum_append, degree]
    omega
  · rw [degreeSum_append, degreeSum, degreeSum]
    omega

/-- Splicing products into a product adds no degree. -/
theorem degree_foldl_appendFactor (us : List Symbol) (acc : α × List (Expr α))
    (fs : List (Expr α)) :
    min 2 (degreeSum us (fs.foldl appendFactor acc).2) ≤ degreeSum us acc.2 + degreeSum us fs := by
  induction fs generalizing acc with
  | nil => simp [degreeSum]
  | cons f fs ih =>
    have hrest := ih (appendFactor acc f)
    have hfirst := degree_appendFactor us acc f
    simp only [List.foldl_cons, degreeSum]
    omega

/-! ### One floor of exponents -/

/-- The operations within a budget do not raise degrees. -/
structure KeepsDegree (us : List Symbol) (sumExponents : List (Expr α) → Expr α) (n : ℕ) :
    Prop where
  collectTerm {s s' : Terms α} {t : Expr α} {d : ℕ} :
    collectTerm? sumExponents n s t = some s' → t.degree us ≤ d →
      (∀ p ∈ s.parts, p.1.degree us ≤ d) → ∀ p ∈ s'.parts, p.1.degree us ≤ d
  sum {ts : List (Expr α)} {e : Expr α} {d : ℕ} :
    sum? sumExponents n ts = some e → (∀ t ∈ ts, t.degree us ≤ d) → e.degree us ≤ d
  product {fs : List (Expr α)} {e : Expr α} :
    product? sumExponents n fs = some e → e.degree us ≤ degreeSum us fs

namespace KeepsDegree

variable {s s' : Terms α} {t : Expr α} {c : α}

theorem scaled (hn : KeepsDegree us sumExponents n)
    (h : product? sumExponents n [.number c, t] = some e) : e.degree us ≤ t.degree us := by
  simpa [degreeSum, degree] using hn.product h

theorem collectTerm_succ (hn : KeepsDegree us sumExponents n)
    (h : collectTerm? sumExponents (n + 1) s t = some s') (ht : t.degree us ≤ d)
    (hs : ∀ p ∈ s.parts, p.1.degree us ≤ d) : ∀ p ∈ s'.parts, p.1.degree us ≤ d := by
  have hpart := (degree_splitCoefficient us t).trans ht
  rcases collectTerm?_cases h with
    ⟨ts, rfl, h⟩ | ⟨v, rfl, rfl⟩ | ⟨c, ts, hsplit, h⟩ | ⟨c, part, hsplit, -, -, rfl⟩
  · exact invariant_of_foldlM (Q := fun s : Terms α => ∀ p ∈ s.parts, p.1.degree us ≤ d)
      (fun t ht' _ _ h => hn.collectTerm h (degree_add_le_iff.1 ht t ht')) h hs
  · exact hs
  · rw [hsplit] at hpart
    refine invariant_of_foldlM (Q := fun s : Terms α => ∀ p ∈ s.parts, p.1.degree us ≤ d)
      (fun t ht _ _ h => ?_) h hs
    obtain ⟨e, he, h⟩ := Option.bind_eq_some_iff.1 h
    exact hn.collectTerm h ((hn.scaled he).trans (degree_add_le_iff.1 hpart t ht))
  · rw [hsplit] at hpart
    exact Hereditary.forall_mem_insertWith hpart (fun _ _ hk => hk) hs

/-- A sum has no higher degree than its terms, if products of the budget below have not. -/
theorem sum_succ (hn : KeepsDegree us sumExponents n)
    (h : sum? sumExponents (n + 1) ts = some e) (hts : ∀ t ∈ ts, t.degree us ≤ d) :
    e.degree us ≤ d := by
  obtain ⟨s, parts, hs, hparts, rfl⟩ := sum?_cases h
  have hterms : ∀ p ∈ s.parts, p.1.degree us ≤ d :=
    invariant_of_foldlM (Q := fun s : Terms α => ∀ p ∈ s.parts, p.1.degree us ≤ d)
      (fun t ht _ _ h => hn.collectTerm h (hts t ht)) hs (by simp [Terms.empty])
  have hwritten : ∀ t ∈ parts, t.degree us ≤ d := by
    refine forall_mem_of_mapM_eq_some (fun p hp e he => ?_) hparts
    have hp := hterms p (List.mem_filter.1 hp).1
    split at he
    · exact Option.some.inj he ▸ hp
    · exact (hn.scaled he).trans hp
  refine degree_ofTerms_le ?_
  split
  · exact List.forall_mem_append.2 ⟨hwritten, by simp [degree]⟩
  · exact hwritten

/-- A product has no higher degree than its factors, if powers of the budget below have not. -/
theorem product_succ [Scalar.LawfulOne α]
    (hS : Hereditary.Adds (Within (IsOther us)) sumExponents) (hn : KeepsDegree us sumExponents n)
    (h : product? sumExponents (n + 1) fs = some e) : e.degree us ≤ degreeSum us fs := by
  have hcollect := Factors.degree_collectAll hS fs Factors.empty
  have hcases := product?_cases h
  generalize Factors.collectAll sumExponents Factors.empty fs = p at hcollect hcases
  have hempty : (Factors.empty : Factors α).degree us = 0 := rfl
  have htwo := degree_le_two us e
  unfold Factors.degree at hcollect hempty
  rcases hcases with ⟨-, rfl⟩ | ⟨raised, c, gs, hraised, hout, h⟩
  · exact Nat.zero_le _
  · have hraised : degreeSum us raised ≤ (p.powers.map (powerDegree us)).sum :=
      degreeSum_le_of_forall₂ (forall₂_of_mapM_eq_some hraised) fun _ _ he => degree_power?_le hS he
    have hgs := degree_foldl_appendFactor us (p.coefficient, []) raised
    rw [hout] at hgs
    simp only [degreeSum, Nat.zero_add] at hgs
    rcases h with ⟨-, rfl⟩ | ⟨ts, rfl, -, rfl⟩ | ⟨ts, ys, rfl, hys, h⟩ | ⟨-, -, rfl⟩
    · exact Nat.zero_le _
    · simp only [degreeSum] at hgs
      omega
    · -- The coefficient is distributed, and no term gets a greater degree.
      have hsum : e.degree us ≤ (Expr.add ts).degree us := hn.sum h
        (forall_mem_of_mapM_eq_some
          (fun t ht e he => (hn.scaled he).trans (degree_add_le_iff.1 le_rfl t ht)) hys)
      simp only [degreeSum] at hgs
      omega
    · have := degree_ofFactors_le us c gs
      omega

end KeepsDegree

/-- No operation raises the degree, whatever its budget, by induction on it. -/
theorem keepsDegree [Scalar.LawfulOne α]
    (hS : Hereditary.Adds (Within (IsOther us)) sumExponents) (n : ℕ) :
    KeepsDegree us sumExponents n := by
  induction n with
  | zero => constructor <;> simp [collectTerm?, sum?, product?]
  | succ n hn => exact ⟨hn.collectTerm_succ, hn.sum_succ, hn.product_succ hS⟩

end

/-! ### All floors -/

section

variable [Scalar.LawfulOne α]

/-- A sum stays within the degree of its terms. -/
theorem degree_sum_le (h : ∀ t ∈ ts, t.degree us ≤ d) : (sum ts).degree us ≤ d :=
  (keepsDegree ((hereditary_within _).adds_sumOn _) _).sum (sum?_budget _ ts) h

/-- A product stays within the sum of the degrees of its factors. -/
theorem degree_product_le (fs : List (Expr α)) : (product fs).degree us ≤ degreeSum us fs :=
  (keepsDegree ((hereditary_within _).adds_sumOn _) _).product (product?_budget fs)

theorem degree_negate_le (e : Expr α) : (-e).degree us ≤ e.degree us :=
  (degree_product_le [.number (-1), e]).trans_eq (by simp [degreeSum, degree])

theorem degree_plus_le {a : Expr α} (ha : a.degree us ≤ d) (hb : b.degree us ≤ d) :
    (a + b).degree us ≤ d :=
  degree_sum_le (List.forall_mem_cons.2 ⟨ha, List.forall_mem_singleton.2 hb⟩)

theorem degree_minus_le {a : Expr α} (ha : a.degree us ≤ d) (hb : b.degree us ≤ d) :
    (a - b).degree us ≤ d :=
  degree_plus_le ha ((degree_negate_le b).trans hb)

/-- Degrees of factors add up. -/
theorem degree_times_le (a b : Expr α) : (a * b).degree us ≤ a.degree us + b.degree us :=
  (degree_product_le [a, b]).trans_eq (by simp [degreeSum])

/-- Divided by an expression without unknowns, an expression keeps its degree. -/
theorem degree_over_le (a : Expr α) (hb : b.Within (IsOther us)) :
    (a / b).degree us ≤ a.degree us := by
  have hinverse : (power b (.number (-1))).degree us = 0 :=
    degree_eq_zero (within_power hb (within_number (-1)))
  exact (degree_product_le [a, power b (.number (-1))]).trans_eq (by simp [degreeSum, hinverse])

end

end Kirchhoff.Expr
