import Kirchhoff.Expr.Canonical

/-!
# One round of the canonical operations

The operations that build canonical forms call each other within a budget. What one call does,
before it calls others with a smaller budget, is said here once for each of them; proofs about
the canonical form go by induction on the budget and take a round apart with these lemmas.
-/

namespace Kirchhoff.Expr

variable {α : Type} [Scalar α] {sumExponents : List (Expr α) → Expr α} {n : Nat}

/-! ### Collecting factors -/

/-- The base of a factor. -/
def base : Expr α → Expr α
  | .pow b _ => b
  | f => f

/-- The exponent of a factor. -/
def exponent : Expr α → Expr α
  | .pow _ x => x
  | _ => .number 1

/-- A factor that is no number and no product is collected as a power. -/
theorem collect_eq_insert {f : Expr α} (hnumber : f.number? = none) (hmul : ∀ gs, f ≠ .mul gs)
    (s : Factors α) :
    Factors.collect sumExponents s f = s.insert sumExponents f.base f.exponent := by
  cases f with
  | number v => cases hnumber
  | mul gs => exact absurd rfl (hmul gs)
  | _ => rfl

section

variable {P : Expr α → Prop} {I : Factors α → Prop}

mutual

theorem invariant_of_collect (hmul : ∀ gs, P (.mul gs) → ∀ g ∈ gs, P g)
    (hcoefficient : ∀ s v, I s → I { s with coefficient := s.coefficient * v })
    (hinsert : ∀ s f, P f → f.number? = none → (∀ gs, f ≠ .mul gs) → I s →
      I (s.insert sumExponents f.base f.exponent)) :
    ∀ (f : Expr α) {s : Factors α}, P f → I s → I (Factors.collect sumExponents s f)
  | .mul gs, _, hf, hs => invariant_of_collectAll hmul hcoefficient hinsert gs (hmul gs hf) hs
  | .number v, s, _, hs => hcoefficient s v hs
  | .pow b x, s, hf, hs => hinsert s (.pow b x) hf rfl (by simp) hs
  | .symbol t, s, hf, hs => hinsert s (.symbol t) hf rfl (by simp) hs
  | .add ts, s, hf, hs => hinsert s (.add ts) hf rfl (by simp) hs
  | .call g args, s, hf, hs => hinsert s (.call g args) hf rfl (by simp) hs

/-- What each factor keeps that is collected, all of them keep. -/
theorem invariant_of_collectAll (hmul : ∀ gs, P (.mul gs) → ∀ g ∈ gs, P g)
    (hcoefficient : ∀ s v, I s → I { s with coefficient := s.coefficient * v })
    (hinsert : ∀ s f, P f → f.number? = none → (∀ gs, f ≠ .mul gs) → I s →
      I (s.insert sumExponents f.base f.exponent)) :
    ∀ (fs : List (Expr α)) {s : Factors α}, (∀ f ∈ fs, P f) → I s →
      I (Factors.collectAll sumExponents s fs)
  | [], _, _, hs => hs
  | f :: fs, _, hfs, hs =>
    have h := List.forall_mem_cons.1 hfs
    invariant_of_collectAll hmul hcoefficient hinsert fs h.2
      (invariant_of_collect hmul hcoefficient hinsert f h.1 hs)

end

end

/-! ### Rounds -/

/-- Collects the terms of a sum that stands behind a coefficient. -/
def collectScaled? (sumExponents : List (Expr α) → Expr α) (n : Nat) (c : α) (s : Terms α)
    (t : Expr α) : Option (Terms α) := do
  collectTerm? sumExponents n s (← product? sumExponents n [.number c, t])

/-- Collects what stands behind the coefficient of a term. -/
def collectPart? (sumExponents : List (Expr α) → Expr α) (n : Nat) (s : Terms α) (c : α) :
    Expr α → Option (Terms α)
  | .add ts => ts.foldlM (collectScaled? sumExponents n c) s
  | part => some { s with parts := insertWith (· + ·) part c s.parts }

/-- A term that is no sum and no number is collected by its part. -/
theorem collectTerm?_eq_collectPart? {s : Terms α} {t : Expr α} (hadd : ∀ ts, t ≠ .add ts)
    (hnumber : t.number? = none) :
    collectTerm? sumExponents (n + 1) s t =
      collectPart? sumExponents n s t.splitCoefficient.1 t.splitCoefficient.2 := by
  cases t with
  | add ts => exact absurd rfl (hadd ts)
  | number v => cases hnumber
  | _ =>
    rw [collectTerm?]
    · rfl
    all_goals simp

/-- A term is a sum, a number, a sum behind a coefficient, or one part of the sum. -/
theorem collectTerm?_cases {s s' : Terms α} {t : Expr α}
    (h : collectTerm? sumExponents (n + 1) s t = some s') :
    (∃ ts, t = .add ts ∧ ts.foldlM (collectTerm? sumExponents n) s = some s') ∨
    (∃ v, t = .number v ∧ s' = { s with constant := s.constant + v }) ∨
    (∃ c ts, t.splitCoefficient = (c, .add ts) ∧
      ts.foldlM (collectScaled? sumExponents n c) s = some s') ∨
    (∃ c part, t.splitCoefficient = (c, part) ∧ t.number? = none ∧ (∀ ts, part ≠ .add ts) ∧
      s' = { s with parts := insertWith (· + ·) part c s.parts }) := by
  unfold collectTerm? at h
  split at h
  · cases h
  · rename_i hm
    obtain rfl := Nat.succ.inj hm
    exact .inl ⟨_, rfl, h⟩
  · exact .inr (.inl ⟨_, rfl, (Option.some.inj h).symm⟩)
  · rename_i hm _ hnumber
    obtain rfl := Nat.succ.inj hm
    refine .inr (.inr ?_)
    split at h
    rename_i c part hpart
    split at h
    · exact .inl ⟨c, _, hpart, h⟩
    · rename_i hadd
      refine .inr ⟨c, part, hpart, ?_, hadd, (Option.some.inj h).symm⟩
      unfold number?
      split
      · exact absurd rfl (hnumber _)
      · rfl

/-- A sum collects its terms, leaves out those with the coefficient zero and multiplies the
other coefficients onto their parts. -/
theorem sum?_cases {ts : List (Expr α)} {e : Expr α} (h : sum? sumExponents (n + 1) ts = some e) :
    ∃ s parts, ts.foldlM (collectTerm? sumExponents n) Terms.empty = some s ∧
      (s.parts.filter (·.2 != 0)).mapM (fun p =>
        if p.2 == 1 then some p.1 else product? sumExponents n [.number p.2, p.1]) = some parts ∧
      e = ofTerms (if s.constant != 0 then parts ++ [.number s.constant] else parts) := by
  simp only [sum?, bind, Option.bind_eq_some_iff, pure, Option.some.injEq] at h
  obtain ⟨s, hs, parts, hparts, rfl⟩ := h
  exact ⟨s, parts, hs, hparts, rfl⟩

/-- What a product with a coefficient is once its bases are raised: a single sum takes the
coefficient in. -/
def finish? (sumExponents : List (Expr α) → Expr α) (n : Nat) (c : α) :
    List (Expr α) → Option (Expr α)
  | [.add ts] =>
    if c == 1 then some (.add ts)
    else do sum? sumExponents n (← ts.mapM fun t => product? sumExponents n [.number c, t])
  | gs => some (ofFactors c gs)

theorem finish?_eq_ofFactors {c : α} {gs : List (Expr α)} (h : ∀ ts, gs ≠ [.add ts]) :
    finish? sumExponents n c gs = some (ofFactors c gs) := by
  unfold finish?
  split
  · exact absurd rfl (h _)
  · rfl

/-- A product collects its factors, raises each base to its exponent and puts the results
together. -/
theorem product?_eq_finish? (fs : List (Expr α)) :
    product? sumExponents (n + 1) fs =
      let p := Factors.collectAll sumExponents Factors.empty fs
      if p.coefficient == 0 then some (.number 0)
      else (p.powers.mapM fun q => power? sumExponents n q.1 q.2).bind fun raised =>
        let out := raised.foldl appendFactor (p.coefficient, [])
        if out.1 == 0 then some (.number 0) else finish? sumExponents n out.1 out.2 := by
  rw [product?]
  simp only [bind, pure]
  split
  · rfl
  · congr 1
    funext raised
    split
    · rfl
    · generalize raised.foldl appendFactor _ = out
      obtain ⟨c, gs⟩ := out
      unfold finish?
      split <;> simp_all

/-- A product collects its factors and raises each base to its exponent. It is zero where a
coefficient is zero; a coefficient before a single sum is distributed. -/
theorem product?_cases {fs : List (Expr α)} {e : Expr α}
    (h : product? sumExponents (n + 1) fs = some e) :
    ((Factors.collectAll sumExponents Factors.empty fs).coefficient == 0) = true ∧ e = .number 0 ∨
    ∃ raised c gs,
      (Factors.collectAll sumExponents Factors.empty fs).powers.mapM
        (fun p => power? sumExponents n p.1 p.2) = some raised ∧
      raised.foldl appendFactor
        ((Factors.collectAll sumExponents Factors.empty fs).coefficient, []) = (c, gs) ∧
      ((c == 0) = true ∧ e = .number 0 ∨
       (∃ ts, gs = [.add ts] ∧ (c == 1) = true ∧ e = .add ts) ∨
       (∃ ts us, gs = [.add ts] ∧
         ts.mapM (fun t => product? sumExponents n [.number c, t]) = some us ∧
         sum? sumExponents n us = some e) ∨
       (c == 0) = false ∧ (∀ ts, gs ≠ [.add ts]) ∧ e = ofFactors c gs) := by
  simp only [product?] at h
  split at h
  · exact .inl ⟨‹_›, (Option.some.inj h).symm⟩
  · obtain ⟨raised, hraised, h⟩ := Option.bind_eq_some_iff.1 h
    generalize hq : raised.foldl appendFactor _ = q at h
    obtain ⟨c, gs⟩ := q
    refine .inr ⟨raised, c, gs, hraised, hq, ?_⟩
    split at h
    · exact .inl ⟨‹_›, (Option.some.inj h).symm⟩
    · rename_i h0
      refine .inr ?_
      split at h
      · rename_i hq'
        obtain ⟨rfl, rfl⟩ := Prod.mk.inj hq'
        split at h
        · exact .inl ⟨_, rfl, ‹_›, (Option.some.inj h).symm⟩
        · obtain ⟨us, hus, h⟩ := Option.bind_eq_some_iff.1 h
          exact .inr (.inl ⟨_, us, rfl, hus, h⟩)
      · rename_i hadd hq'
        obtain ⟨rfl, rfl⟩ := Prod.mk.inj hq'
        refine .inr (.inr ⟨Bool.eq_false_iff.2 h0, ?_, (Option.some.inj h).symm⟩)
        rintro ts rfl
        exact hadd ts rfl

/-- A power that stays as it is: its exponent is neither zero nor one, numbers have no finite power,
one is not raised, and neither a product nor a power with a number as its exponent is raised to an
integer. -/
structure IsSettled (b x : Expr α) : Prop where
  exponent {v : α} (hx : x = .number v) : (v == 0) = false ∧ (v == 1) = false
  unfolded {u v : α} (hb : b = .number u) (hx : x = .number v) : Scalar.foldPower? u v = none
  one {u : α} (hb : b = .number u) (hx : x.number? = none) : (u == 1) = false
  integral {v : α} (hx : x = .number v) (hv : Scalar.isInteger v = true) :
    (∀ fs, b ≠ .mul fs) ∧ ∀ c u, b ≠ .pow c (.number u)

/-- A power with a number as its exponent may collapse; any other power stays as it is, unless
its base is one. -/
theorem power?_cases {b x e : Expr α} (h : power? sumExponents (n + 1) b x = some e) :
    (∃ v, x = .number v ∧ (v == 0) = true ∧ e = .number 1) ∨
    (∃ v, x = .number v ∧ (v == 1) = true ∧ e = b) ∨
    (∃ u v w, b = .number u ∧ x = .number v ∧ Scalar.foldPower? u v = some w ∧ e = .number w) ∨
    (∃ c u v, b = .pow c (.number u) ∧ x = .number v ∧ Scalar.isInteger v = true ∧
      power? sumExponents n c (.number (u * v)) = some e) ∨
    (∃ fs v gs, b = .mul fs ∧ x = .number v ∧ Scalar.isInteger v = true ∧
      fs.mapM (fun f => power? sumExponents n f (.number v)) = some gs ∧
      product? sumExponents n gs = some e) ∨
    (∃ u, b = .number u ∧ (u == 1) = true ∧ e = .number 1) ∨
    IsSettled b x ∧ e = .pow b x := by
  unfold power? at h
  split at h
  · cases h
  · rename_i v hm
    obtain rfl := Nat.succ.inj hm
    split at h
    · exact .inl ⟨v, rfl, ‹_›, (Option.some.inj h).symm⟩
    · rename_i h0
      refine .inr ?_
      split at h
      · exact .inl ⟨v, rfl, ‹_›, (Option.some.inj h).symm⟩
      · rename_i h1
        refine .inr ?_
        split at h
        · rename_i u
          obtain rfl := Option.some.inj h
          unfold ofNumberPower
          cases hfold : Scalar.foldPower? u v with
          | some w => exact .inl ⟨u, v, w, rfl, rfl, hfold, rfl⟩
          | none =>
            refine .inr (.inr (.inr (.inr ⟨?_, rfl⟩)))
            constructor <;> simp_all [number?]
        · refine .inr ?_
          split at h
          · exact .inl ⟨_, _, v, rfl, rfl, ‹_›, h⟩
          · refine .inr (.inr (.inr ⟨?_, (Option.some.inj h).symm⟩))
            constructor <;> simp_all
        · refine .inr (.inr ?_)
          split at h
          · obtain ⟨gs, hgs, h⟩ := Option.bind_eq_some_iff.1 h
            exact .inl ⟨_, v, gs, rfl, rfl, ‹_›, hgs, h⟩
          · refine .inr (.inr ⟨?_, (Option.some.inj h).symm⟩)
            constructor <;> simp_all
        · refine .inr (.inr (.inr (.inr ⟨?_, (Option.some.inj h).symm⟩)))
          constructor <;> simp_all
  · refine .inr (.inr (.inr (.inr (.inr ?_))))
    obtain h := Option.some.inj h
    split at h
    · exact .inl ⟨_, rfl, ‹_›, h.symm⟩
    · refine .inr ⟨?_, h.symm⟩
      constructor <;> simp_all
  · refine .inr (.inr (.inr (.inr (.inr (.inr ⟨?_, (Option.some.inj h).symm⟩)))))
    constructor <;> simp_all

/-- A power that stays as it is comes back when it is built anew. -/
theorem power?_of_isSettled {b x : Expr α} (h : IsSettled b x) :
    power? sumExponents (n + 1) b x = some (.pow b x) := by
  cases x with
  | number v =>
    obtain ⟨h0, h1⟩ := h.exponent rfl
    have hint := h.integral rfl
    cases b with
    | number u => simp [power?, h0, h1, ofNumberPower, h.unfolded rfl rfl]
    | mul fs =>
      cases hv : Scalar.isInteger v with
      | true => exact absurd rfl ((hint hv).1 fs)
      | false => simp [power?, h0, h1, hv]
    | pow c y =>
      cases y with
      | number u =>
        cases hv : Scalar.isInteger v with
        | true => exact absurd rfl ((hint hv).2 c u)
        | false => simp [power?, h0, h1, hv]
      | _ => simp [power?, h0, h1]
    | _ => simp [power?, h0, h1]
  | _ =>
    cases b with
    | number u => simp [power?, h.one rfl rfl]
    | _ => simp [power?]

end Kirchhoff.Expr
