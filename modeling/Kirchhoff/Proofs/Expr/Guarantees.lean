import Mathlib
import Kirchhoff.Proofs.Expr.Collecting

/-!
# What the canonical form guarantees

The operations build canonical expressions from canonical ones (`BuildsCanonical`), floor by floor,
if a power is taken of a product or of a power only where it dissolves into powers of its bases
(`Dissolves`).

A power of a product that stays as it is can turn into that product later, when exponents add up to
one; its factors are then spliced into a product that may have equal bases already, and are not
combined with them (`exists_isBuilt_not_hasShape`). Whatever powers are taken, sums and products
have operands to combine, no product is a factor of a product, and no product is a coefficient
before a single sum (`IsBuilt.guarantees`).
-/

namespace Kirchhoff.Expr

variable {α : Type} [Scalar α] {m n : ℕ} {c : α} {b x e t : Expr α} {fs ts : List (Expr α)}
  {sumExponents : List (Expr α) → Expr α}

/-! ### One floor of exponents -/

/-- The power dissolves: its base is no product and no power, or the exponent is an integer and the
factors of the base have numbers as their exponents. -/
def Dissolves (b x : Expr α) : Prop :=
  IsBase b ∨ ∃ v, x = .number v ∧ Scalar.isInteger v = true ∧
    ∀ f ∈ b.factors, ∀ c y, f = .pow c y → ∃ u, y = .number u

/-- The operations within a budget build canonical expressions. -/
structure BuildsCanonical (m : ℕ) (sumExponents : List (Expr α) → Expr α) (n : ℕ) : Prop where
  collectTerm {s s' : Terms α} {t : Expr α} :
    collectTerm? sumExponents n s t = some s' → IsCanonical m t → AreParts m s → AreParts m s'
  sum {ts : List (Expr α)} {e : Expr α} :
    sum? sumExponents n ts = some e → (∀ t ∈ ts, IsCanonical m t) → IsCanonical m e
  product {fs : List (Expr α)} {e : Expr α} :
    product? sumExponents n fs = some e → (∀ f ∈ fs, IsCanonical m f) → IsCanonical m e
  power {b x e : Expr α} :
    power? sumExponents n b x = some e → IsCanonical m b → IsBelow m x → Dissolves b x →
      IsCanonical m e

theorem BuildsCanonical.scaled (hn : BuildsCanonical m sumExponents n)
    (h : product? sumExponents n [.number c, t] = some e) (ht : IsCanonical m t) :
    IsCanonical m e :=
  hn.product h (by simpa using ⟨.number c, ht⟩)

theorem IsCanonical.forall_mem_of_split (h : IsCanonical m t)
    (hsplit : t.splitCoefficient = (c, .add ts)) : ∀ u ∈ ts, IsCanonical m u := by
  unfold splitCoefficient at hsplit
  split at hsplit
  · obtain ⟨-, rfl⟩ := Prod.mk.inj hsplit
    exact (h.forall_mem_mul _ (by simp)).forall_mem_add
  · cases hsplit
  · obtain ⟨-, rfl⟩ := Prod.mk.inj hsplit
    exact h.forall_mem_add

/-- A canonical term adds its part, or the parts of a sum that its coefficient is distributed
over. -/
theorem BuildsCanonical.collectTerm_succ (hn : BuildsCanonical m sumExponents n) {s s' : Terms α}
    (h : collectTerm? sumExponents (n + 1) s t = some s') (ht : IsCanonical m t)
    (hs : AreParts m s) : AreParts m s' := by
  rcases collectTerm?_cases h with
    ⟨ts, rfl, h⟩ | ⟨v, rfl, rfl⟩ | ⟨c, ts, hsplit, h⟩ | ⟨c, q, hsplit, hother, hsum, rfl⟩
  · exact invariant_of_foldlM (fun t h' _ _ h => hn.collectTerm h (ht.forall_mem_add t h')) h hs
  · exact ⟨hs.parts, hs.distinct⟩
  · refine invariant_of_foldlM (fun t h' _ _ h => ?_) h hs
    obtain ⟨e, he, h⟩ := Option.bind_eq_some_iff.1 h
    exact hn.collectTerm h (hn.scaled he (ht.forall_mem_of_split hsplit t h'))
  · obtain rfl : t.part = q := congrArg Prod.snd hsplit
    exact ⟨Hereditary.forall_mem_insertWith (ht.isPart hother hsum) (fun _ _ hk => hk) hs.parts,
      hs.distinct.insert⟩

/-- A sum of one budget more, from products of the budget below. -/
theorem BuildsCanonical.sum_succ [Scalar.LawfulOne α] (hn : BuildsCanonical m sumExponents n)
    (h : sum? sumExponents (n + 1) ts = some e) (hts : ∀ t ∈ ts, IsCanonical m t) :
    IsCanonical m e := by
  obtain ⟨s, parts, hs, hparts, rfl⟩ := sum?_cases h
  have hempty : AreParts m (Terms.empty : Terms α) := ⟨by simp [Terms.empty], .nil⟩
  have hs := invariant_of_foldlM (fun t ht _ _ h => hn.collectTerm h (hts t ht)) hs hempty
  have hdistinct : HasDistinctKeys (s.parts.filter (·.2 != 0)) := hs.distinct.filter _
  refine hdistinct.ofTerms (forall₂_imp_of_mapM_eq_some (fun p hp t ht => ?_) hparts) _
  obtain ⟨hp, hzero⟩ := List.mem_filter.1 hp
  exact (hs.parts p hp).isTerm (by simpa [bne] using hzero) ht

theorem BuildsCanonical.product_succ (hS : Hereditary.Adds (IsBelow m) sumExponents)
    (hn : BuildsCanonical m sumExponents n) (h : product? sumExponents (n + 1) fs = some e)
    (hfs : ∀ f ∈ fs, IsCanonical m f) : IsCanonical m e := by
  have hpowers := ArePowers.collectAll hS hfs
  rcases product?_cases h with ⟨-, rfl⟩ | ⟨raised, c, gs, hraised, hout, h⟩
  · exact .number 0
  · have hgs := hpowers.areFactors hraised
      (Factors.collectAll sumExponents Factors.empty fs).coefficient
    rw [hout] at hgs
    rcases h with ⟨-, rfl⟩ | ⟨ts, rfl, -, rfl⟩ | ⟨ts, us, rfl, hus, h⟩ | ⟨h0, hsum, rfl⟩
    · exact .number 0
    · exact hgs.canonical _ (by simp)
    · have hts := (hgs.canonical (.add ts) (by simp)).forall_mem_add
      exact hn.sum h (forall_mem_of_mapM_eq_some (fun t ht e he => hn.scaled he (hts t ht)) hus)
    · exact hgs.ofFactors h0 hsum

/-- A power that dissolves and stays as it is has a base of its own. -/
theorem Dissolves.isBase (h : Dissolves b x) (hset : IsSettled b x) : IsBase b := by
  obtain hbase | ⟨v, rfl, hv, hexponents⟩ := h
  · exact hbase
  · obtain ⟨hmul, hpow⟩ := hset.integral rfl hv
    refine ⟨hmul, ?_⟩
    rintro c y rfl
    obtain ⟨u, rfl⟩ := hexponents (.pow c y) (by simp [factors]) c y rfl
    exact hpow c u rfl

/-- A power of one budget more: nested exponents are added and factors are raised one by one. -/
theorem BuildsCanonical.power_succ (hn : BuildsCanonical m sumExponents n)
    (h : power? sumExponents (n + 1) b x = some e) (hb : IsCanonical m b) (hx : IsBelow m x)
    (hd : Dissolves b x) : IsCanonical m e := by
  obtain ⟨k, hk, hx⟩ := hx
  rcases power?_cases h with ⟨v, rfl, -, rfl⟩ | ⟨v, rfl, -, rfl⟩ | ⟨u, v, w, rfl, rfl, -, rfl⟩ |
    ⟨c, u, v, rfl, rfl, -, h⟩ | ⟨fs, v, gs, rfl, rfl, hv, hgs, h⟩ | ⟨u, rfl, -, rfl⟩ | ⟨hset, rfl⟩
  · exact .number 1
  · exact hb
  · exact .number w
  -- The base of a canonical power is no power again, so one descent is all.
  · obtain _ | _ | _ | _ | ⟨_, hc, _, hbase, _⟩ := hb
    exact hn.power h hc ⟨k, hk, .number _⟩ (.inl hbase)
  -- The powers of the factors dissolve by the condition on their exponents.
  · obtain hbase | ⟨-, -, -, hexponents⟩ := hd
    · exact absurd rfl (hbase.1 fs)
    · obtain _ | _ | _ | ⟨-, hfs, hshape⟩ := hb
      refine hn.product h (forall_mem_of_mapM_eq_some (fun f hf e he => ?_) hgs)
      refine hn.power he (hfs f hf) ⟨k, hk, .number v⟩ (.inr ⟨v, rfl, hv, ?_⟩)
      rw [factors_eq (hshape.flat f hf)]
      simpa using hexponents f hf
  · exact .number 1
  · exact .pow hk hb hx (hd.isBase hset) hset

/-- The operations build canonical expressions whatever their budget, by induction on it. -/
theorem buildsCanonical [Scalar.LawfulOne α] (hS : Hereditary.Adds (IsBelow m) sumExponents)
    (n : ℕ) : BuildsCanonical m sumExponents n := by
  induction n with
  | zero => constructor <;> simp [collectTerm?, sum?, product?, power?]
  | succ n hn => exact ⟨hn.collectTerm_succ, hn.sum_succ, hn.product_succ hS, hn.power_succ⟩

/-! ### All floors -/

/-- Exponents are added one floor below, where the operations build canonical expressions by
induction on the floors. -/
theorem adds_isBelow [Scalar.LawfulOne α] {m k : ℕ} (hmk : m ≤ k) :
    Hereditary.Adds (IsBelow m : Expr α → Prop) (sumOn k) := by
  induction k generalizing m with
  | zero =>
    rintro x y ⟨k, hk, -⟩
    omega
  | succ k ih =>
    rintro x y ⟨i, hi, hx⟩ ⟨j, hj, hy⟩
    obtain _ | m := m
    · omega
    have hx := hx.mono (Nat.le_of_lt_succ hi)
    have hy := hy.mono (Nat.le_of_lt_succ hj)
    have hsum := (buildsCanonical (ih (Nat.le_of_succ_le_succ hmk)) _).sum
      (sum?_budget k [x, y]) (by simp [hx, hy])
    exact ⟨m, Nat.lt_succ_self m, hsum⟩

section

variable [Scalar.LawfulOne α]

theorem isCanonical_sum_of_le (hm : m ≤ sizeAll ts) (h : ∀ t ∈ ts, IsCanonical m t) :
    IsCanonical m (sum ts) :=
  (buildsCanonical (adds_isBelow hm) _).sum (sum?_budget _ ts) h

theorem isCanonical_product_of_le (hm : m ≤ sizeAll fs) (h : ∀ f ∈ fs, IsCanonical m f) :
    IsCanonical m (product fs) :=
  (buildsCanonical (adds_isBelow hm) _).product (product?_budget fs) h

theorem isCanonical_power_of_le (hm : m ≤ b.size + x.size) (hb : IsCanonical m b)
    (hx : IsBelow m x) (h : Dissolves b x) : IsCanonical m (power b x) :=
  (buildsCanonical (adds_isBelow hm) _).power (power?_budget b x) hb hx h

/-- The sum of canonical terms is canonical. -/
theorem isCanonical_sum (h : ∀ t ∈ ts, IsCanonical t.size t) : IsCanonical (sum ts).size (sum ts) :=
  (isCanonical_sum_of_le le_rfl fun t ht => (h t ht).mono (size_le_sizeAll ht)).of_size

/-- The product of canonical factors is canonical. -/
theorem isCanonical_product (h : ∀ f ∈ fs, IsCanonical f.size f) :
    IsCanonical (product fs).size (product fs) :=
  (isCanonical_product_of_le le_rfl fun f hf => (h f hf).mono (size_le_sizeAll hf)).of_size

/-- A power is canonical if it dissolves. -/
theorem isCanonical_power (hb : IsCanonical b.size b) (hx : IsCanonical x.size x)
    (h : Dissolves b x) : IsCanonical (power b x).size (power b x) :=
  (isCanonical_power_of_le le_rfl (hb.mono (Nat.le_add_right _ _))
    ⟨x.size, Nat.lt_add_of_pos_left (size_pos b), hx⟩ h).of_size

/-- Where the powers that are taken dissolve, what is built is canonical. -/
theorem IsBuiltWith.isCanonical (h : IsBuiltWith Dissolves e) : IsCanonical e.size e := by
  have hminus : IsCanonical (Expr.number (-1 : α)).size (.number (-1 : α)) := .number (-1)
  induction h with
  | number v => exact .number v
  | symbol s => exact .symbol (size_pos _) s
  | plus _ _ ha hb => exact isCanonical_sum (by simp [ha, hb])
  | minus _ _ ha hb =>
    exact isCanonical_sum (by simpa using ⟨ha, isCanonical_product (by simpa using ⟨hminus, hb⟩)⟩)
  | times _ _ ha hb => exact isCanonical_product (by simp [ha, hb])
  | divide _ _ hd ha hb =>
    exact isCanonical_product (by simpa using ⟨ha, isCanonical_power hb hminus hd⟩)
  | negate _ ha => exact isCanonical_product (by simpa using ⟨hminus, ha⟩)
  | power _ _ hd hb hx => exact isCanonical_power hb hx hd
  | @call f args _ ih =>
    exact .call (size_pos _) f fun a ha => (ih a ha).mono (size_le_sizeAll ha)
  | sum _ ih => exact isCanonical_sum ih
  | product _ ih => exact isCanonical_product ih

end

/-! ### Built expressions -/

/-- Sums and products have operands to combine, no product is a factor of a product, and no product
is a coefficient before a single sum. -/
def HasOperands : Expr α → Prop
  | .add ts => 2 ≤ ts.length
  | .mul fs => 2 ≤ fs.length ∧ (∀ f ∈ fs, ∀ gs, f ≠ .mul gs) ∧ ∀ c ts, fs ≠ [.number c, .add ts]
  | _ => True

/-- All nodes of a regular expression have operands to combine. -/
theorem IsRegular.hasOperands {S : Symbol → Prop} {N : String → Prop} (h : IsRegular S N e) :
    ∀ d, .enterExpr d ∈ e.walk → d.HasOperands := by
  induction h with
  | number v => exact forall_node_number.2 trivial
  | symbol _ => exact forall_node_symbol.2 trivial
  | add hlen _ ih => exact forall_node_add.2 ⟨hlen, ih⟩
  | mul hlen _ hflat _ hsum ih =>
    refine forall_node_mul.2 ⟨⟨hlen, hflat, ?_⟩, ih⟩
    rintro c ts rfl
    exact hsum ts rfl
  | pow _ _ _ ihb ihx => exact forall_node_pow.2 ⟨trivial, ihb, ihx⟩
  | call _ _ ih => exact forall_node_call.2 ⟨trivial, ih⟩

/-- In every expression that is built, sums and products have operands to combine, no product is a
factor of a product, and no product is a coefficient before a single sum. If the powers that are
taken dissolve, then all sums and products in it have the shape of a canonical form. -/
theorem IsBuilt.guarantees [Scalar.LawfulOne α] (h : IsBuilt e) :
    (∀ d, .enterExpr d ∈ e.walk → d.HasOperands) ∧
    (IsBuiltWith Dissolves e → ∀ d, .enterExpr d ∈ e.walk → d.HasShape) :=
  ⟨h.isRegular.hasOperands, fun h => h.isCanonical.hasShape⟩

theorem IsBuilt.guarantees_exponents :
    let x : Expr Rat := .symbol ⟨0, "x"⟩
    let y : Expr Rat := .symbol ⟨1, "y"⟩
    let a : Expr Rat := .symbol ⟨2, "a"⟩
    let e := (.number 2 * x) ^ (.number 3 : Expr Rat) * y ^ a * y ^ (.number 1 - a) + x
    e = .add [.mul [.number 8, .pow x (.number 3), y], x] ∧
    IsBuiltWith Dissolves e ∧
    (∀ d, .enterExpr d ∈ e.walk → d.HasOperands) ∧ ∀ d, .enterExpr d ∈ e.walk → d.HasShape := by
  intro x y a e
  have hx : IsBuiltWith Dissolves x := .symbol _
  have hy : IsBuiltWith Dissolves y := .symbol _
  have ha : IsBuiltWith Dissolves a := .symbol _
  have hbase : IsBase y := ⟨by simp [y], by simp [y]⟩
  have hproduct : .number 2 * x = .mul [.number 2, x] := by cbv
  have hcube : Dissolves (.number 2 * x) (.number 3) := by
    refine .inr ⟨3, rfl, by decide, ?_⟩
    simp [hproduct, factors, x]
  have he : IsBuiltWith Dissolves e :=
    ((((IsBuiltWith.number 2).times hx).power (.number 3) hcube).times
      (hy.power ha (.inl hbase))).times (hy.power ((IsBuiltWith.number 1).minus ha) (.inl hbase))
      |>.plus hx
  obtain ⟨hoperands, hshape⟩ := IsBuilt.guarantees (he.mono fun _ _ _ => trivial)
  refine ⟨?_, he, hoperands, hshape he⟩
  unfold e x y a
  cbv

/-- A power of a product that turns into the product again is not combined with equal bases beside
it, and its coefficient stays where it is. -/
theorem exists_isBuilt_not_hasShape :
    let x : Expr Rat := .symbol ⟨0, "x"⟩
    let y : Expr Rat := .symbol ⟨1, "y"⟩
    let root (e : Expr Rat) : Expr Rat := e ^ (.number (1 / 2) : Expr Rat)
    let d := x * root (x * y) * root (x * y)
    let e := y * root (.number 2 * x) * root (.number 2 * x)
    IsBuilt d ∧ d = .mul [x, x, y] ∧ ¬ d.HasShape ∧
    IsBuilt e ∧ e = .mul [y, .number 2, x] ∧ ¬ e.HasShape := by
  intro x y root d e
  have hx : IsBuilt x := .symbol _
  have hy : IsBuilt y := .symbol _
  have hroot {e : Expr Rat} (he : IsBuilt e) : IsBuilt (root e) := he.power (.number _) trivial
  have hd : d = .mul [x, x, y] := by
    unfold d root x y
    cbv
  have he : e = .mul [y, .number 2, x] := by
    unfold e root x y
    cbv
  refine ⟨(hx.times (hroot (hx.times hy))).times (hroot (hx.times hy)), hd, ?_,
    (hy.times (hroot ((IsBuiltWith.number 2).times hx))).times
      (hroot ((IsBuiltWith.number 2).times hx)), he, ?_⟩
  · rw [hd]
    intro h
    have hdistinct : [x, x, y].Pairwise fun f g => (f.base == g.base) = false := h.distinct
    have hsame : true = false := (List.pairwise_cons.1 hdistinct).1 x List.mem_cons_self
    cases hsame
  · rw [he]
    rintro ⟨-, -, hcoefficient, -, -⟩
    simp [others, x, y, number?] at hcoefficient

end Kirchhoff.Expr
