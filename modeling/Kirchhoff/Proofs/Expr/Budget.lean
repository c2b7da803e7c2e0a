import Mathlib.Algebra.GroupWithZero.Nat
import Mathlib.Algebra.Order.BigOperators.Group.List
import Mathlib.Algebra.Order.Group.Nat
import Kirchhoff.Proofs.Expr.Round
import Kirchhoff.Proofs.Traversal

/-!
# The budget is enough

The operations that build canonical forms open sums and descend into bases, within a budget. What
there is to open and to descend into is the `weight` of an expression. The weight of a result is no
greater than that of its operands, up to the sum that is built around them (`Bounded`), and each
call inside another has less to do (`Sufficient`). Twice the weight therefore is enough, and a node
of an expression weighs at most two: the operations never run out of their `budget`
(`sum?_budget`, `product?_budget`, `power?_budget`).

Nothing is assumed of the arithmetic of numbers here.
-/

namespace Kirchhoff.Expr

variable {α : Type}

/-! ### Weights -/

mutual

/-- What there is to open in an expression. -/
def weight : Expr α → ℕ
  | .number _ => 0
  | .symbol _ => 2
  | .add ts => weightAll ts + 2
  | .mul fs => weightAll fs
  | .pow b x => baseWeight b + weight x
  | .call _ args => weightAll args + 2

/-- The sum of the weights of some expressions. -/
def weightAll : List (Expr α) → ℕ
  | [] => 0
  | e :: es => weight e + weightAll es

/-- What there is to open in a power of an expression. -/
def baseWeight : Expr α → ℕ
  | .number _ => 2
  | .symbol _ => 2
  | .add ts => weightAll ts + 2
  | .mul fs => baseWeightAll fs + 2
  | .pow b x => baseWeight b + weight x + 1
  | .call _ args => weightAll args + 2

/-- The sum of the weights of powers of some expressions. -/
def baseWeightAll : List (Expr α) → ℕ
  | [] => 0
  | e :: es => baseWeight e + baseWeightAll es

end

@[simp] theorem weightAll_append (ds es : List (Expr α)) :
    weightAll (ds ++ es) = weightAll ds + weightAll es := by
  induction ds with
  | nil => simp [weightAll]
  | cons d ds ih => simp [weightAll, ih, Nat.add_assoc]

theorem weightAll_eq_sum (es : List (Expr α)) : weightAll es = (es.map weight).sum := by
  induction es with
  | nil => rfl
  | cons e es ih => simp [weightAll, ih]

theorem baseWeightAll_eq_sum (es : List (Expr α)) : baseWeightAll es = (es.map baseWeight).sum := by
  induction es with
  | nil => rfl
  | cons e es ih => simp [baseWeightAll, ih]

/-- A member weighs no more than the list. -/
theorem weight_le_weightAll {e : Expr α} {es : List (Expr α)} (h : e ∈ es) :
    e.weight ≤ weightAll es := by
  rw [weightAll_eq_sum]
  exact List.le_sum_of_mem (List.mem_map_of_mem h)

theorem baseWeight_le_baseWeightAll {e : Expr α} {es : List (Expr α)} (h : e ∈ es) :
    e.baseWeight ≤ baseWeightAll es := by
  rw [baseWeightAll_eq_sum]
  exact List.le_sum_of_mem (List.mem_map_of_mem h)

/-- Results that weigh no more than what they are made of. -/
theorem weightAll_le_of_forall₂ {β : Type} {R : β → Expr α → Prop} {size : β → ℕ} {bs : List β}
    {es : List (Expr α)} (h : List.Forall₂ R bs es) (hR : ∀ b e, R b e → e.weight ≤ size b) :
    weightAll es ≤ (bs.map size).sum := by
  induction h with
  | nil => simp [weightAll]
  | cons he _ ih =>
    have := hR _ _ he
    simp only [weightAll, List.map_cons, List.sum_cons]
    omega

/-- Every power is something to open. -/
theorem two_le_baseWeight (e : Expr α) : 2 ≤ e.baseWeight := by
  cases e with
  | pow b x =>
    have := two_le_baseWeight b
    simp only [baseWeight]
    omega
  | _ => simp [baseWeight]

mutual

/-- Raising an expression makes it no lighter. -/
theorem weight_le_baseWeight : ∀ e : Expr α, e.weight ≤ e.baseWeight
  | .number _ => by simp [weight]
  | .symbol _ => by simp [weight, baseWeight]
  | .add ts => by simp [weight, baseWeight]
  | .mul fs => by
    have := weightAll_le_baseWeightAll fs
    simp only [weight, baseWeight]
    omega
  | .pow b x => by
    simp only [weight, baseWeight]
    omega
  | .call _ _ => by simp [weight, baseWeight]

theorem weightAll_le_baseWeightAll : ∀ es : List (Expr α), weightAll es ≤ baseWeightAll es
  | [] => by simp [weightAll]
  | e :: es => by
    have := weight_le_baseWeight e
    have := weightAll_le_baseWeightAll es
    simp only [weightAll, baseWeightAll]
    omega

end

mutual

/-- A node weighs at most two. -/
theorem baseWeight_le_size : ∀ e : Expr α, e.baseWeight ≤ 2 * e.size
  | .number _ => by simp [baseWeight, size]
  | .symbol _ => by simp [baseWeight, size]
  | .add ts => by
    have := weightAll_le_baseWeightAll ts
    have := baseWeightAll_le_sizeAll ts
    simp only [baseWeight, size]
    omega
  | .mul fs => by
    have := baseWeightAll_le_sizeAll fs
    simp only [baseWeight, size]
    omega
  | .pow b x => by
    have := baseWeight_le_size b
    have := baseWeight_le_size x
    have := weight_le_baseWeight x
    simp only [baseWeight, size]
    omega
  | .call _ args => by
    have := weightAll_le_baseWeightAll args
    have := baseWeightAll_le_sizeAll args
    simp only [baseWeight, size]
    omega

theorem baseWeightAll_le_sizeAll : ∀ es : List (Expr α), baseWeightAll es ≤ 2 * sizeAll es
  | [] => by simp [baseWeightAll]
  | e :: es => by
    have := baseWeight_le_size e
    have := baseWeightAll_le_sizeAll es
    simp only [baseWeightAll, sizeAll]
    omega

end

/-- The budget is more than twice the weight. -/
theorem weightAll_le_budget (es : List (Expr α)) : 2 * weightAll es + 3 ≤ budget (sizeAll es) := by
  have hsize := (weightAll_le_baseWeightAll es).trans (baseWeightAll_le_sizeAll es)
  have hbudget : 8 * (sizeAll es + 2) ≤ budget (sizeAll es) :=
    Nat.mul_le_mul_left 8 (Nat.le_mul_of_pos_right _ (Nat.succ_pos _))
  omega

/-! ### Collecting -/

/-- The weight of what is collected of a sum. -/
def Terms.weight (s : Terms α) : ℕ := (s.parts.map fun p => p.1.weight).sum

/-- The weight of what is collected of a product. -/
def Factors.weight (fs : Factors α) : ℕ := (fs.powers.map fun p => p.1.baseWeight + p.2.weight).sum

/-- A fold adds the weights of what it collects. -/
theorem Terms.weight_foldlM {collect : Terms α → Expr α → Option (Terms α)} {ts : List (Expr α)}
    {s s' : Terms α}
    (hcollect : ∀ t ∈ ts, ∀ s s', collect s t = some s' → s'.weight ≤ s.weight + t.weight)
    (h : ts.foldlM collect s = some s') : s'.weight ≤ s.weight + weightAll ts := by
  induction ts generalizing s with
  | nil =>
    obtain rfl : s = s' := by simpa using h
    exact Nat.le_add_right _ _
  | cons t ts ih =>
    simp only [List.foldlM_cons, bind, Option.bind_eq_some_iff] at h
    obtain ⟨u, hu, h⟩ := h
    obtain ⟨ht, hts⟩ := List.forall_mem_cons.1 hcollect
    have := ht s u hu
    have := ih hts h
    simp only [weightAll]
    omega

variable [Scalar α]

/-- A sum weighs no more than its terms and itself. -/
def IsLight (sumExponents : List (Expr α) → Expr α) : Prop :=
  ∀ ts, (sumExponents ts).weight ≤ weightAll ts + 2

/-- A coefficient has no weight. -/
theorem weight_splitCoefficient (t : Expr α) : t.splitCoefficient.2.weight = t.weight := by
  unfold splitCoefficient
  split <;> simp [weight, weightAll]

/-- An entry with an equal key takes a value in, or one is added. -/
theorem sum_insertWith_le {β : Type} (combine : β → β → β) (size : Expr α × β → ℕ) (key : Expr α)
    (value : β)
    (hcombine : ∀ k v, (k == key) = true →
      size (k, combine v value) ≤ size (k, v) + size (key, value))
    (entries : List (Expr α × β)) :
    ((insertWith combine key value entries).map size).sum ≤
      (entries.map size).sum + size (key, value) := by
  induction entries with
  | nil => simp [insertWith]
  | cons p entries ih =>
    obtain ⟨k, v⟩ := p
    simp only [insertWith]
    split
    · have := hcombine k v ‹_›
      simp only [List.map_cons, List.sum_cons]
      omega
    · simp only [List.map_cons, List.sum_cons]
      omega

/-- A part is merged with an equal one, or adds its weight. -/
theorem Terms.weight_insert (s : Terms α) (part : Expr α) (c : α) :
    Terms.weight { s with parts := insertWith (· + ·) part c s.parts } ≤
      s.weight + part.weight :=
  sum_insertWith_le _ (fun p => p.1.weight) _ _ (fun _ _ _ => Nat.le_add_right _ _) s.parts

section

variable {sumExponents : List (Expr α) → Expr α}

/-- The exponents of equal bases are added, which takes the weight of a sum; a base makes up for
it. -/
theorem Factors.weight_insert (hS : IsLight sumExponents) (fs : Factors α) (b x : Expr α) :
    (fs.insert sumExponents b x).weight ≤ fs.weight + b.baseWeight + x.weight := by
  have hinsert := sum_insertWith_le (fun e f => sumExponents [e, f])
    (fun p => p.1.baseWeight + p.2.weight) b x (fun k v _ => ?_) fs.powers
  · rw [Nat.add_assoc]
    exact hinsert
  · have hsum := hS [v, x]
    have hbase := two_le_baseWeight b
    simp only [weightAll] at hsum ⊢
    omega

mutual

theorem Factors.weight_collect (hS : IsLight sumExponents) :
    ∀ (f : Expr α) (fs : Factors α),
      (Factors.collect sumExponents fs f).weight ≤ fs.weight + f.weight
  | .mul gs, fs => Factors.weight_collectAll hS gs fs
  | .number _, fs => Nat.le_add_right _ _
  | .pow b x, fs => by
    have := Factors.weight_insert hS fs b x
    simp only [Factors.collect, Expr.weight]
    omega
  | .symbol s, fs => Factors.weight_insert hS fs (.symbol s) (.number 1)
  | .add ts, fs => Factors.weight_insert hS fs (.add ts) (.number 1)
  | .call f args, fs => Factors.weight_insert hS fs (.call f args) (.number 1)

/-- What is collected of factors weighs no more than they do. -/
theorem Factors.weight_collectAll (hS : IsLight sumExponents) :
    ∀ (gs : List (Expr α)) (fs : Factors α),
      (Factors.collectAll sumExponents fs gs).weight ≤ fs.weight + weightAll gs
  | [], fs => Nat.le_refl _
  | g :: gs, fs => by
    have := Factors.weight_collectAll hS gs (Factors.collect sumExponents fs g)
    have := Factors.weight_collect hS g fs
    simp only [Factors.collectAll, weightAll]
    omega

end

theorem Factors.weight_collectAll_empty (hS : IsLight sumExponents) (gs : List (Expr α)) :
    (Factors.collectAll sumExponents Factors.empty gs).weight ≤ weightAll gs := by
  simpa [Factors.weight, Factors.empty] using Factors.weight_collectAll hS gs Factors.empty

end

/-! ### Writing down what is collected -/

/-- A sum weighs at most two more than its terms. -/
theorem weight_ofTerms (ts : List (Expr α)) : (ofTerms ts).weight ≤ weightAll ts + 2 := by
  unfold ofTerms
  split <;> simp [weight, weightAll]

theorem weight_ofFactors (c : α) (fs : List (Expr α)) : (ofFactors c fs).weight ≤ weightAll fs := by
  unfold ofFactors
  split
  · simp [weight]
  · split <;> simp [weight, weightAll]
  · split <;> simp [weight, weightAll]

theorem weight_appendFactor (acc : α × List (Expr α)) (f : Expr α) :
    weightAll (appendFactor acc f).2 ≤ weightAll acc.2 + f.weight := by
  unfold appendFactor
  split <;> simp [weight, weightAll]

/-- Splicing products into a product adds no weight. -/
theorem weight_foldl_appendFactor (acc : α × List (Expr α)) (fs : List (Expr α)) :
    weightAll (fs.foldl appendFactor acc).2 ≤ weightAll acc.2 + weightAll fs := by
  induction fs generalizing acc with
  | nil => simp [weightAll]
  | cons f fs ih =>
    have := ih (appendFactor acc f)
    have := weight_appendFactor acc f
    simp only [List.foldl_cons, weightAll]
    omega

/-! ### Results weigh no more than operands -/

/-- The operations within a budget have results that weigh no more than their operands. -/
structure Bounded (sumExponents : List (Expr α) → Expr α) (n : ℕ) : Prop where
  collectTerm {s s' : Terms α} {t : Expr α} :
    collectTerm? sumExponents n s t = some s' → s'.weight ≤ s.weight + t.weight
  sum {ts : List (Expr α)} {e : Expr α} :
    sum? sumExponents n ts = some e → e.weight ≤ weightAll ts + 2
  product {fs : List (Expr α)} {e : Expr α} :
    product? sumExponents n fs = some e → e.weight ≤ weightAll fs
  power {b x e : Expr α} :
    power? sumExponents n b x = some e → e.weight ≤ b.baseWeight + x.weight

section

variable {sumExponents : List (Expr α) → Expr α} {n : ℕ}

/-- A coefficient adds no weight to a term. -/
theorem Bounded.scaled (hn : Bounded sumExponents n) {c : α} {t e : Expr α}
    (h : product? sumExponents n [.number c, t] = some e) : e.weight ≤ t.weight := by
  simpa [weightAll, weight] using hn.product h

theorem Bounded.collectTerm_succ (hn : Bounded sumExponents n) {s s' : Terms α} {t : Expr α}
    (h : collectTerm? sumExponents (n + 1) s t = some s') : s'.weight ≤ s.weight + t.weight := by
  have hpart := weight_splitCoefficient t
  rcases collectTerm?_cases h with
    ⟨ts, rfl, h⟩ | ⟨v, rfl, rfl⟩ | ⟨c, ts, hsplit, h⟩ | ⟨c, part, hsplit, -, -, rfl⟩
  · have := Terms.weight_foldlM (fun _ _ _ _ h => hn.collectTerm h) h
    simp only [weight]
    omega
  · exact Nat.le_add_right _ _
  · rw [hsplit] at hpart
    have := Terms.weight_foldlM (fun t _ s s' h => ?_) h
    · simp only [weight] at hpart
      omega
    · obtain ⟨e, he, h⟩ := Option.bind_eq_some_iff.1 h
      exact Nat.le_trans (hn.collectTerm h) (Nat.add_le_add_left (hn.scaled he) _)
  · rw [hsplit] at hpart
    rw [← hpart]
    exact Terms.weight_insert s part c

theorem Bounded.sum_succ (hn : Bounded sumExponents n) {ts : List (Expr α)} {e : Expr α}
    (h : sum? sumExponents (n + 1) ts = some e) : e.weight ≤ weightAll ts + 2 := by
  obtain ⟨s, parts, hs, hparts, rfl⟩ := sum?_cases h
  have hterms : s.weight ≤ weightAll ts := by
    simpa [Terms.weight, Terms.empty] using
      Terms.weight_foldlM (fun _ _ _ _ h => hn.collectTerm h) hs
  have hscaled : weightAll parts ≤ ((s.parts.filter (·.2 != 0)).map fun p => p.1.weight).sum := by
    refine weightAll_le_of_forall₂ (forall₂_of_mapM_eq_some hparts) fun p e he => ?_
    split at he
    · exact Option.some.inj he ▸ Nat.le_refl _
    · exact hn.scaled he
  have hfilter : ((s.parts.filter (·.2 != 0)).map fun p => p.1.weight).sum ≤ s.weight :=
    (List.filter_sublist.map _).sum_le_sum (fun _ _ => Nat.zero_le _)
  have hlist : weightAll (if s.constant != 0 then parts ++ [.number s.constant] else parts) =
      weightAll parts := by
    split <;> simp [weightAll, weight]
  have := weight_ofTerms (if s.constant != 0 then parts ++ [.number s.constant] else parts)
  omega

/-- A product weighs no more than its factors, if powers of the budget below do not. -/
theorem Bounded.product_succ (hS : IsLight sumExponents) (hn : Bounded sumExponents n)
    {fs : List (Expr α)} {e : Expr α} (h : product? sumExponents (n + 1) fs = some e) :
    e.weight ≤ weightAll fs := by
  have hcollect := Factors.weight_collectAll_empty hS fs
  have hcases := product?_cases h
  generalize Factors.collectAll sumExponents Factors.empty fs = p at hcollect hcases
  rcases hcases with ⟨-, rfl⟩ | ⟨raised, c, gs, hraised, hout, h⟩
  · simp [weight]
  · have hweight : weightAll raised ≤ p.weight :=
      weightAll_le_of_forall₂ (forall₂_of_mapM_eq_some hraised) fun _ _ he => hn.power he
    have hgs := weight_foldl_appendFactor (p.coefficient, []) raised
    rw [hout] at hgs
    simp only [weightAll, Nat.zero_add] at hgs
    rcases h with ⟨-, rfl⟩ | ⟨ts, rfl, -, rfl⟩ | ⟨ts, us, rfl, hus, h⟩ |
      ⟨-, -, rfl⟩
    · simp [weight]
    · simp only [weightAll] at hgs
      omega
    · have hdistributed : weightAll us ≤ weightAll ts := by
        rw [weightAll_eq_sum ts]
        exact weightAll_le_of_forall₂ (forall₂_of_mapM_eq_some hus) fun _ _ he => hn.scaled he
      have hsum := hn.sum h
      simp only [weightAll, weight] at hgs
      omega
    · have := weight_ofFactors c gs
      omega

theorem Bounded.power_succ (hn : Bounded sumExponents n) {b x e : Expr α}
    (h : power? sumExponents (n + 1) b x = some e) : e.weight ≤ b.baseWeight + x.weight := by
  rcases power?_cases h with ⟨u, rfl, -, rfl⟩ | ⟨u, rfl, -, rfl⟩ | ⟨u, v, w, rfl, rfl, -, rfl⟩ |
    ⟨c, u, w, rfl, rfl, -, h⟩ | ⟨fs, w, gs, rfl, rfl, -, hgs, h⟩ | ⟨u, rfl, -, rfl⟩ | ⟨-, rfl⟩
  · simp [weight]
  · simpa [weight] using weight_le_baseWeight e
  · simp [weight]
  · have := hn.power h
    simp only [weight, baseWeight] at this ⊢
    omega
  · have hraised : weightAll gs ≤ baseWeightAll fs := by
      rw [baseWeightAll_eq_sum]
      exact weightAll_le_of_forall₂ (forall₂_of_mapM_eq_some hgs)
        fun f e he => by simpa [weight] using hn.power he
    have := hn.product h
    simp only [weight, baseWeight]
    omega
  · simp [weight]
  · exact Nat.le_refl _

/-- No operation adds weight, whatever its budget, by induction on it. -/
theorem bounded (hS : IsLight sumExponents) (n : ℕ) : Bounded sumExponents n := by
  induction n with
  | zero => constructor <;> simp [collectTerm?, sum?, product?, power?]
  | succ n hn => exact ⟨hn.collectTerm_succ, hn.sum_succ, hn.product_succ hS, hn.power_succ⟩

end

/-! ### A budget of twice the weight -/

/-- The operations have a result within a budget of twice the weight of their operands. -/
structure Sufficient (sumExponents : List (Expr α) → Expr α) (n : ℕ) : Prop where
  collectTerm {s : Terms α} {t : Expr α} :
    2 * t.weight + 2 ≤ n → (collectTerm? sumExponents n s t).isSome
  sum {ts : List (Expr α)} : 2 * weightAll ts + 3 ≤ n → (sum? sumExponents n ts).isSome
  product {fs : List (Expr α)} : 2 * weightAll fs + 2 ≤ n → (product? sumExponents n fs).isSome
  power {b x : Expr α} : 2 * b.baseWeight + 1 ≤ n → (power? sumExponents n b x).isSome

section

variable {sumExponents : List (Expr α) → Expr α} {n : ℕ}

theorem Sufficient.scaled (hn : Sufficient sumExponents n) {c : α} {t : Expr α}
    (h : 2 * t.weight + 2 ≤ n) : (product? sumExponents n [.number c, t]).isSome :=
  hn.product (by simpa [weightAll, weight] using h)

theorem Sufficient.collectTerm_succ (hS : IsLight sumExponents) (hn : Sufficient sumExponents n)
    {s : Terms α} {t : Expr α} (h : 2 * t.weight + 2 ≤ n + 1) :
    (collectTerm? sumExponents (n + 1) s t).isSome := by
  have hpart := weight_splitCoefficient t
  unfold collectTerm?
  split
  · contradiction
  · rename_i ts hm
    obtain rfl := Nat.succ.inj hm
    refine isSome_foldlM fun t ht s => hn.collectTerm ?_
    have := weight_le_weightAll ht
    simp only [weight] at h
    omega
  · rfl
  · rename_i hm _ _
    obtain rfl := Nat.succ.inj hm
    split
    rename_i c part hsplit
    rw [hsplit] at hpart
    split
    · rename_i ts
      refine isSome_foldlM fun t ht s => ?_
      have hle := weight_le_weightAll ht
      simp only [weight] at hpart
      obtain ⟨e, he⟩ := Option.isSome_iff_exists.1 (hn.scaled (c := c) (t := t) (by omega))
      have hbound := (bounded hS _).scaled he
      simpa only [he, bind, Option.bind_some] using hn.collectTerm (by omega)
    · rfl

theorem Sufficient.sum_succ (hS : IsLight sumExponents) (hn : Sufficient sumExponents n)
    {ts : List (Expr α)} (h : 2 * weightAll ts + 3 ≤ n + 1) :
    (sum? sumExponents (n + 1) ts).isSome := by
  have hcollect : (ts.foldlM (collectTerm? sumExponents n) Terms.empty).isSome := by
    refine isSome_foldlM fun t ht s => hn.collectTerm ?_
    have := weight_le_weightAll ht
    omega
  obtain ⟨s, hs⟩ := Option.isSome_iff_exists.1 hcollect
  have hterms : s.weight ≤ weightAll ts := by
    simpa [Terms.weight, Terms.empty] using
      Terms.weight_foldlM (fun _ _ _ _ h => (bounded hS n).collectTerm h) hs
  have hparts : ((s.parts.filter (·.2 != 0)).mapM fun p =>
      if p.2 == 1 then some p.1 else product? sumExponents n [.number p.2, p.1]).isSome := by
    refine isSome_mapM fun p hp => ?_
    have hle : p.1.weight ≤ s.weight :=
      List.le_sum_of_mem (List.mem_map_of_mem (List.mem_filter.1 hp).1)
    split
    · rfl
    · exact hn.scaled (by omega)
  obtain ⟨parts, hparts⟩ := Option.isSome_iff_exists.1 hparts
  simp only [sum?, hs, hparts, bind, Option.bind_some, pure, Option.isSome_some]

/-- A product has a result, as every power it opens weighs less. -/
theorem Sufficient.product_succ (hS : IsLight sumExponents) (hn : Sufficient sumExponents n)
    {fs : List (Expr α)} (h : 2 * weightAll fs + 2 ≤ n + 1) :
    (product? sumExponents (n + 1) fs).isSome := by
  have hcollect := Factors.weight_collectAll_empty hS fs
  simp only [product?]
  generalize Factors.collectAll sumExponents Factors.empty fs = p at hcollect
  split
  · rfl
  · have hraised : (p.powers.mapM fun q => power? sumExponents n q.1 q.2).isSome := by
      refine isSome_mapM fun q hq => hn.power ?_
      have hle : q.1.baseWeight + q.2.weight ≤ p.weight :=
        List.le_sum_of_mem (List.mem_map_of_mem hq)
      omega
    obtain ⟨raised, hraised⟩ := Option.isSome_iff_exists.1 hraised
    have hweight : weightAll raised ≤ p.weight :=
      weightAll_le_of_forall₂ (forall₂_of_mapM_eq_some hraised)
        fun _ _ he => (bounded hS n).power he
    have hgs := weight_foldl_appendFactor (p.coefficient, []) raised
    simp only [hraised, bind, Option.bind_some]
    generalize raised.foldl appendFactor _ = q at hgs
    split
    · rfl
    · split
      · rename_i c ts _
        simp only [weightAll, weight] at hgs
        split
        · rfl
        · have hus : (ts.mapM fun t => product? sumExponents n [.number c, t]).isSome := by
            refine isSome_mapM fun t ht => hn.scaled ?_
            have := weight_le_weightAll ht
            omega
          obtain ⟨us, hus⟩ := Option.isSome_iff_exists.1 hus
          have hdistributed : weightAll us ≤ weightAll ts := by
            rw [weightAll_eq_sum ts]
            exact weightAll_le_of_forall₂ (forall₂_of_mapM_eq_some hus)
              fun _ _ he => (bounded hS n).scaled he
          simpa only [hus, Option.bind_some] using hn.sum (by omega)
      · rfl

theorem Sufficient.power_succ (hS : IsLight sumExponents) (hn : Sufficient sumExponents n)
    {b x : Expr α} (h : 2 * b.baseWeight + 1 ≤ n + 1) :
    (power? sumExponents (n + 1) b x).isSome := by
  unfold power?
  split
  · contradiction
  · rename_i v hm
    obtain rfl := Nat.succ.inj hm
    split
    · rfl
    · split
      · rfl
      · split
        · rfl
        · simp only [baseWeight] at h
          split
          · exact hn.power (by omega)
          · rfl
        · rename_i fs
          simp only [baseWeight] at h
          split
          · have hgs : (fs.mapM fun f => power? sumExponents n f (.number v)).isSome := by
              refine isSome_mapM fun f hf => hn.power ?_
              have := baseWeight_le_baseWeightAll hf
              omega
            obtain ⟨gs, hgs⟩ := Option.isSome_iff_exists.1 hgs
            have hraised : weightAll gs ≤ baseWeightAll fs := by
              rw [baseWeightAll_eq_sum]
              exact weightAll_le_of_forall₂ (forall₂_of_mapM_eq_some hgs)
                fun f e he => by simpa [weight] using (bounded hS _).power he
            simpa only [hgs, bind, Option.bind_some] using hn.product (by omega)
          · rfl
        · rfl
  · rfl
  · rfl

/-- Twice the weight is budget enough, by induction on the budget. -/
theorem sufficient (hS : IsLight sumExponents) (n : ℕ) : Sufficient sumExponents n := by
  induction n with
  | zero => constructor <;> intros <;> omega
  | succ n hn =>
    exact ⟨hn.collectTerm_succ hS, hn.sum_succ hS, hn.product_succ hS, hn.power_succ hS⟩

end

/-! ### All floors -/

theorem sumOn_isLight (floors : ℕ) : IsLight (sumOn floors : List (Expr α) → Expr α) := by
  induction floors with
  | zero => exact fun ts => Nat.le_refl _
  | succ floors ih =>
    intro ts
    rw [sumOn]
    cases h : sum? (sumOn floors) (budget (sizeAll ts)) ts with
    | none => exact Nat.le_refl _
    | some e => exact (bounded ih _).sum h

/-- The canonical sum is what a round within the budget gives. -/
theorem sum?_budget (floors : ℕ) (ts : List (Expr α)) :
    sum? (sumOn floors) (budget (sizeAll ts)) ts = some (sumOn (floors + 1) ts) := by
  obtain ⟨e, he⟩ := Option.isSome_iff_exists.1
    ((sufficient (sumOn_isLight floors) _).sum (weightAll_le_budget ts))
  rw [sumOn, he, Option.getD_some]

/-- The canonical product is what a round within the budget gives. -/
theorem product?_budget (fs : List (Expr α)) :
    product? (sumOn (sizeAll fs)) (budget (sizeAll fs)) fs = some (product fs) := by
  obtain ⟨e, he⟩ := Option.isSome_iff_exists.1
    ((sufficient (sumOn_isLight (sizeAll fs)) _).product
      ((Nat.le_succ _).trans (weightAll_le_budget fs)))
  rw [product, he, Option.getD_some]

/-- The canonical power is what a round within the budget gives. -/
theorem power?_budget (b x : Expr α) :
    power? (sumOn (size b + size x)) (budget (size b + size x)) b x = some (power b x) := by
  have hsize := baseWeight_le_size b
  have hbudget : 8 * (size b + size x + 2) ≤ budget (size b + size x) :=
    Nat.mul_le_mul_left 8 (Nat.le_mul_of_pos_right _ (Nat.succ_pos _))
  obtain ⟨e, he⟩ := Option.isSome_iff_exists.1
    ((sufficient (sumOn_isLight (size b + size x)) _).power (b := b) (x := x)
      (n := budget (size b + size x)) (by omega))
  rw [power, he, Option.getD_some]

end Kirchhoff.Expr
