import Kirchhoff.Proofs.Expr.Value
import Kirchhoff.Proofs.Expr.Round
import Kirchhoff.Proofs.Traversal

/-!
# The canonical form has the value of what it is built from

A sum, product or power that is built in canonical form has the value of the plain sum,
product or power of its operands wherever that has one. It may have a value where the plain
one has none: `x * x^-1` becomes one, also where `x` is zero.

What has been collected of a sum or product is written out as an expression (`Terms.expr`,
`Factors.expr`), and each step of collecting is shown to add or multiply the value of one
operand. `Sound` says this of all operations within a budget; `sound_succ` is the step from
one budget to the next, and the floors of exponents follow by induction (`sumOn_refines`).
-/

namespace Kirchhoff.Expr

variable {ρ : Environment Rat}

/-! ### Small sums and products -/

theorem eval_scaled_iff {c v : Rat} {e : Expr Rat} :
    (Expr.mul [.number c, e]).eval ρ = some v ↔ ∃ x, e.eval ρ = some x ∧ c * x = v := by
  simp only [eval_mul_cons_iff, eval_number, eval_mul_nil, Option.some.injEq]
  constructor
  · rintro ⟨_, _, rfl, ⟨x, _, hx, rfl, rfl⟩, rfl⟩
    exact ⟨x, hx, by rw [mul_one]⟩
  · rintro ⟨x, hx, rfl⟩
    exact ⟨c, x, rfl, ⟨x, 1, hx, rfl, mul_one x⟩, rfl⟩

theorem eval_add_singleton {t : Expr Rat} {v : Rat} :
    (Expr.add [t]).eval ρ = some v ↔ t.eval ρ = some v := by
  simp [eval_add_cons_iff]

theorem eval_mul_singleton {f : Expr Rat} {v : Rat} :
    (Expr.mul [f]).eval ρ = some v ↔ f.eval ρ = some v := by
  simp [eval_mul_cons_iff]

/-- A number in front multiplies the rest of a product. -/
theorem eval_mul_number_iff {c v : Rat} {fs : List (Expr Rat)} :
    (Expr.mul (.number c :: fs)).eval ρ = some v ↔
      ∃ x, (Expr.mul fs).eval ρ = some x ∧ c * x = v := by
  simp [eval_mul_cons_iff]

/-- A factor is distributed over the terms of a sum. -/
theorem eval_distribute {c v : Rat} {ts : List (Expr Rat)}
    (h : (Expr.mul [.number c, .add ts]).eval ρ = some v) :
    (Expr.add (ts.map fun t => .mul [.number c, t])).eval ρ = some v := by
  obtain ⟨x, hx, rfl⟩ := eval_scaled_iff.1 h
  clear h
  induction ts generalizing x with
  | nil =>
    simp only [eval_add_nil, Option.some.injEq] at hx
    simp [← hx]
  | cons t ts ih =>
    obtain ⟨y, z, hy, hz, rfl⟩ := eval_add_cons_iff.1 hx
    exact eval_add_cons_iff.2 ⟨c * y, c * z, eval_scaled_iff.2 ⟨y, hy, rfl⟩, ih z hz, by ring⟩

/-! ### Powers -/

theorem HasPower.add {x : Rat} {m n : ℤ} (hm : HasPower x m) (hn : HasPower x n) :
    HasPower x (m + n) := by
  rcases hm with hx | hm
  · exact .inl hx
  · rcases hn with hx | hn
    · exact .inl hx
    · exact .inr (add_nonneg hm hn)

theorem zpow_add_of_hasPower {x : Rat} {m n : ℤ} (hm : HasPower x m) (hn : HasPower x n) :
    x ^ (m + n) = x ^ m * x ^ n := by
  refine zpow_add' ?_
  by_cases hx : x = 0
  · have hm : 0 ≤ m := hm.resolve_left (not_not.2 hx)
    have hn : 0 ≤ n := hn.resolve_left (not_not.2 hx)
    by_cases h : m + n = 0
    · exact .inr (.inr ⟨by omega, by omega⟩)
    · exact .inr (.inl h)
  · exact .inl hx

theorem HasPower.mul {x : Rat} {m n : ℤ} (hm : HasPower x m) (hn : HasPower (x ^ m) n) :
    HasPower x (m * n) := by
  by_cases hx : x = 0
  · have hm : 0 ≤ m := hm.resolve_left (not_not.2 hx)
    rcases hm.eq_or_lt with rfl | hm'
    · exact .inr (by simp)
    · have hz : x ^ m = 0 := by rw [hx]; exact zero_zpow m hm'.ne'
      have hn : 0 ≤ n := hn.resolve_left (not_not.2 hz)
      exact .inr (Int.mul_nonneg hm hn)
  · exact .inl hx

theorem eval_pow_number_iff {b : Expr Rat} {e v : Rat} :
    (Expr.pow b (.number e)).eval ρ = some v ↔
      ∃ (x : Rat) (n : ℤ), b.eval ρ = some x ∧ e = n ∧ HasPower x n ∧ x ^ n = v := by
  simp only [eval_pow_iff, eval_number, Option.some.injEq]

/-- An expression is its own first power. -/
theorem eval_pow_one {b : Expr Rat} {v : Rat} (h : b.eval ρ = some v) :
    (Expr.pow b (.number 1)).eval ρ = some v :=
  eval_pow_number_iff.2 ⟨v, 1, h, by norm_num, .inr (by norm_num), zpow_one v⟩

/-- Powers of equal bases multiply by adding their exponents. -/
theorem eval_pow_add {b c e f s : Expr Rat} {x y : Rat} (hbc : (b == c) = true)
    (hs : Refines ρ (.add [e, f]) s) (hx : (Expr.pow b e).eval ρ = some x)
    (hy : (Expr.pow c f).eval ρ = some y) : (Expr.pow b s).eval ρ = some (x * y) := by
  obtain ⟨z, m, hb, hm, hzm, rfl⟩ := eval_pow_iff.1 hx
  obtain ⟨z', n, hc, hn, hzn, rfl⟩ := eval_pow_iff.1 hy
  obtain rfl : z = z' := by
    rw [eval_eq_of_beq ρ b c hbc, hc] at hb
    exact (Option.some.inj hb).symm
  have hsum : (Expr.add [e, f]).eval ρ = some ((m + n : ℤ) : Rat) :=
    eval_add_cons_iff.2 ⟨m, n, hm, eval_add_singleton.2 hn, by push_cast; ring⟩
  exact eval_pow_iff.2 ⟨z, m + n, hb, hs _ hsum, HasPower.add hzm hzn, zpow_add_of_hasPower hzm hzn⟩

/-- A power of a power multiplies the exponents. -/
theorem eval_pow_pow {b : Expr Rat} {e f v : Rat}
    (h : (Expr.pow (.pow b (.number f)) (.number e)).eval ρ = some v) :
    (Expr.pow b (.number (f * e))).eval ρ = some v := by
  obtain ⟨_, n, hp, rfl, hn, rfl⟩ := eval_pow_number_iff.1 h
  obtain ⟨x, m, hx, rfl, hm, rfl⟩ := eval_pow_number_iff.1 hp
  exact eval_pow_number_iff.2 ⟨x, m * n, hx, by push_cast; rfl, hm.mul hn, zpow_mul x m n⟩

/-- A power of a product is the product of the powers. -/
theorem eval_pow_mul {fs : List (Expr Rat)} {e v : Rat}
    (h : (Expr.pow (.mul fs) (.number e)).eval ρ = some v) :
    (Expr.mul (fs.map fun f => .pow f (.number e))).eval ρ = some v := by
  obtain ⟨x, n, hx, rfl, hn, rfl⟩ := eval_pow_number_iff.1 h
  clear h
  induction fs generalizing x with
  | nil =>
    simp only [eval_mul_nil, Option.some.injEq] at hx
    simp [← hx]
  | cons f fs ih =>
    obtain ⟨y, z, hy, hz, rfl⟩ := eval_mul_cons_iff.1 hx
    have hyn : HasPower y n := hn.imp_left fun h => left_ne_zero_of_mul h
    have hzn : HasPower z n := hn.imp_left fun h => right_ne_zero_of_mul h
    exact eval_mul_cons_iff.2 ⟨y ^ n, z ^ n, eval_pow_number_iff.2 ⟨y, n, hy, rfl, hyn, rfl⟩,
      ih z hz hzn, (mul_zpow y z n).symm⟩

/-! ### Collecting what is alike -/

/-- A part of a sum with its coefficient. -/
def Terms.part (p : Expr Rat × Rat) : Expr Rat := .mul [.number p.2, p.1]

/-- The sum that is being collected. -/
def Terms.expr (s : Terms Rat) : Expr Rat := .add (.number s.constant :: s.parts.map part)

/-- A base with its exponent. -/
def Factors.power (p : Expr Rat × Expr Rat) : Expr Rat := .pow p.1 p.2

/-- The product that is being collected. -/
def Factors.expr (fs : Factors Rat) : Expr Rat :=
  .mul (.number fs.coefficient :: fs.powers.map power)

/-- An entry that is inserted contributes its value once, whether its key is new or not. -/
theorem evalAll_insertWith {β : Type} (op : Rat → Rat → Rat) [Std.Commutative op]
    [Std.Associative op] (combine : β → β → β) (entry : Expr Rat × β → Expr Rat)
    (hcombine : ∀ {k key : Expr Rat} {v w : β} {x y : Rat}, (k == key) = true →
      (entry (k, v)).eval ρ = some x → (entry (key, w)).eval ρ = some y →
        (entry (k, combine v w)).eval ρ = some (op x y))
    {key : Expr Rat} {value : β} {y : Rat} (hy : (entry (key, value)).eval ρ = some y)
    {entries : List (Expr Rat × β)} {xs : List Rat}
    (hxs : evalAll ρ (entries.map entry) = some xs) :
    ∃ zs, evalAll ρ ((insertWith combine key value entries).map entry) = some zs ∧
      ∀ u, zs.foldr op u = op (xs.foldr op u) y := by
  induction entries generalizing xs with
  | nil =>
    obtain rfl : [] = xs := Option.some.inj hxs
    exact ⟨[y], evalAll_cons_iff.2 ⟨y, [], hy, rfl, rfl⟩, fun u => Std.Commutative.comm y u⟩
  | cons p entries ih =>
    obtain ⟨k, v⟩ := p
    obtain ⟨x, xs, hx, hrest, rfl⟩ := evalAll_cons_iff.1 hxs
    simp only [insertWith]
    split
    · rename_i hk
      refine ⟨op x y :: xs, evalAll_cons_iff.2 ⟨_, xs, hcombine hk hx hy, hrest, rfl⟩, fun u => ?_⟩
      simp only [List.foldr_cons]
      ac_rfl
    · obtain ⟨zs, hzs, hop⟩ := ih hrest
      refine ⟨x :: zs, evalAll_cons_iff.2 ⟨x, zs, hx, hzs, rfl⟩, fun u => ?_⟩
      simp only [List.foldr_cons, hop]
      ac_rfl

/-- Splitting off the coefficient of a term keeps its value. -/
theorem eval_splitCoefficient {t : Expr Rat} {v : Rat} (h : t.eval ρ = some v) :
    (Expr.mul [.number t.splitCoefficient.1, t.splitCoefficient.2]).eval ρ = some v := by
  unfold splitCoefficient
  split
  · exact h
  · exact eval_scaled_iff.2 (eval_mul_number_iff.1 h)
  · exact eval_scaled_iff.2 ⟨v, h, one_mul v⟩

/-- Adding a scaled part to the collected terms. -/
theorem Terms.eval_insert {s : Terms Rat} {part : Expr Rat} {c x y : Rat}
    (hx : s.expr.eval ρ = some x) (hy : (Expr.mul [.number c, part]).eval ρ = some y) :
    (Terms.expr { s with parts := insertWith (· + ·) part c s.parts }).eval ρ = some (x + y) := by
  obtain ⟨a, b, ha, hb, rfl⟩ := eval_add_cons_iff.1 hx
  obtain ⟨xs, hxs, rfl⟩ := eval_add_iff.1 hb
  obtain ⟨zs, hzs, hsum⟩ := evalAll_insertWith (· + ·) (· + ·) Terms.part
    (fun {k key v w x y} hk hx hy => by
      obtain ⟨z, hz, rfl⟩ := eval_scaled_iff.1 hx
      obtain ⟨z', hz', rfl⟩ := eval_scaled_iff.1 hy
      rw [← eval_eq_of_beq ρ k key hk, hz] at hz'
      obtain rfl := Option.some.inj hz'
      exact eval_scaled_iff.2 ⟨z, hz, by ring⟩) hy hxs
  refine eval_add_cons_iff.2 ⟨a, zs.sum, ha, eval_add_iff.2 ⟨zs, hzs, rfl⟩, ?_⟩
  rw [List.sum_eq_foldr, hsum 0, ← List.sum_eq_foldr, add_assoc]

/-- Multiplying a power onto the collected factors. -/
theorem Factors.eval_insert {sumExponents : List (Expr Rat) → Expr Rat}
    (hS : ∀ ts, Refines ρ (.add ts) (sumExponents ts)) {p : Factors Rat} {b e : Expr Rat}
    {x y : Rat} (hx : p.expr.eval ρ = some x) (hy : (Expr.pow b e).eval ρ = some y) :
    (p.insert sumExponents b e).expr.eval ρ = some (x * y) := by
  obtain ⟨a, c, ha, hc, rfl⟩ := eval_mul_cons_iff.1 hx
  obtain ⟨xs, hxs, rfl⟩ := eval_mul_iff.1 hc
  obtain ⟨zs, hzs, hprod⟩ := evalAll_insertWith (· * ·) (fun e f => sumExponents [e, f])
    Factors.power
    (fun hk hx hy => eval_pow_add hk (hS _) hx hy) hy hxs
  refine eval_mul_cons_iff.2 ⟨a, zs.prod, ha, eval_mul_iff.2 ⟨zs, hzs, rfl⟩, ?_⟩
  rw [List.prod_eq_foldr, hprod 1, ← List.prod_eq_foldr, mul_assoc]

mutual

/-- Collecting a factor multiplies its value onto the product. -/
theorem Factors.eval_collect {sumExponents : List (Expr Rat) → Expr Rat}
    (hS : ∀ ts, Refines ρ (.add ts) (sumExponents ts)) :
    ∀ (f : Expr Rat) {p : Factors Rat} {x y : Rat}, p.expr.eval ρ = some x →
      f.eval ρ = some y → (Factors.collect sumExponents p f).expr.eval ρ = some (x * y)
  | .mul gs, p, x, y, hx, hy => Factors.eval_collectAll hS gs hx hy
  | .number v, p, x, y, hx, hy => by
    obtain ⟨z, hz, rfl⟩ := eval_mul_number_iff.1 hx
    obtain rfl : v = y := Option.some.inj hy
    refine eval_mul_number_iff.2 ⟨z, hz, ?_⟩
    change p.coefficient * v * z = _
    ring
  | .pow b e, p, x, y, hx, hy => Factors.eval_insert hS hx hy
  | .symbol s, p, x, y, hx, hy => Factors.eval_insert hS hx (eval_pow_one hy)
  | .add ts, p, x, y, hx, hy => Factors.eval_insert hS hx (eval_pow_one hy)
  | .call f args, p, x, y, hx, hy => Factors.eval_insert hS hx (eval_pow_one hy)

theorem Factors.eval_collectAll {sumExponents : List (Expr Rat) → Expr Rat}
    (hS : ∀ ts, Refines ρ (.add ts) (sumExponents ts)) :
    ∀ (fs : List (Expr Rat)) {p : Factors Rat} {x y : Rat}, p.expr.eval ρ = some x →
      (Expr.mul fs).eval ρ = some y →
        (Factors.collectAll sumExponents p fs).expr.eval ρ = some (x * y)
  | [], p, x, y, hx, hy => by
    obtain rfl : 1 = y := by simpa using hy
    simpa [Factors.collectAll] using hx
  | f :: fs, p, x, y, hx, hy => by
    obtain ⟨z, w, hz, hw, rfl⟩ := eval_mul_cons_iff.1 hy
    rw [← mul_assoc]
    exact Factors.eval_collectAll hS fs (Factors.eval_collect hS f hx hz) hw

end

/-! ### Writing down what is collected -/

theorem eval_ofTerms {ts : List (Expr Rat)} {v : Rat} (h : (Expr.add ts).eval ρ = some v) :
    (ofTerms ts).eval ρ = some v := by
  unfold ofTerms
  split
  · simpa using h
  · exact eval_add_singleton.1 h
  · exact h

theorem eval_ofFactors {c v : Rat} {fs : List (Expr Rat)}
    (h : (Expr.mul (.number c :: fs)).eval ρ = some v) : (ofFactors c fs).eval ρ = some v := by
  obtain ⟨x, hx, hv⟩ := eval_mul_number_iff.1 h
  unfold ofFactors
  split
  · obtain rfl : 1 = x := by simpa using hx
    simpa using hv
  · split
    · rename_i hc
      obtain rfl : c = 1 := by simpa using hc
      rw [eval_mul_singleton.1 hx, ← hv, one_mul]
    · exact h
  · split
    · rename_i hc
      obtain rfl : c = 1 := by simpa using hc
      rw [hx, ← hv, one_mul]
    · exact h

/-- Appending a raised base multiplies its value onto the factors written so far. -/
theorem eval_appendFactor {acc : Rat × List (Expr Rat)} {f : Expr Rat} {x y : Rat}
    (hx : (Expr.mul (.number acc.1 :: acc.2)).eval ρ = some x) (hy : f.eval ρ = some y) :
    (Expr.mul (.number (appendFactor acc f).1 :: (appendFactor acc f).2)).eval ρ
      = some (x * y) := by
  obtain ⟨z, hz, rfl⟩ := eval_mul_number_iff.1 hx
  unfold appendFactor
  split
  · obtain rfl := Option.some.inj hy
    exact eval_mul_number_iff.2 ⟨z, hz, by ring⟩
  · exact eval_mul_number_iff.2 ⟨z * y, eval_mul_append_iff.2 ⟨z, y, hz, hy, rfl⟩, by ring⟩
  · exact eval_mul_number_iff.2
      ⟨z * y, eval_mul_append_iff.2 ⟨z, y, hz, eval_mul_singleton.2 hy, rfl⟩, by ring⟩

theorem eval_foldl_appendFactor {fs : List (Expr Rat)} (acc : Rat × List (Expr Rat)) {x y : Rat}
    (hx : (Expr.mul (.number acc.1 :: acc.2)).eval ρ = some x)
    (hy : (Expr.mul fs).eval ρ = some y) :
    (Expr.mul (.number (fs.foldl appendFactor acc).1 :: (fs.foldl appendFactor acc).2)).eval ρ
      = some (x * y) := by
  induction fs generalizing acc x y with
  | nil =>
    obtain rfl : 1 = y := by simpa using hy
    simpa using hx
  | cons f fs ih =>
    obtain ⟨z, w, hz, hw, rfl⟩ := eval_mul_cons_iff.1 hy
    rw [List.foldl_cons, ← mul_assoc]
    exact ih _ (eval_appendFactor hx hz) hw

/-- A folded power has the value of the power. -/
theorem eval_foldPower {b e v w : Rat} (hw : Scalar.foldPower? b e = some w)
    (h : (Expr.pow (.number b) (.number e)).eval ρ = some v) : w = v := by
  have hp : Scalar.integralPower? b e = some w := (Option.filter_eq_some_iff.1 hw).1
  have hv : Scalar.integralPower? b e = some v := h
  exact Option.some.inj (hp.symm.trans hv)

/-! ### One floor of exponents -/

/-- The operations within a budget have the values of the plain operations. -/
structure Sound (ρ : Environment Rat) (sumExponents : List (Expr Rat) → Expr Rat)
    (n : ℕ) : Prop where
  collectTerm {s s' : Terms Rat} {t : Expr Rat} {x y : Rat} :
    collectTerm? sumExponents n s t = some s' → s.expr.eval ρ = some x → t.eval ρ = some y →
      s'.expr.eval ρ = some (x + y)
  sum {ts : List (Expr Rat)} {e : Expr Rat} :
    sum? sumExponents n ts = some e → Refines ρ (.add ts) e
  product {fs : List (Expr Rat)} {e : Expr Rat} :
    product? sumExponents n fs = some e → Refines ρ (.mul fs) e
  power {b x e : Expr Rat} : power? sumExponents n b x = some e → Refines ρ (.pow b x) e

/-- Operations that refine the operands of a list one by one. -/
theorem forall₂_of_mapM {β : Type} {f : β → Option (Expr Rat)} {d : β → Expr Rat} {as : List β}
    {es : List (Expr Rat)} (hf : ∀ {a e}, f a = some e → Refines ρ (d a) e)
    (h : as.mapM f = some es) : List.Forall₂ (Refines ρ) (as.map d) es :=
  List.forall₂_map_left_iff.2 ((forall₂_of_mapM_eq_some h).imp fun _ _ he => hf he)

/-- Collecting terms one after the other adds all their values. -/
theorem Terms.eval_foldlM {collect : Terms Rat → Expr Rat → Option (Terms Rat)}
    {d : Expr Rat → Expr Rat}
    (hcollect : ∀ {s s' t x y}, collect s t = some s' → s.expr.eval ρ = some x →
      (d t).eval ρ = some y → s'.expr.eval ρ = some (x + y))
    {ts : List (Expr Rat)} {s s' : Terms Rat} {x y : Rat} (h : ts.foldlM collect s = some s')
    (hx : s.expr.eval ρ = some x) (hy : (Expr.add (ts.map d)).eval ρ = some y) :
    s'.expr.eval ρ = some (x + y) := by
  induction ts generalizing s x y with
  | nil =>
    obtain rfl : s = s' := by simpa using h
    obtain rfl : 0 = y := by simpa using hy
    rwa [add_zero]
  | cons t ts ih =>
    simp only [List.foldlM_cons, bind, Option.bind_eq_some_iff] at h
    obtain ⟨u, hu, h⟩ := h
    obtain ⟨z, w, hz, hw, rfl⟩ := eval_add_cons_iff.1 hy
    rw [← add_assoc]
    exact ih h (hcollect hu hx hz) hw

/-- Parts with the coefficient zero may be left out. -/
theorem Terms.eval_filter {parts : List (Expr Rat × Rat)} {v : Rat}
    (h : (Expr.add (parts.map part)).eval ρ = some v) :
    (Expr.add ((parts.filter (·.2 != 0)).map part)).eval ρ = some v := by
  induction parts generalizing v with
  | nil => exact h
  | cons p parts ih =>
    obtain ⟨x, y, hx, hy, rfl⟩ := eval_add_cons_iff.1 h
    by_cases hp : p.2 = 0
    · obtain ⟨z, -, rfl⟩ := eval_scaled_iff.1 hx
      rw [List.filter_cons_of_neg (by simp [hp]), hp, zero_mul, zero_add]
      exact ih hy
    · rw [List.filter_cons_of_pos (by simpa using hp)]
      exact eval_add_cons_iff.2 ⟨x, y, hx, ih hy, rfl⟩

section

variable {sumExponents : List (Expr Rat) → Expr Rat} {n : ℕ}

theorem Sound.collectTerm_succ (hn : Sound ρ sumExponents n) {s s' : Terms Rat} {t : Expr Rat}
    {x y : Rat} (h : collectTerm? sumExponents (n + 1) s t = some s')
    (hx : s.expr.eval ρ = some x) (hy : t.eval ρ = some y) :
    s'.expr.eval ρ = some (x + y) := by
  have hsplit := eval_splitCoefficient hy
  rcases collectTerm?_cases h with
    ⟨ts, rfl, h⟩ | ⟨v, rfl, rfl⟩ | ⟨c, ts, ht, h⟩ | ⟨c, part, ht, -, -, rfl⟩
  · exact Terms.eval_foldlM (d := id) hn.collectTerm h hx (by rwa [List.map_id])
  · obtain rfl := Option.some.inj hy
    obtain ⟨_, w, hz, hw, rfl⟩ := eval_add_cons_iff.1 hx
    obtain rfl := Option.some.inj hz
    exact eval_add_cons_iff.2 ⟨_, w, rfl, hw, add_right_comm s.constant v w⟩
  · rw [ht] at hsplit
    refine Terms.eval_foldlM (d := fun t => .mul [.number c, t]) ?_ h hx (eval_distribute hsplit)
    intro s s' t x y h hx hy
    obtain ⟨e, he, h⟩ := Option.bind_eq_some_iff.1 h
    exact hn.collectTerm h hx (hn.product he _ hy)
  · rw [ht] at hsplit
    exact Terms.eval_insert hx hsplit

theorem Sound.sum_succ (hn : Sound ρ sumExponents n) {ts : List (Expr Rat)} {e : Expr Rat}
    (h : sum? sumExponents (n + 1) ts = some e) : Refines ρ (.add ts) e := fun v hv => by
  obtain ⟨s, parts, hs, hparts, rfl⟩ := sum?_cases h
  have hempty : (Terms.empty : Terms Rat).expr.eval ρ = some 0 := eval_add_singleton.2 rfl
  have hsum := Terms.eval_foldlM (d := id) hn.collectTerm hs hempty (by rwa [List.map_id])
  obtain ⟨_, w, hc, hw, hvw⟩ := eval_add_cons_iff.1 hsum
  obtain rfl := Option.some.inj hc
  rw [zero_add] at hvw
  have hscale : List.Forall₂ (Refines ρ) _ parts :=
    forall₂_of_mapM (d := Terms.part) (fun {p e} he => by
      split at he
      · rename_i hp
        obtain rfl := Option.some.inj he
        intro v hv
        obtain ⟨x, hx, rfl⟩ := eval_scaled_iff.1 hv
        rwa [eq_of_beq hp, one_mul]
      · exact hn.product he) hparts
  have hw := Refines.add hscale w (Terms.eval_filter hw)
  refine eval_ofTerms ?_
  split
  · exact eval_add_append_iff.2
      ⟨w, s.constant, hw, eval_add_singleton.2 rfl, (add_comm _ _).trans hvw⟩
  · rename_i h0
    have hz : s.constant = 0 := by simpa using h0
    rwa [← hvw, hz, zero_add]

theorem Sound.product_succ (hS : ∀ ts, Refines ρ (.add ts) (sumExponents ts))
    (hn : Sound ρ sumExponents n) {fs : List (Expr Rat)} {e : Expr Rat}
    (h : product? sumExponents (n + 1) fs = some e) : Refines ρ (.mul fs) e := fun v hv => by
  have hempty : (Factors.empty : Factors Rat).expr.eval ρ = some 1 := eval_mul_singleton.2 rfl
  have hcollect := Factors.eval_collectAll hS fs hempty hv
  have hcases := product?_cases h
  rw [one_mul] at hcollect
  generalize Factors.collectAll sumExponents Factors.empty fs = p at hcollect hcases
  obtain ⟨x, hx, rfl⟩ := eval_mul_number_iff.1 hcollect
  rcases hcases with ⟨h0, rfl⟩ | ⟨raised, c, gs, hraised, hout, h⟩
  · rw [eq_of_beq h0, zero_mul]
    rfl
  · have hpowers : (Expr.mul raised).eval ρ = some x :=
      Refines.mul (forall₂_of_mapM (d := Factors.power) hn.power hraised) x hx
    have hstart : (Expr.mul [.number p.coefficient]).eval ρ = some p.coefficient :=
      eval_mul_singleton.2 rfl
    have hv := eval_foldl_appendFactor (p.coefficient, []) hstart hpowers
    rw [hout] at hv
    rcases h with ⟨h0, rfl⟩ | ⟨ts, rfl, h1, rfl⟩ | ⟨ts, us, rfl, hus, h⟩ |
      ⟨-, -, rfl⟩
    · obtain ⟨y, -, hy⟩ := eval_mul_number_iff.1 hv
      rw [← hy, eq_of_beq h0, zero_mul]
      rfl
    · obtain ⟨y, hy, hxy⟩ := eval_mul_number_iff.1 hv
      rw [eval_mul_singleton.1 hy, ← hxy, eq_of_beq h1, one_mul]
    · exact hn.sum h _ (Refines.add (forall₂_of_mapM hn.product hus) _ (eval_distribute hv))
    · exact eval_ofFactors hv

theorem Sound.power_succ (hn : Sound ρ sumExponents n) {b x e : Expr Rat}
    (h : power? sumExponents (n + 1) b x = some e) : Refines ρ (.pow b x) e := fun v hv => by
  rcases power?_cases h with ⟨u, rfl, h0, rfl⟩ | ⟨u, rfl, h1, rfl⟩ |
    ⟨u, w, y, rfl, rfl, hfold, rfl⟩ | ⟨c, u, w, rfl, rfl, -, h⟩ |
    ⟨fs, w, gs, rfl, rfl, -, hgs, h⟩ | ⟨u, rfl, h1, rfl⟩ | ⟨-, rfl⟩
  · obtain ⟨y, m, -, hm, -, rfl⟩ := eval_pow_number_iff.1 hv
    obtain rfl : m = 0 := by exact_mod_cast hm.symm.trans (eq_of_beq h0)
    rw [zpow_zero]
    rfl
  · obtain ⟨y, m, hy, hm, -, rfl⟩ := eval_pow_number_iff.1 hv
    obtain rfl : m = 1 := by exact_mod_cast hm.symm.trans (eq_of_beq h1)
    rwa [zpow_one]
  · exact congrArg some (eval_foldPower hfold hv)
  · exact hn.power h v (eval_pow_pow hv)
  · exact hn.product h v (Refines.mul (forall₂_of_mapM hn.power hgs) v (eval_pow_mul hv))
  · obtain ⟨y, m, hy, -, -, rfl⟩ := eval_pow_iff.1 hv
    obtain rfl := Option.some.inj hy
    rw [eq_of_beq h1, one_zpow]
    rfl
  · exact hv

theorem sound (hS : ∀ ts, Refines ρ (.add ts) (sumExponents ts)) (n : ℕ) :
    Sound ρ sumExponents n := by
  induction n with
  | zero => constructor <;> simp [collectTerm?, sum?, product?, power?]
  | succ n hn => exact ⟨hn.collectTerm_succ, hn.sum_succ, hn.product_succ hS, hn.power_succ⟩

end

/-! ### All floors -/

theorem sumOn_refines (floors : ℕ) (ts : List (Expr Rat)) :
    Refines ρ (.add ts) (sumOn floors ts) := by
  induction floors generalizing ts with
  | zero => exact .refl _
  | succ floors ih =>
    rw [sumOn]
    cases h : sum? (sumOn floors) (budget (sizeAll ts)) ts with
    | none => exact .refl _
    | some e => exact (sound ih _).sum h

theorem sum_refines (ts : List (Expr Rat)) : Refines ρ (.add ts) (sum ts) := sumOn_refines _ ts

theorem product_refines (fs : List (Expr Rat)) : Refines ρ (.mul fs) (product fs) := by
  unfold product
  cases h : product? (sumOn (sizeAll fs)) (budget (sizeAll fs)) fs with
  | none => exact .refl _
  | some e => exact (sound (sumOn_refines _) _).product h

theorem power_refines (b x : Expr Rat) : Refines ρ (.pow b x) (power b x) := by
  unfold power
  cases h : power? (sumOn (size b + size x)) (budget (size b + size x)) b x with
  | none => exact .refl _
  | some e => exact (sound (sumOn_refines _) _).power h

/-! ### The operations of arithmetic -/

section

variable {a b : Expr Rat} {x y : Rat}

theorem eval_plus (ha : a.eval ρ = some x) (hb : b.eval ρ = some y) :
    (a + b).eval ρ = some (x + y) :=
  sum_refines [a, b] _ (eval_add_cons_iff.2 ⟨x, y, ha, eval_add_singleton.2 hb, rfl⟩)

theorem eval_times (ha : a.eval ρ = some x) (hb : b.eval ρ = some y) :
    (a * b).eval ρ = some (x * y) :=
  product_refines [a, b] _ (eval_mul_cons_iff.2 ⟨x, y, ha, eval_mul_singleton.2 hb, rfl⟩)

theorem eval_negate (ha : a.eval ρ = some x) : (-a).eval ρ = some (-x) :=
  product_refines [.number (-1), a] _ (eval_scaled_iff.2 ⟨x, ha, neg_one_mul x⟩)

theorem eval_minus (ha : a.eval ρ = some x) (hb : b.eval ρ = some y) :
    (a - b).eval ρ = some (x - y) := by
  rw [sub_eq_add_neg x y]
  exact eval_plus ha (eval_negate hb)

theorem eval_over (ha : a.eval ρ = some x) (hb : b.eval ρ = some y) (hy : y ≠ 0) :
    (a / b).eval ρ = some (x / y) := by
  have hinv : (power b (.number (-1))).eval ρ = some y⁻¹ :=
    power_refines b _ _ (eval_pow_number_iff.2 ⟨y, -1, hb, by norm_num, .inl hy, zpow_neg_one y⟩)
  rw [div_eq_mul_inv x y]
  exact eval_times ha hinv

end

/-- **Canonical arithmetic keeps values**: in every environment, with calls read as any partial
functions, a sum, product, power, negation, difference or quotient that is built in canonical
form has a value wherever the plain one has, and has the same. -/
theorem eval_canonical (ρ : Environment Rat) :
    (∀ (ts : List (Expr Rat)) v, (Expr.add ts).eval ρ = some v → (sum ts).eval ρ = some v) ∧
    (∀ (fs : List (Expr Rat)) v, (Expr.mul fs).eval ρ = some v → (product fs).eval ρ = some v) ∧
    (∀ (b e : Expr Rat) v, (Expr.pow b e).eval ρ = some v → (power b e).eval ρ = some v) ∧
    ∀ (a b : Expr Rat) (x y : Rat), a.eval ρ = some x → b.eval ρ = some y →
      (a + b).eval ρ = some (x + y) ∧ (a - b).eval ρ = some (x - y) ∧ (-a).eval ρ = some (-x) ∧
      (a * b).eval ρ = some (x * y) ∧ (y ≠ 0 → (a / b).eval ρ = some (x / y)) ∧
      ∀ n : ℤ, y = n → HasPower x n → (a ^ b).eval ρ = some (x ^ n) := by
  refine ⟨sum_refines, product_refines, power_refines, fun a b x y ha hb => ?_⟩
  refine ⟨eval_plus ha hb, eval_minus ha hb, eval_negate ha, eval_times ha hb,
    eval_over ha hb, fun n hn hx => ?_⟩
  exact power_refines a b _ (eval_pow_iff.2 ⟨x, n, ha, hn ▸ hb, hx, rfl⟩)

/-- A cube divided by its base, at two, is four. -/
theorem eval_canonical_cube :
    let x : Expr Rat := .symbol ⟨0, "x"⟩
    let ρ : Environment Rat := .ofIds fun _ => some 2
    (Expr.mul [.pow x (.number 3), .pow x (.number (-1))]).eval ρ = some 4 ∧
      (product [.pow x (.number 3), .pow x (.number (-1))]).eval ρ = some 4 := by
  intro x ρ
  have h : (Expr.mul [.pow x (.number 3), .pow x (.number (-1))]).eval ρ = some 4 := by
    decide +kernel
  exact ⟨h, (eval_canonical ρ).2.1 _ _ h⟩

end Kirchhoff.Expr
