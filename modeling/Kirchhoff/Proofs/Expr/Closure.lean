import Kirchhoff.Proofs.Expr.Budget

/-!
# Properties that the canonical operations keep

Some properties of an expression are those of its operands, put together node by node. Such a
`Hereditary` property is kept by the operations that build canonical forms: by what they do within
a budget (`Hereditary.kept`), and so by sums, products, powers and arithmetic of expressions that
have it (`Hereditary.sum`, `Hereditary.product`, `Hereditary.power`).

The factors of a product are put together one by one, where a product that was raised brings all of
its factors. A property may therefore ask something of the list of factors, as long as it is kept
on the way. It may also ask something of powers that only those have that stay as they are.
-/

namespace Kirchhoff.Expr

variable {α : Type} [Scalar α]

/-- A property of expressions, and one of lists of factors, that are those of the operands. -/
structure Hereditary (Q : Expr α → Prop) (L : List (Expr α) → Prop) : Prop where
  number (v : α) : Q (.number v)
  /-- The terms of a sum have the property. -/
  terms {ts : List (Expr α)} (h : Q (.add ts)) : ∀ t ∈ ts, Q t
  add {ts : List (Expr α)} (hlen : 2 ≤ ts.length) (h : ∀ t ∈ ts, Q t) : Q (.add ts)
  /-- The factors of a product have the property. -/
  factors {fs : List (Expr α)} (h : Q (.mul fs)) : ∀ f ∈ fs, Q f
  /-- A product may lose its coefficient. -/
  rest {c : α} {fs : List (Expr α)} (h : Q (.mul (.number c :: fs))) (hfs : ∀ f, fs ≠ [f]) :
    Q (.mul fs)
  nil : L []
  single {f : Expr α} (h : L [f]) : Q f
  snoc {fs : List (Expr α)} {f : Expr α} (hfs : L fs) (hf : Q f) (hnumber : ∀ v, f ≠ .number v)
    (hmul : ∀ gs, f ≠ .mul gs) : L (fs ++ [f])
  splice {fs gs : List (Expr α)} (hfs : L fs) (hgs : Q (.mul gs)) : L (fs ++ gs)
  ofFactors {c : α} {fs : List (Expr α)} (h : L fs) (hsum : ∀ ts, fs ≠ [.add ts]) :
    Q (Expr.ofFactors c fs)
  operands {b x : Expr α} (h : Q (.pow b x)) : Q b ∧ Q x
  pow {b x : Expr α} (hb : Q b) (hx : Q x) (h : IsSettled b x) : Q (.pow b x)

namespace Hereditary

variable {Q : Expr α → Prop} {L : List (Expr α) → Prop} {sumExponents : List (Expr α) → Expr α}
  {n : ℕ}

/-- A property that a node has exactly when all its operands have it. -/
theorem of_operands (hnumber : ∀ v, Q (.number v)) (hadd : ∀ ts, Q (.add ts) ↔ ∀ t ∈ ts, Q t)
    (hmul : ∀ fs, Q (.mul fs) ↔ ∀ f ∈ fs, Q f) (hpow : ∀ b x, Q (.pow b x) ↔ Q b ∧ Q x) :
    Hereditary Q fun fs => ∀ f ∈ fs, Q f where
  number := hnumber
  terms := (hadd _).1
  add _ := (hadd _).2
  factors := (hmul _).1
  rest h _ := (hmul _).2 (List.forall_mem_cons.1 ((hmul _).1 h)).2
  nil := List.forall_mem_nil _
  single h := h _ (by simp)
  snoc hfs hf _ _ := List.forall_mem_append.2 ⟨hfs, by simpa using hf⟩
  splice hfs hgs := List.forall_mem_append.2 ⟨hfs, (hmul _).1 hgs⟩
  ofFactors {c fs} h _ := by
    have hscaled : Q (.mul (.number c :: fs)) :=
      (hmul _).2 (List.forall_mem_cons.2 ⟨hnumber c, h⟩)
    unfold Expr.ofFactors
    split
    · exact hnumber c
    · split
      · exact h _ (by simp)
      · exact hscaled
    · split
      · exact (hmul _).2 h
      · exact hscaled
  operands := (hpow _ _).1
  pow hb hx _ := (hpow _ _).2 ⟨hb, hx⟩

/-! ### Collecting -/

/-- What is left of a term without its coefficient has the property. -/
theorem splitCoefficient (hQ : Hereditary Q L) {t : Expr α} (h : Q t) : Q t.splitCoefficient.2 := by
  unfold Expr.splitCoefficient
  split
  · exact hQ.factors h _ (by simp)
  · rename_i hfs
    exact hQ.rest h hfs
  · exact h

/-- Inserting keeps what the new entry has and every combined value has. -/
theorem forall_mem_insertWith {β : Type} {combine : β → β → β} {R : Expr α × β → Prop}
    {key : Expr α} {value : β} {entries : List (Expr α × β)} (hnew : R (key, value))
    (hcombine : ∀ k v, R (k, v) → R (k, combine v value)) (h : ∀ p ∈ entries, R p) :
    ∀ p ∈ insertWith combine key value entries, R p := by
  induction entries with
  | nil => simpa [insertWith] using hnew
  | cons p entries ih =>
    obtain ⟨k, v⟩ := p
    obtain ⟨hp, hrest⟩ := List.forall_mem_cons.1 h
    simp only [insertWith]
    split
    · exact List.forall_mem_cons.2 ⟨hcombine k v hp, hrest⟩
    · exact List.forall_mem_cons.2 ⟨hp, ih hrest⟩

/-- The sum of two exponents keeps the property. -/
def Adds (Q : Expr α → Prop) (sumExponents : List (Expr α) → Expr α) : Prop :=
  ∀ x y, Q x → Q y → Q (sumExponents [x, y])

/-- All bases and exponents of what is collected of a product have the property. -/
def OfFactors (Q : Expr α → Prop) (fs : Factors α) : Prop := ∀ p ∈ fs.powers, Q p.1 ∧ Q p.2

theorem base_exponent (hQ : Hereditary Q L) {f : Expr α} (h : Q f) : Q f.base ∧ Q f.exponent := by
  cases f with
  | pow b x => exact hQ.operands h
  | _ => exact ⟨h, hQ.number 1⟩

theorem insert (hS : Adds Q sumExponents) {fs : Factors α} {b x : Expr α} (hfs : OfFactors Q fs)
    (hb : Q b) (hx : Q x) : OfFactors Q (fs.insert sumExponents b x) :=
  forall_mem_insertWith ⟨hb, hx⟩ (fun _ v hkv => ⟨hkv.1, hS v x hkv.2 hx⟩) hfs

/-- All factors are collected under bases and exponents that have the property. -/
theorem collectAll (hQ : Hereditary Q L) (hS : Adds Q sumExponents) {gs : List (Expr α)}
    (hgs : ∀ g ∈ gs, Q g) : OfFactors Q (Factors.collectAll sumExponents Factors.empty gs) := by
  refine invariant_of_collectAll (fun _ h => hQ.factors h) (fun _ _ h => h)
    (fun s f hf _ _ hs => ?_) gs hgs (by simp [OfFactors, Factors.empty])
  obtain ⟨hb, hx⟩ := hQ.base_exponent hf
  exact insert hS hs hb hx

/-! ### Writing down what is collected -/

/-- One term stands for itself, several make a sum. -/
theorem ofTerms (hQ : Hereditary Q L) {ts : List (Expr α)} (h : ∀ t ∈ ts, Q t) :
    Q (Expr.ofTerms ts) := by
  unfold Expr.ofTerms
  split
  · exact hQ.number 0
  · exact h _ (by simp)
  · rename_i hnil hone
    refine hQ.add ?_ h
    match ts with
    | [] => exact absurd rfl hnil
    | [t] => exact absurd rfl (hone t)
    | _ :: _ :: _ => simp

/-- A factor that is a product brings its own factors, any other stands alone. -/
theorem appendFactor (hQ : Hereditary Q L) {acc : α × List (Expr α)} {f : Expr α} (hacc : L acc.2)
    (hf : Q f) : L (Expr.appendFactor acc f).2 := by
  unfold Expr.appendFactor
  split
  · exact hacc
  · exact hQ.splice hacc hf
  · exact hQ.snoc hacc hf (by assumption) (by assumption)

theorem foldl_appendFactor (hQ : Hereditary Q L) (c : α) {fs : List (Expr α)}
    (hfs : ∀ f ∈ fs, Q f) : L (fs.foldl Expr.appendFactor (c, [])).2 :=
  List.foldlRecOn (motive := fun acc : α × List (Expr α) => L acc.2) _ _ hQ.nil
    fun _ hacc f hf => hQ.appendFactor hacc (hfs f hf)

/-! ### One floor of exponents -/

/-- The operations within a budget keep the property. -/
structure Kept (Q : Expr α → Prop) (sumExponents : List (Expr α) → Expr α) (n : ℕ) : Prop where
  collectTerm {s s' : Terms α} {t : Expr α} :
    collectTerm? sumExponents n s t = some s' → Q t → (∀ p ∈ s.parts, Q p.1) →
      ∀ p ∈ s'.parts, Q p.1
  sum {ts : List (Expr α)} {e : Expr α} :
    sum? sumExponents n ts = some e → (∀ t ∈ ts, Q t) → Q e
  product {fs : List (Expr α)} {e : Expr α} :
    product? sumExponents n fs = some e → (∀ f ∈ fs, Q f) → Q e
  power {b x e : Expr α} : power? sumExponents n b x = some e → Q b → Q x → Q e

/-- A term that is given back its coefficient keeps the property. -/
theorem scaled (hQ : Hereditary Q L) (hn : Kept Q sumExponents n) {c : α} {t e : Expr α}
    (h : product? sumExponents n [.number c, t] = some e) (ht : Q t) : Q e :=
  hn.product h (by simpa using ⟨hQ.number c, ht⟩)

theorem collectTerm_succ (hQ : Hereditary Q L) (hn : Kept Q sumExponents n) {s s' : Terms α}
    {t : Expr α} (h : collectTerm? sumExponents (n + 1) s t = some s') (ht : Q t)
    (hs : ∀ p ∈ s.parts, Q p.1) : ∀ p ∈ s'.parts, Q p.1 := by
  have hpart := hQ.splitCoefficient ht
  rcases collectTerm?_cases h with
    ⟨ts, rfl, h⟩ | ⟨v, rfl, rfl⟩ | ⟨c, ts, hsplit, h⟩ | ⟨c, part, hsplit, -, -, rfl⟩
  · exact invariant_of_foldlM (Q := fun s : Terms α => ∀ p ∈ s.parts, Q p.1)
      (fun t ht' _ _ h => hn.collectTerm h (hQ.terms ht t ht')) h hs
  · exact hs
  · rw [hsplit] at hpart
    refine invariant_of_foldlM (Q := fun s : Terms α => ∀ p ∈ s.parts, Q p.1)
      (fun t ht _ _ h => ?_) h hs
    obtain ⟨e, he, h⟩ := Option.bind_eq_some_iff.1 h
    exact hn.collectTerm h (hQ.scaled hn he (hQ.terms hpart t ht))
  · rw [hsplit] at hpart
    exact forall_mem_insertWith hpart (fun _ _ hk => hk) hs

/-- A sum of one budget more, from products of the budget below. -/
theorem sum_succ (hQ : Hereditary Q L) (hn : Kept Q sumExponents n) {ts : List (Expr α)}
    {e : Expr α} (h : sum? sumExponents (n + 1) ts = some e) (hts : ∀ t ∈ ts, Q t) : Q e := by
  obtain ⟨s, parts, hs, hparts, rfl⟩ := sum?_cases h
  have hterms : ∀ p ∈ s.parts, Q p.1 :=
    invariant_of_foldlM (Q := fun s : Terms α => ∀ p ∈ s.parts, Q p.1)
      (fun t ht _ _ h => hn.collectTerm h (hts t ht)) hs (by simp [Terms.empty])
  have hwritten : ∀ t ∈ parts, Q t := by
    refine forall_mem_of_mapM_eq_some (fun p hp e he => ?_) hparts
    have hp := hterms p (List.mem_filter.1 hp).1
    split at he
    · exact Option.some.inj he ▸ hp
    · exact hQ.scaled hn he hp
  refine hQ.ofTerms ?_
  split
  · exact List.forall_mem_append.2 ⟨hwritten, by simpa using hQ.number _⟩
  · exact hwritten

/-- A product of one budget more, from powers of the budget below. -/
theorem product_succ (hQ : Hereditary Q L) (hS : Adds Q sumExponents) (hn : Kept Q sumExponents n)
    {fs : List (Expr α)} {e : Expr α} (h : product? sumExponents (n + 1) fs = some e)
    (hfs : ∀ f ∈ fs, Q f) : Q e := by
  have hpowers := hQ.collectAll hS hfs
  have hcases := product?_cases h
  generalize Factors.collectAll sumExponents Factors.empty fs = p at hpowers hcases
  rcases hcases with ⟨-, rfl⟩ | ⟨raised, c, gs, hraised, hout, h⟩
  · exact hQ.number 0
  · have hraised : ∀ f ∈ raised, Q f := forall_mem_of_mapM_eq_some
      (fun p hp e he => hn.power he (hpowers p hp).1 (hpowers p hp).2) hraised
    have hgs := hQ.foldl_appendFactor p.coefficient hraised
    rw [hout] at hgs
    rcases h with ⟨-, rfl⟩ | ⟨ts, rfl, -, rfl⟩ | ⟨ts, us, rfl, hus, h⟩ | ⟨-, hsum, rfl⟩
    · exact hQ.number 0
    · exact hQ.single hgs
    · have hts := hQ.terms (hQ.single hgs)
      exact hn.sum h (forall_mem_of_mapM_eq_some (fun t ht e he => hQ.scaled hn he (hts t ht)) hus)
    · exact hQ.ofFactors hgs hsum

theorem power_succ (hQ : Hereditary Q L) (hn : Kept Q sumExponents n) {b x e : Expr α}
    (h : power? sumExponents (n + 1) b x = some e) (hb : Q b) (hx : Q x) : Q e := by
  rcases power?_cases h with ⟨u, rfl, -, rfl⟩ | ⟨u, rfl, -, rfl⟩ | ⟨u, v, w, rfl, rfl, -, rfl⟩ |
    ⟨c, u, w, rfl, rfl, -, h⟩ | ⟨fs, w, gs, rfl, rfl, -, hgs, h⟩ | ⟨u, rfl, -, rfl⟩ | ⟨hset, rfl⟩
  · exact hQ.number 1
  · exact hb
  · exact hQ.number w
  · exact hn.power h (hQ.operands hb).1 (hQ.number _)
  · exact hn.product h (forall_mem_of_mapM_eq_some
      (fun f hf e he => hn.power he (hQ.factors hb f hf) (hQ.number _)) hgs)
  · exact hQ.number 1
  · exact hQ.pow hb hx hset

/-- The operations keep the property whatever their budget, by induction on it. -/
theorem kept (hQ : Hereditary Q L) (hS : Adds Q sumExponents) (n : ℕ) : Kept Q sumExponents n := by
  induction n with
  | zero => constructor <;> simp [collectTerm?, sum?, product?, power?]
  | succ n hn =>
    exact ⟨hQ.collectTerm_succ hn, hQ.sum_succ hn, hQ.product_succ hS hn, hQ.power_succ hn⟩

/-! ### All floors -/

/-- Exponents are added on the floor below, so sums of exponents keep the property too. -/
theorem adds_sumOn (hQ : Hereditary Q L) (floors : ℕ) : Adds Q (sumOn floors) := by
  induction floors with
  | zero => exact fun x y hx hy => hQ.add (by simp) (by simp [hx, hy])
  | succ floors ih =>
    exact fun x y hx hy => (hQ.kept ih _).sum (sum?_budget floors [x, y]) (by simp [hx, hy])

theorem sum (hQ : Hereditary Q L) {ts : List (Expr α)} (h : ∀ t ∈ ts, Q t) : Q (Expr.sum ts) :=
  (hQ.kept (hQ.adds_sumOn _) _).sum (sum?_budget _ ts) h

theorem product (hQ : Hereditary Q L) {fs : List (Expr α)} (h : ∀ f ∈ fs, Q f) :
    Q (Expr.product fs) :=
  (hQ.kept (hQ.adds_sumOn _) _).product (product?_budget fs) h

theorem power (hQ : Hereditary Q L) {b x : Expr α} (hb : Q b) (hx : Q x) : Q (Expr.power b x) :=
  (hQ.kept (hQ.adds_sumOn _) _).power (power?_budget b x) hb hx

theorem negate (hQ : Hereditary Q L) {a : Expr α} (ha : Q a) : Q (-a) :=
  hQ.product (by simpa using ⟨hQ.number (-1), ha⟩)

end Hereditary

end Kirchhoff.Expr
