import Kirchhoff.Proofs.Expr.Shape

/-!
# What is collected of canonical operands

The operations combine what is alike while they collect terms and factors: no two entries have equal
keys (`HasDistinctKeys`). A canonical factor that is collected alone comes back as it is, and so a
coefficient that is multiplied onto a part of a sum stands in front of its factors
(`IsPart.product?_scaled`). A base that is no product and no power is raised to a factor with the
same base, or to a number (`IsPower.raised`).

From this it follows what is written down: the factors of a canonical product
(`ArePowers.areFactors`), and a canonical sum (`HasDistinctKeys.ofTerms`).
-/

namespace Kirchhoff.Expr

variable {α : Type} [Scalar α]

/-! ### Keys -/

section

variable {β : Type} {combine : β → β → β} {key : Expr α} {value : β} {entries : List (Expr α × β)}

/-- No two entries have equal keys. -/
def HasDistinctKeys (entries : List (Expr α × β)) : Prop :=
  entries.Pairwise fun p q => (p.1 == q.1) = false

/-- A key is inserted only if no entry has it. -/
theorem HasDistinctKeys.insert (h : HasDistinctKeys entries) :
    HasDistinctKeys (insertWith combine key value entries) := by
  induction entries with
  | nil => exact List.pairwise_singleton _ _
  | cons p entries ih =>
    obtain ⟨k, v⟩ := p
    obtain ⟨hk, hentries⟩ := List.pairwise_cons.1 h
    simp only [insertWith]
    split
    · exact List.pairwise_cons.2 ⟨hk, hentries⟩
    · have hnew : (k == key) = false := Bool.eq_false_iff.2 ‹¬(k == key) = true›
      have hrest : ∀ q ∈ insertWith combine key value entries, (k == q.1) = false :=
        Hereditary.forall_mem_insertWith hnew (fun _ _ hkey => hkey) hk
      exact List.pairwise_cons.2 ⟨hrest, ih hentries⟩

/-- An entry with a new key comes last. -/
theorem insertWith_eq_append (h : ∀ p ∈ entries, (p.1 == key) = false) :
    insertWith combine key value entries = entries ++ [(key, value)] := by
  induction entries with
  | nil => rfl
  | cons p entries ih =>
    obtain ⟨hp, hentries⟩ := List.forall_mem_cons.1 h
    simp [insertWith, hp, ih hentries]

/-- What is written down for entries with distinct keys has distinct keys again, numbers apart. -/
theorem HasDistinctKeys.written {R : Expr α × β → Expr α → Prop} {k : Expr α → Expr α}
    {es : List (Expr α)} (h : HasDistinctKeys entries) (hes : List.Forall₂ R entries es)
    (hR : ∀ p e, R p e → e.number? = none → k e = p.1) :
    (others es).Pairwise fun d e => (k d == k e) = false := by
  induction hes with
  | nil => exact .nil
  | @cons p e entries es hpe hes ih =>
    obtain ⟨hp, hentries⟩ := List.pairwise_cons.1 h
    simp only [others, List.filter_cons]
    split
    · rename_i he
      refine List.pairwise_cons.2 ⟨fun d hd => ?_, ih hentries⟩
      obtain ⟨hd, hother⟩ := List.mem_filter.1 hd
      obtain ⟨q, hq, hqd⟩ := exists_left_of_forall₂ hes hd
      rw [hR p e hpe (by simpa using he), hR q d hqd (by simpa using hother)]
      exact hp q hq
    · exact ih hentries

end

variable {m n : ℕ} {c : α} {b x e f t : Expr α} {fs ts : List (Expr α)}
  {sumExponents : List (Expr α) → Expr α}

/-! ### What is collected alone comes back -/

theorem power?_one [Scalar.LawfulOne α] (n : ℕ) (b : Expr α) :
    power? sumExponents (n + 1) b (.number 1) = some b := by
  simp [power?, Scalar.LawfulOne.one_beq_zero, Scalar.LawfulOne.one_beq_one]

/-- A canonical factor comes back when its base is raised to its exponent. -/
theorem IsCanonical.power?_base [Scalar.LawfulOne α] (hf : IsCanonical m f)
    (h : power? sumExponents n f.base f.exponent = some e) : f = e := by
  match n with
  | 0 => simp [power?] at h
  | n + 1 =>
    cases hf with
    | pow _ _ _ _ hset => exact Option.some.inj ((power?_of_isSettled hset).symm.trans h)
    | _ => exact Option.some.inj ((power?_one n _).symm.trans h)

/-- Collecting a product is collecting its factors. -/
theorem collectAll_factors (e : Expr α) (s : Factors α) :
    Factors.collectAll sumExponents s e.factors = Factors.collectAll sumExponents s [e] := by
  cases e <;> rfl

theorem AreFactors.collectAll (h : AreFactors m fs) {s : Factors α}
    (hs : ∀ p ∈ s.powers, ∀ f ∈ fs, (p.1 == f.base) = false) :
    Factors.collectAll sumExponents s fs =
      { s with powers := s.powers ++ fs.map fun f => (f.base, f.exponent) } := by
  induction fs generalizing s with
  | nil => simp [Factors.collectAll]
  | cons f fs ih =>
    obtain ⟨hcanonical, hother, hflat, hdistinct⟩ := h
    obtain ⟨-, hcanonical⟩ := List.forall_mem_cons.1 hcanonical
    obtain ⟨hf, hother⟩ := List.forall_mem_cons.1 hother
    obtain ⟨hmul, hflat⟩ := List.forall_mem_cons.1 hflat
    obtain ⟨hbase, hdistinct⟩ := List.pairwise_cons.1 hdistinct
    have hinsert : s.insert sumExponents f.base f.exponent =
        { s with powers := s.powers ++ [(f.base, f.exponent)] } := by
      rw [Factors.insert, insertWith_eq_append fun p hp => hs p hp f List.mem_cons_self]
    rw [Factors.collectAll, collect_eq_insert hf hmul, hinsert,
      ih ⟨hcanonical, hother, hflat, hdistinct⟩]
    · simp
    · intro p hp g hg
      obtain hp | hp := List.mem_append.1 hp
      · exact hs p hp g (List.mem_cons_of_mem _ hg)
      · obtain rfl := List.mem_singleton.1 hp
        exact hbase g hg

/-- Factors that are no products are written down in order, and numbers are set aside. -/
theorem foldl_appendFactor (h : ∀ f ∈ fs, ∀ gs, f ≠ .mul gs) (acc : α × List (Expr α)) :
    (fs.foldl appendFactor acc).2 = acc.2 ++ others fs := by
  induction fs generalizing acc with
  | nil => simp
  | cons f fs ih =>
    obtain ⟨hf, hfs⟩ := List.forall_mem_cons.1 h
    rw [List.foldl_cons, ih hfs]
    cases f with
    | mul gs => exact absurd rfl (hf gs)
    | _ => simp [appendFactor, others, number?]

theorem fst_foldl_appendFactor (h : ∀ f ∈ fs, f.number? = none) (acc : α × List (Expr α)) :
    (fs.foldl appendFactor acc).1 = acc.1 := by
  induction fs generalizing acc with
  | nil => rfl
  | cons f fs ih =>
    obtain ⟨hf, hfs⟩ := List.forall_mem_cons.1 h
    rw [List.foldl_cons, ih hfs]
    cases f with
    | number v => cases hf
    | _ => rfl

theorem ofFactors_of_ne_one (hc : (c == 1) = false) (hfs : fs ≠ []) :
    ofFactors c fs = .mul (.number c :: fs) := by
  match fs with
  | [] => exact absurd rfl hfs
  | [f] => simp [ofFactors, hc]
  | f :: g :: fs => simp [ofFactors, hc]

/-- A product of factors that are collected as they are: nothing is combined, and each factor is
raised to itself. -/
theorem AreFactors.product?_eq [Scalar.LawfulOne α] {gs : List (Expr α)} (h : AreFactors m fs)
    (h0 : (c == 0) = false) (hsum : ∀ ts, fs ≠ [.add ts])
    (hgs : Factors.collectAll sumExponents Factors.empty gs =
      { coefficient := c, powers := fs.map fun f => (f.base, f.exponent) })
    (ht : product? sumExponents n gs = some t) : t = Expr.ofFactors c fs := by
  match n with
  | 0 => simp [product?] at ht
  | n + 1 =>
    have hcases := product?_cases ht
    rw [hgs] at hcases
    obtain ⟨hc, -⟩ | ⟨raised, d, es, hraised, hout, hcases⟩ := hcases
    · simp [h0] at hc
    · rw [List.mapM_map] at hraised
      obtain rfl : fs = raised := eq_of_mapM_eq_some
        (fun f hf r hr => (h.canonical f hf).power?_base hr) hraised
      have hfst := fst_foldl_appendFactor h.other (c, [])
      have hsnd := foldl_appendFactor h.flat (c, [])
      rw [hout] at hfst hsnd
      obtain rfl : d = c := hfst
      obtain rfl : es = fs := by simpa [others_eq_self h.other] using hsnd
      rcases hcases with ⟨hd, -⟩ | ⟨ts, hts, -⟩ | ⟨ts, us, hts, -⟩ | ⟨-, -, rfl⟩
      · simp [h0] at hd
      · exact absurd hts (hsum ts)
      · exact absurd hts (hsum ts)
      · rfl

/-- A coefficient that is multiplied onto a part of a sum stands in front of its factors. -/
theorem IsPart.product?_scaled [Scalar.LawfulOne α] (h : IsPart m e) (h0 : (c == 0) = false)
    (h1 : (c == 1) = false) (ht : product? sumExponents n [.number c, e] = some t) :
    t = .mul (.number c :: e.factors) := by
  have hcollect : Factors.collectAll sumExponents Factors.empty [.number c, e] =
      { coefficient := c, powers := e.factors.map fun f => (f.base, f.exponent) } := by
    simp only [Factors.collectAll, Factors.collect, Factors.empty, Scalar.LawfulOne.one_mul]
    exact (collectAll_factors e _).symm.trans (h.areFactors.collectAll (by simp))
  rw [h.areFactors.product?_eq h0 h.factors_ne_add hcollect ht]
  exact ofFactors_of_ne_one h1 h.factors_ne_nil

/-! ### Powers -/

/-- The expression is canonical with fewer floors of exponents. -/
def IsBelow (m : ℕ) (x : Expr α) : Prop := ∃ k < m, IsCanonical k x

omit [Scalar α] in
/-- An expression that is no power is its own base. -/
theorem IsBase.base_eq (h : IsBase b) : b.base = b := by
  cases b with
  | pow c x => exact absurd rfl (h.2 c x)
  | _ => rfl

/-- A power that is collected of a product. -/
structure IsPower (m : ℕ) (p : Expr α × Expr α) : Prop where
  base : IsBase p.1
  canonical : IsCanonical m p.1
  exponent : IsBelow m p.2

/-- Raising a base gives a number, or a factor with the same base. -/
structure IsRaised (m : ℕ) (p : Expr α × Expr α) (f : Expr α) : Prop where
  canonical : IsCanonical m f
  flat : ∀ gs, f ≠ .mul gs
  base : f.number? = none → f.base = p.1

/-- A collected power gives a number, or a factor with its base. -/
theorem IsPower.raised {p : Expr α × Expr α} (hp : IsPower m p)
    (h : power? sumExponents n p.1 p.2 = some f) : IsRaised m p f := by
  obtain ⟨b, x⟩ := p
  obtain ⟨hbase, hb, k, hk, hx⟩ := hp
  match n with
  | 0 => simp [power?] at h
  | n + 1 =>
    rcases power?_cases h with ⟨v, rfl, -, rfl⟩ | ⟨v, rfl, -, rfl⟩ | ⟨u, v, w, rfl, rfl, -, rfl⟩ |
      ⟨c, u, v, rfl, -⟩ | ⟨fs, v, gs, rfl, -⟩ | ⟨u, rfl, -, rfl⟩ | ⟨hset, rfl⟩
    · exact ⟨.number 1, by simp, by simp [number?]⟩
    · exact ⟨hb, hbase.1, fun _ => hbase.base_eq⟩
    · exact ⟨.number w, by simp, by simp [number?]⟩
    -- Here a product would come back, were the base not excluded.
    · exact absurd rfl (hbase.2 _ _)
    · exact absurd rfl (hbase.1 _)
    · exact ⟨.number 1, by simp, by simp [number?]⟩
    · exact ⟨.pow hk hb hx hbase hset, by simp, fun _ => rfl⟩

/-- What is collected of a product: powers with distinct bases. -/
structure ArePowers (m : ℕ) (s : Factors α) : Prop where
  powers : ∀ p ∈ s.powers, IsPower m p
  distinct : HasDistinctKeys s.powers

theorem ArePowers.insert (hS : Hereditary.Adds (IsBelow m) sumExponents) {s : Factors α}
    (hs : ArePowers m s) (hp : IsPower m (b, x)) : ArePowers m (s.insert sumExponents b x) where
  powers := Hereditary.forall_mem_insertWith hp
    (fun _ v hv => ⟨hv.base, hv.canonical, hS v x hv.exponent hp.exponent⟩) hs.powers
  distinct := hs.distinct.insert

/-- A factor is collected as the power of its base. -/
theorem IsCanonical.isPower (hf : IsCanonical m f) (hnumber : f.number? = none)
    (hmul : ∀ gs, f ≠ .mul gs) : IsPower m (f.base, f.exponent) := by
  cases hf with
  | number v => cases hnumber
  | pow hk hb hx hbase _ => exact ⟨hbase, hb, _, hk, hx⟩
  | mul => exact absurd rfl (hmul _)
  | symbol hm s => exact ⟨⟨by simp [base], by simp [base]⟩, .symbol hm s, 0, hm, .number 1⟩
  | add hm h hts => exact ⟨⟨by simp [base], by simp [base]⟩, .add hm h hts, 0, hm, .number 1⟩
  | call hm g h => exact ⟨⟨by simp [base], by simp [base]⟩, .call hm g h, 0, hm, .number 1⟩

theorem IsCanonical.forall_mem_mul (h : IsCanonical m (.mul fs)) : ∀ f ∈ fs, IsCanonical m f := by
  cases h with
  | mul _ h _ => exact h

theorem IsCanonical.forall_mem_add (h : IsCanonical m (.add ts)) : ∀ t ∈ ts, IsCanonical m t := by
  cases h with
  | add _ h _ => exact h

/-- What is collected of canonical factors has distinct bases. -/
theorem ArePowers.collectAll (hS : Hereditary.Adds (IsBelow m) sumExponents)
    (hfs : ∀ f ∈ fs, IsCanonical m f) :
    ArePowers m (Factors.collectAll sumExponents Factors.empty fs) :=
  invariant_of_collectAll (fun _ h => h.forall_mem_mul) (fun _ _ hs => ⟨hs.powers, hs.distinct⟩)
    (fun _ _ hf hnumber hmul hs => hs.insert hS (hf.isPower hnumber hmul)) fs hfs
    ⟨by simp [Factors.empty], .nil⟩

/-- The factors that are written down for what is collected, beside the coefficient. -/
theorem ArePowers.areFactors {s : Factors α} {raised : List (Expr α)} (hs : ArePowers m s)
    (h : s.powers.mapM (fun p => power? sumExponents n p.1 p.2) = some raised) (c : α) :
    AreFactors m (raised.foldl appendFactor (c, [])).2 := by
  have hraised : List.Forall₂ (IsRaised m) s.powers raised :=
    forall₂_imp_of_mapM_eq_some (fun p hp f hf => (hs.powers p hp).raised hf) h
  have hcanonical := forall_mem_of_forall₂ hraised fun _ _ hf => hf.canonical
  have hflat := forall_mem_of_forall₂ hraised fun _ _ hf => hf.flat
  rw [foldl_appendFactor hflat, List.nil_append]
  refine ⟨fun f hf => ?_, fun f hf => ?_, fun f hf => ?_,
    hs.distinct.written hraised fun p f hf => hf.base⟩
  · exact hcanonical f (List.mem_filter.1 hf).1
  · simpa using (List.mem_filter.1 hf).2
  · exact hflat f (List.mem_filter.1 hf).1

/-! ### Terms -/

/-- What is collected of a sum: distinct parts. -/
structure AreParts (m : ℕ) (s : Terms α) : Prop where
  parts : ∀ p ∈ s.parts, IsPart m p.1
  distinct : HasDistinctKeys s.parts

/-- A term that is written down for a part with a coefficient. -/
structure IsTerm (m : ℕ) (p : Expr α × α) (t : Expr α) : Prop where
  canonical : IsCanonical m t
  other : t.number? = none
  flat : ∀ ts, t ≠ .add ts
  part : t.part = p.1

/-- A part is written down as a term with its coefficient. -/
theorem IsPart.isTerm [Scalar.LawfulOne α] {p : Expr α × α} (h : IsPart m p.1)
    (h0 : (p.2 == 0) = false)
    (ht : (if p.2 == 1 then some p.1 else product? sumExponents n [.number p.2, p.1]) = some t) :
    IsTerm m p t := by
  split at ht
  · obtain rfl := Option.some.inj ht
    exact ⟨h.canonical, h.other, h.flat, h.part_self⟩
  · have h1 : (p.2 == 1) = false := Bool.eq_false_iff.2 ‹¬(p.2 == 1) = true›
    obtain rfl := h.product?_scaled h0 h1 ht
    refine ⟨?_, rfl, by simp, by rw [part, h.splitCoefficient_scaled]⟩
    rw [← ofFactors_of_ne_one h1 h.factors_ne_nil]
    exact h.areFactors.ofFactors h0 h.factors_ne_add

theorem ofTerms_of_two_le (h : 2 ≤ ts.length) : ofTerms ts = .add ts := by
  match ts, h with
  | _ :: _ :: _, _ => rfl

/-- A sum is written down with its constant at the end. -/
theorem HasDistinctKeys.ofTerms {parts : List (Expr α × α)} (hparts : HasDistinctKeys parts)
    (h : List.Forall₂ (IsTerm m) parts ts) (v : α) :
    IsCanonical m (Expr.ofTerms (if v != 0 then ts ++ [.number v] else ts)) := by
  have hcanonical := forall_mem_of_forall₂ h fun _ _ ht => ht.canonical
  have hflat := forall_mem_of_forall₂ h fun _ _ ht => ht.flat
  have hother := forall_mem_of_forall₂ h fun _ _ ht => ht.other
  have hothers : others ts = ts := others_eq_self hother
  have hdistinct := hparts.written h (k := part) fun p t ht _ => ht.part
  obtain rfl | hnil := eq_or_ne ts []
  · split <;> exact .number _
  · obtain ⟨u, hu⟩ := List.exists_mem_of_ne_nil ts hnil
    have hm : 0 < m := (hcanonical u hu).pos (hother u hu)
    split
    · have hv : (v == 0) = false := by simpa [bne] using ‹(v != 0) = true›
      have hlen : 1 ≤ ts.length := List.length_pos_of_mem hu
      have hlast : others (ts ++ [.number v]) = ts := by simp [hothers]
      rw [ofTerms_of_two_le (by simpa using hlen)]
      refine .add hm (List.forall_mem_append.2 ⟨hcanonical, by simpa using .number v⟩)
        ⟨by simpa using hlen, List.forall_mem_append.2 ⟨hflat, by simp⟩, .inr ⟨v, hv, ?_⟩, ?_⟩
      · rw [hlast]
      · rwa [hlast, ← hothers]
    · match ts with
      | [t] => exact hcanonical t (by simp)
      | t :: u :: ts => exact .add hm hcanonical ⟨by simp, hflat, .inl hothers.symm, hdistinct⟩

end Kirchhoff.Expr
