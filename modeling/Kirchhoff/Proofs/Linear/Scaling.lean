import Kirchhoff.Proofs.Linear.Numbers
import Kirchhoff.Proofs.Linear.Simulation

/-!
# Scaling equations

An equation of numbers and unknowns may be multiplied by a number other than zero: its row is
multiplied by that number (`Equation.IsNumeric.linearRow?_scaled`), and so is all that an
elimination computes of the row. How good a pivot a row is does not change, since a coefficient is
measured by the greatest one of its own row, and what is negligible stays negligible
(`Gauge.isSimulation_scaled`). So the elimination takes the same pivots, fails alike, and gives the
same solution (`gaussJordan_scaled`), whatever the tolerance.
-/

namespace Kirchhoff

open Kirchhoff.Expr

/-- Both sides multiplied by a number. -/
def Equation.scaled (k : Rat) (q : Equation Rat) : Equation Rat :=
  ⟨.number k * q.lhs, .number k * q.rhs⟩

/-- All entries multiplied by a number. -/
def LinearRow.scaled (k : Rat) (r : LinearRow Rat) : LinearRow Rat :=
  ⟨r.coefficients.map (.number k * ·), .number k * r.rhs⟩

/-- A row during the elimination with all entries multiplied by a number. -/
def PivotRow.scaled (k : Rat) (r : PivotRow Rat) : PivotRow Rat :=
  { r.toLinearRow.scaled k with scale := |k| * r.scale, isUsed := r.isUsed }

variable {k l : Rat}

/-! ### Magnitudes -/

theorem Scalar.max_mul (hk : 0 < k) (x y : Rat) :
    Scalar.max (k * x) (k * y) = k * Scalar.max x y := by
  unfold Scalar.max
  simp only [mul_lt_mul_iff_right₀ hk]
  split <;> rfl

theorem Scalar.foldl_max_mul (hk : 0 < k) (xs : List Rat) (m : Rat) :
    (xs.map (k * ·)).foldl Scalar.max (k * m) = k * xs.foldl Scalar.max m := by
  induction xs generalizing m with
  | nil => rfl
  | cons x xs ih => rw [List.map_cons, List.foldl_cons, Scalar.max_mul hk, ih, List.foldl_cons]

theorem Gauge.prune_mul (hk : k ≠ 0) (tolerance x y : Rat) :
    prune tolerance (k * x) (k * y) = k * prune tolerance x y := by
  have hk : 0 < |k| := abs_pos.2 hk
  simp only [prune, ← mul_sub, abs_mul, Scalar.max_mul hk, mul_left_comm tolerance,
    mul_le_mul_iff_right₀ hk]
  split
  · rw [mul_zero]
  · rfl

namespace Expr

variable {e : Expr Rat} {g : Gauge Rat}

theorem isZero_scaled (hk : k ≠ 0) (he : ∃ v, e = .number v) :
    (.number k * e : Expr Rat).isZero = e.isZero := by
  obtain ⟨v, rfl⟩ := he
  simp [number_times, isZero_number, hk]

/-- The magnitude of a number is scaled by that of the factor. -/
theorem magnitude_scaled (hg : g.MeasuresNumbers) (he : ∃ v, e = .number v) :
    g.magnitude (.number k * e) = |k| * g.magnitude e := by
  obtain ⟨v, rfl⟩ := he
  rw [number_times, hg, hg, abs_mul]

theorem over_scaled (hk : k ≠ 0) {d : Expr Rat} (he : ∃ v, e = .number v)
    (hd : ∃ v, d = .number v) (hzero : d.isZero = false) :
    (.number k * e) / (.number k * d) = e / d := by
  obtain ⟨v, rfl⟩ := he
  obtain ⟨w, rfl⟩ := hd
  have hw : w ≠ 0 := by simpa [isZero_number] using hzero
  rw [number_times, number_times, number_over (mul_ne_zero hk hw), number_over hw,
    mul_div_mul_left _ _ hk]

/-- Between a scaled row and a scaled pivot row the ratio is scaled by both numbers, so that the
multiple of the pivot row is scaled as the row. -/
theorem multiple_scaled (hl : l ≠ 0) {a b e : Expr Rat} (ha : ∃ v, a = .number v)
    (hb : ∃ v, b = .number v) (he : ∃ v, e = .number v) (hzero : b.isZero = false) :
    .number k * a / (.number l * b) * (.number l * e) = .number k * (a / b * e) := by
  obtain ⟨u, rfl⟩ := ha
  obtain ⟨w, rfl⟩ := hb
  obtain ⟨y, rfl⟩ := he
  have hw : w ≠ 0 := by simpa [isZero_number] using hzero
  have hratio : k * u / (l * w) * (l * y) = k * (u / w * y) := by field_simp
  simp only [number_times, number_over (mul_ne_zero hl hw), number_over hw, hratio]

end Expr

/-! ### Eliminating scaled rows -/

theorem LinearRow.coefficient_scaled (r : LinearRow Rat) (j : ℕ) :
    (r.scaled k).coefficient j = .number k * r.coefficient j := by
  unfold LinearRow.coefficient LinearRow.scaled
  cases hj : r.coefficients[j]? with
  | none => simp [hj, number_times]
  | some e => simp [hj]

theorem LinearRow.IsNumeric.scaled {r : LinearRow Rat} (h : r.IsNumeric) (k : Rat) :
    (r.scaled k).IsNumeric := by
  have hnumber {e : Expr Rat} (he : ∃ v, e = .number v) : ∃ v, .number k * e = .number v := by
    obtain ⟨v, rfl⟩ := he
    exact ⟨k * v, number_times k v⟩
  exact List.forall_mem_cons.2
    ⟨hnumber h.rhs, List.forall_mem_map.2 fun e he => hnumber (h.mem_coefficients he)⟩

theorem PivotRow.coefficient_scaled (r : PivotRow Rat) (j : ℕ) :
    (r.scaled k).coefficient j = .number k * r.coefficient j :=
  r.toLinearRow.coefficient_scaled j

namespace Gauge

variable {g : Gauge Rat} {c p : ℕ} {rows rows' : List (PivotRow Rat)} {pivot row : PivotRow Rat}

theorem rowScale_scaled (hg : g.MeasuresNumbers) (hk : k ≠ 0) {r : LinearRow Rat}
    (hr : r.IsNumeric) : g.rowScale (r.scaled k) = |k| * g.rowScale r := by
  have hmagnitudes : (r.scaled k).coefficients.map g.magnitude =
      (r.coefficients.map g.magnitude).map (|k| * ·) := by
    simp only [LinearRow.scaled, List.map_map]
    exact List.map_congr_left fun e he => magnitude_scaled hg (hr.mem_coefficients he)
  rw [rowScale, rowScale, hmagnitudes, ← Scalar.foldl_max_mul (abs_pos.2 hk), mul_zero]

/-- What counts for a pivot is relative to its row, so factors cancel. -/
theorem relative?_scaled (hg : g.MeasuresNumbers) (hk : k ≠ 0) (hrow : row.IsNumeric) :
    g.relative? c (row.scaled k) = g.relative? c row := by
  have hrowScale : g.rowScale (row.scaled k).toLinearRow = |k| * g.rowScale row.toLinearRow :=
    rowScale_scaled hg hk hrow
  have hc := hrow.coefficient c
  simp only [relative?, PivotRow.coefficient_scaled, isZero_scaled hk hc, hrowScale,
    magnitude_scaled hg hc, mul_div_mul_left _ _ (abs_ne_zero.2 hk)]
  rfl

/-- Pruning is relative to the entry before, so factors cancel. -/
theorem reduce_scaled (hg : g.MeasuresNumbers) (hk : k ≠ 0) {old delta : Expr Rat}
    (hold : ∃ v, old = .number v) (hdelta : ∃ v, delta = .number v) :
    g.reduce (.number k * old) (.number k * delta) = .number k * g.reduce old delta := by
  obtain ⟨x, rfl⟩ := hold
  obtain ⟨y, rfl⟩ := hdelta
  simp only [number_times, reduce_number hg, prune_mul hk]

theorem zipWith_congr {β γ δ : Type} {f f' : β → γ → δ} {bs : List β} {cs : List γ}
    (h : ∀ b ∈ bs, ∀ c ∈ cs, f b c = f' b c) : List.zipWith f bs cs = List.zipWith f' bs cs := by
  simp only [← List.map_uncurry_zip_eq_zipWith]
  exact List.map_congr_left fun p hp => h p.1 (List.of_mem_zip hp).1 p.2 (List.of_mem_zip hp).2

/-- Eliminating an unknown from a scaled row by a scaled pivot row gives the scaled result. -/
theorem eliminate_scaled (hg : g.MeasuresNumbers) (hk : k ≠ 0) (hl : l ≠ 0)
    (hpivot : pivot.IsNumeric) (hrow : row.IsNumeric)
    (hc : (pivot.coefficient c).isZero = false) :
    g.eliminate (pivot.scaled l) c (row.scaled k) = (g.eliminate pivot c row).scaled k := by
  have hrc := hrow.coefficient c
  have hpc := hpivot.coefficient c
  have hentries : List.zipWith (fun old (kc : Expr Rat × ℕ) =>
        if kc.2 = c then .number 0 else if kc.1.isZero then old
        else g.reduce old
          (.number k * row.coefficient c / (.number l * pivot.coefficient c) * kc.1))
        (row.scaled k).coefficients (pivot.scaled l).coefficients.zipIdx =
      (List.zipWith (fun old (kc : Expr Rat × ℕ) =>
        if kc.2 = c then .number 0 else if kc.1.isZero then old
        else g.reduce old (row.coefficient c / pivot.coefficient c * kc.1))
        row.coefficients pivot.coefficients.zipIdx).map (.number k * ·) := by
    simp only [PivotRow.scaled, LinearRow.scaled, List.zipIdx_map, List.zipWith_map,
      List.map_zipWith]
    refine zipWith_congr fun old hold kc hkc => ?_
    have hold := hrow.mem_coefficients hold
    have he := hpivot.mem_coefficients (List.mem_of_getElem? (List.mem_zipIdx_iff_getElem?.1 hkc))
    simp only [Prod.map, id, isZero_scaled hl he, multiple_scaled hl hrc hpc he hc,
      reduce_scaled hg hk hold (exists_multiple hrc hpc he hc)]
    split_ifs
    · rw [number_times, mul_zero]
    · rfl
    · rfl
  have hzero : (pivot.scaled l).rhs.isZero = pivot.rhs.isZero := isZero_scaled hl hpivot.rhs
  have hdelta : .number k * row.coefficient c / (.number l * pivot.coefficient c) *
      (pivot.scaled l).rhs = .number k * (row.coefficient c / pivot.coefficient c * pivot.rhs) :=
    multiple_scaled hl hrc hpc hpivot.rhs hc
  have hmultiple := exists_multiple hrc hpc hpivot.rhs hc
  unfold eliminate
  simp only [PivotRow.coefficient_scaled, isZero_scaled hk hrc, hzero, hdelta, hentries]
  split_ifs
  · rfl
  · rfl
  · have hreduce := reduce_scaled hg hk hrow.rhs hmultiple
    have hscale : Scalar.max (|k| * row.scale) (|k| * g.magnitude _) = _ :=
      Scalar.max_mul (abs_pos.2 hk) row.scale
        (g.magnitude (row.coefficient c / pivot.coefficient c * pivot.rhs))
    simp only [PivotRow.scaled, LinearRow.scaled, hreduce, magnitude_scaled hg hmultiple, hscale]

/-- The row at each position is one of numbers, multiplied by the number at that position. -/
def IsScaled (k : ℕ → Rat) (r : ℕ) (row row' : PivotRow Rat) : Prop :=
  row.IsNumeric ∧ row' = row.scaled (k r)

variable {k : ℕ → Rat}

/-- Elimination of scaled rows follows that of the rows. -/
theorem isSimulation_scaled (hg : g.MeasuresNumbers) (hk : ∀ r, k r ≠ 0) :
    g.IsSimulation (IsScaled k) where
  relative h := by
    obtain ⟨hrow, rfl⟩ := h
    exact relative?_scaled hg (hk _) hrow
  used h := by
    obtain ⟨hrow, rfl⟩ := h
    exact ⟨hrow, rfl⟩
  eliminate hpivot hx h := by
    obtain ⟨hpivot, rfl⟩ := hpivot
    obtain ⟨hrow, rfl⟩ := h
    have hc := isZero_of_relative? hx
    exact ⟨isNumeric_eliminate hg hpivot hrow hc,
      eliminate_scaled hg (hk _) (hk _) hpivot hrow hc⟩

theorem Matches.eq_mapIdx (h : Matches (IsScaled k) rows rows') :
    rows' = rows.mapIdx fun r row => row.scaled (k r) := by
  refine List.ext_getElem? fun r => ?_
  rw [List.getElem?_mapIdx]
  exact h.getElem?_eq And.right r

theorem Matches.isNumeric (h : Matches (IsScaled k) rows rows') : ∀ row ∈ rows, row.IsNumeric := by
  intro row hrow
  obtain ⟨r, hr⟩ := List.mem_iff_getElem?.1 hrow
  obtain ⟨-, -, hnumeric, -⟩ := h.exists_right hr
  exact hnumeric

/-- Of scaled rows the same one contradicts, with its right-hand side scaled. -/
theorem contradiction?_scaled (hg : g.MeasuresNumbers) (hk : ∀ r, k r ≠ 0)
    (h : Matches (IsScaled k) rows rows') :
    g.contradiction? rows' =
      (g.contradiction? rows).map fun re => (re.1, .number (k re.1) * re.2) := by
  have hzipIdx : rows'.zipIdx = rows.zipIdx.map fun rr => (rr.1.scaled (k rr.2), rr.2) := by
    rw [h.eq_mapIdx]
    refine List.ext_getElem? fun r => ?_
    simp only [List.getElem?_zipIdx, List.getElem?_mapIdx, List.getElem?_map, Option.map_map,
      Nat.zero_add]
    rfl
  rw [contradiction?, contradiction?, hzipIdx, List.find?_map, Option.map_map, Option.map_map]
  congr 1
  refine List.find?_congr fun rr hrr => ?_
  have hrhs := (h.isNumeric rr.1 (List.mem_of_getElem? (List.mem_zipIdx_iff_getElem?.1 hrr))).rhs
  have hlt : g.tolerance * (|k rr.2| * rr.1.scale) < |k rr.2| * g.magnitude rr.1.rhs ↔
      g.tolerance * rr.1.scale < g.magnitude rr.1.rhs := by
    rw [mul_left_comm, mul_lt_mul_iff_right₀ (abs_pos.2 (hk _))]
  simp only [Function.comp, PivotRow.scaled, LinearRow.scaled, isZero_scaled (hk _) hrhs,
    magnitude_scaled hg hrhs, hlt]

/-! ### Pivots at the end -/

/-- The rows have one length, and those that no column used have zeros in the columns before. -/
def IsReduced (n c : ℕ) (rows : List (PivotRow Rat)) : Prop :=
  ∀ row ∈ rows, row.coefficients.length = n ∧
    (row.isUsed = false → ∀ j < c, (row.coefficient j).isZero = true)

variable {n j : ℕ} {us : List Symbol} {pivots : List ℕ}

/-- In a column where the pivot row has a zero, elimination changes nothing. -/
theorem eliminate_coefficient_of_isZero
    (hlen : row.coefficients.length = pivot.coefficients.length) (hjc : j ≠ c)
    (hj : (pivot.coefficient j).isZero = true) :
    (g.eliminate pivot c row).coefficient j = row.coefficient j := by
  cases hz : (row.coefficient c).isZero with
  | true => rw [eliminate_of_isZero hz]
  | false =>
    rw [eliminate_coefficient hlen hz, if_neg hjc, if_pos hj]
    split
    · rfl
    · rename_i hlt
      exact (LinearRow.coefficient_eq_zero (not_lt.1 hlt)).symm

theorem isZero_eliminate (hlen : row.coefficients.length = pivot.coefficients.length) :
    ((g.eliminate pivot c row).coefficient c).isZero = true := by
  cases hz : (row.coefficient c).isZero with
  | true => rw [eliminate_of_isZero hz, hz]
  | false =>
    rw [eliminate_coefficient hlen hz, if_pos rfl, ite_self]
    rfl

/-- Clearing a column leaves the columns before it as they are. -/
theorem IsReduced.clearColumn_coefficient (h : IsReduced n c rows) (hpivot : rows[p]? = some pivot)
    (hunused : pivot.isUsed = false) {r : ℕ} (hrow : rows[r]? = some row) :
    ∃ row', (g.clearColumn rows c p pivot)[r]? = some row' ∧
      (∀ j < c, row'.coefficient j = row.coefficient j) ∧
      (r = p → row'.coefficient c = row.coefficient c) := by
  obtain ⟨hplen, hpzero⟩ := h pivot (List.mem_of_getElem? hpivot)
  obtain ⟨hlen, -⟩ := h row (List.mem_of_getElem? hrow)
  rw [getElem?_clearColumn, hrow]
  dsimp only [Option.map_some]
  refine ⟨_, rfl, fun j hj => ?_, fun hr => ?_⟩
  · split
    · rfl
    · exact eliminate_coefficient_of_isZero (hlen.trans hplen.symm) (Nat.ne_of_lt hj)
        (hpzero hunused j hj)
  · rw [if_pos hr]

theorem IsReduced.clearColumn (h : IsReduced n c rows) (hpivot : rows[p]? = some pivot)
    (hunused : pivot.isUsed = false) : IsReduced n (c + 1) (g.clearColumn rows c p pivot) := by
  obtain ⟨hplen, hpzero⟩ := h pivot (List.mem_of_getElem? hpivot)
  intro row' hrow'
  obtain ⟨r, hr, rfl⟩ := List.mem_mapIdx.1 hrow'
  obtain ⟨hlen, hzero⟩ := h _ (List.getElem_mem hr)
  split
  · exact ⟨hlen, nofun⟩
  · have hlen' := hlen.trans hplen.symm
    refine ⟨(eliminate_length hlen').trans hlen, fun hused j hj => ?_⟩
    rw [eliminate_isUsed] at hused
    obtain hj | rfl := Nat.lt_succ_iff_lt_or_eq.1 hj
    · rw [eliminate_coefficient_of_isZero hlen' (Nat.ne_of_lt hj) (hpzero hunused j hj)]
      exact hzero hused j hj
    · exact isZero_eliminate hlen'

/-- A run leaves the columns before it as they are, and its pivots are not zero at the end. -/
theorem run_pivots (hrun : g.run us c rows = .ok (rows', pivots)) (h : IsReduced n c rows) :
    (∀ (r : ℕ) (row : PivotRow Rat), rows[r]? = some row → ∃ row' : PivotRow Rat,
      rows'[r]? = some row' ∧ ∀ j < c, row'.coefficient j = row.coefficient j) ∧
    ∀ (i p : ℕ), pivots[i]? = some p → ∃ row' : PivotRow Rat,
      rows'[p]? = some row' ∧ (row'.coefficient (c + i)).isZero = false := by
  induction us generalizing c rows pivots with
  | nil =>
    obtain ⟨rfl, rfl⟩ : rows = rows' ∧ [] = pivots := by simpa [run] using hrun
    exact ⟨fun r row hrow => ⟨row, hrow, fun _ _ => rfl⟩, by simp⟩
  | cons u us ih =>
    obtain ⟨p, pivot, ps, hp, hpivot, rfl, htail⟩ := run_cons hrun
    obtain ⟨row, x, hrow, hx⟩ := relative?_of_pivot? hp
    obtain rfl : row = pivot := Option.some.inj (hrow.symm.trans hpivot)
    have hunused := (relative?_eq_some hx).1
    obtain ⟨hkeep, hpivots⟩ := ih htail (h.clearColumn hpivot hunused)
    refine ⟨fun r row hrow => ?_, fun i q hq => ?_⟩
    · obtain ⟨row₁, hrow₁, hcolumns, -⟩ := h.clearColumn_coefficient hpivot hunused hrow
      obtain ⟨row', hrow', hcolumns'⟩ := hkeep r row₁ hrow₁
      exact ⟨row', hrow', fun j hj => (hcolumns' j (Nat.lt_succ_of_lt hj)).trans (hcolumns j hj)⟩
    · cases i with
      | zero =>
        obtain rfl : p = q := by simpa using hq
        obtain ⟨row₁, hrow₁, -, hcolumn⟩ := h.clearColumn_coefficient hpivot hunused hpivot
        obtain ⟨row', hrow', hcolumns'⟩ := hkeep p row₁ hrow₁
        refine ⟨row', hrow', ?_⟩
        rw [Nat.add_zero, hcolumns' c (Nat.lt_succ_self c), hcolumn rfl]
        exact isZero_of_relative? hx
      | succ i =>
        rw [show c + (i + 1) = c + 1 + i by omega]
        exact hpivots i q (by simpa using hq)

end Gauge

/-! ### Rows of scaled equations -/

/-- The number of the unknown at a position. -/
def idAt (unknowns : List Symbol) (j : ℕ) : ℕ := (unknowns[j]?.map (·.id)).getD 0

theorem areValues_ofIds (unknowns : List Symbol) (y : ℕ → Rat) :
    AreValues (Environment.ofIds fun i => some (y i)) unknowns fun j => y (idAt unknowns j) := by
  intro j u hu v hv
  obtain rfl : y u.id = v := Option.some.inj hv
  simp [idAt, Option.mem_def.1 hu]

theorem unknownIndex?_congr {unknowns : List Symbol} {s t : Symbol} (h : (s == t) = true) :
    unknownIndex? unknowns s = unknownIndex? unknowns t := by
  have hbeq (u : Symbol) : (u == s) = (u == t) := by
    rw [Bool.eq_iff_iff, Symbol.beq_iff, Symbol.beq_iff, Symbol.beq_iff.1 h]
  simp only [unknownIndex?, hbeq]

/-- A combination of unknowns that has one value, whatever the unknowns are, is zero. -/
theorem eq_zero_of_sum (unknowns : List Symbol) {d : ℕ → Rat} {b : Rat}
    (hd : ∀ j, (∀ s, unknownIndex? unknowns s ≠ some j) → d j = 0)
    (h : ∀ y : ℕ → Rat, ∑ j ∈ Finset.range unknowns.length, d j * y (idAt unknowns j) = b) :
    b = 0 ∧ ∀ j, d j = 0 := by
  have hb : b = 0 := by simpa using (h 0).symm
  subst hb
  refine ⟨rfl, fun j => ?_⟩
  by_contra hne
  obtain ⟨s, hs⟩ : ∃ s, unknownIndex? unknowns s = some j := by
    by_contra hnone
    exact hne (hd j (by simpa using hnone))
  have hid (t : Symbol) (i : ℕ) (ht : unknownIndex? unknowns t = some i) :
      i < unknowns.length ∧ idAt unknowns i = t.id := by
    obtain ⟨u, hu, hut⟩ := unknownIndex?_eq_some ht
    exact ⟨(List.getElem?_eq_some_iff.1 hu).1, by simp [idAt, hu, Symbol.beq_iff.1 hut]⟩
  obtain ⟨hj, hjs⟩ := hid s j hs
  -- Of the positions of one unknown, only the last has a coefficient.
  have hother (i : ℕ) (hi : i ≠ j) : d i * (if idAt unknowns i = s.id then 1 else 0) = 0 := by
    split
    · rename_i his
      rw [mul_one]
      refine hd i fun t ht => hi (Option.some.inj (ht.symm.trans ?_))
      rw [unknownIndex?_congr (Symbol.beq_iff.2 ((hid t i ht).2.symm.trans his)), hs]
    · rw [mul_zero]
  have hsum := h fun i => if i = s.id then 1 else 0
  rw [Finset.sum_eq_single j (fun i _ => hother i) (by simp [hj]), if_pos hjs, mul_one] at hsum
  exact hne hsum

namespace Equation.IsNumeric

variable {unknowns : List Symbol} {q : Equation Rat} {row : LinearRow Rat}

theorem scaled (h : q.IsNumeric unknowns) (k : Rat) : (q.scaled k).IsNumeric unknowns :=
  ⟨.multiple ⟨k, rfl⟩ h.1, .multiple ⟨k, rfl⟩ h.2⟩

theorem exists_row (h : q.IsNumeric unknowns) : ∃ row, q.linearRow? unknowns = some row := by
  obtain ⟨system, hsystem⟩ :=
    exists_linearSystem_of_isNumeric (List.forall_mem_singleton.2 h : ∀ q' ∈ [q], _)
  obtain ⟨row, -, hrow, -⟩ := List.forall₂_cons_left_iff.1 (linearSystem_rows hsystem)
  exact ⟨row, hrow⟩

/-- The row of a scaled equation is the scaled row. -/
theorem linearRow?_scaled (h : q.IsNumeric unknowns) (hrow : q.linearRow? unknowns = some row)
    (k : Rat) : (q.scaled k).linearRow? unknowns = some (row.scaled k) := by
  obtain ⟨row', hrow'⟩ := (h.scaled k).exists_row
  have hvalues : row'.rhs.value - k * row.rhs.value = 0 ∧
      ∀ j, (row'.coefficient j).value - k * (row.coefficient j).value = 0 := by
    refine eq_zero_of_sum unknowns (fun j hj => ?_) fun y => ?_
    · rw [h.coefficient_eq_zero hrow hj, (h.scaled k).coefficient_eq_zero hrow' hj]
      simp
    · have hx := areValues_ofIds unknowns y
      let ρ : Environment Rat := .ofIds fun i => some (y i)
      obtain ⟨l, r, hl, hr⟩ := h.exists_values (ρ := ρ) fun u _ => ⟨y u.id, rfl⟩
      have hsum := (h.residual_row hrow hx rfl hl hr).2
      have hsum' := ((h.scaled k).residual_row hrow' hx rfl (eval_times (eval_number k) hl)
        (eval_times (eval_number k) hr)).2
      simp only [sub_mul, Finset.sum_sub_distrib, mul_assoc, ← Finset.mul_sum]
      linear_combination k * hsum - hsum'
  have hnumeric := h.isNumeric_row hrow
  refine hrow'.trans (congrArg some ?_)
  refine ((h.scaled k).isNumeric_row hrow').ext (hnumeric.scaled k) ?_ (fun j => ?_) ?_
  · rw [linearRow?_length hrow', LinearRow.scaled, List.length_map, linearRow?_length hrow]
  · obtain ⟨v, hv⟩ := hnumeric.coefficient j
    rw [LinearRow.coefficient_scaled, sub_eq_zero.1 (hvalues.2 j), hv, number_times]
    rfl
  · obtain ⟨v, hv⟩ := hnumeric.rhs
    rw [LinearRow.scaled, sub_eq_zero.1 hvalues.1, hv, number_times]
    rfl

end Equation.IsNumeric

/-- The system of scaled equations consists of the scaled rows. -/
theorem linearSystem_scaled {equations : List (Equation Rat)} {unknowns : List Symbol}
    {system : List (LinearRow Rat)} (h : ∀ q ∈ equations, q.IsNumeric unknowns)
    (hsystem : linearSystem equations unknowns = .ok system) (k : ℕ → Rat) :
    linearSystem (equations.mapIdx fun i q => q.scaled (k i)) unknowns =
      .ok (system.mapIdx fun i row => row.scaled (k i)) := by
  have hscaled : ∀ q ∈ equations.mapIdx fun i q => q.scaled (k i), q.IsNumeric unknowns := by
    intro q' hq'
    obtain ⟨i, hi, rfl⟩ := List.mem_mapIdx.1 hq'
    exact (h _ (List.getElem_mem hi)).scaled (k i)
  obtain ⟨system', hsystem'⟩ := exists_linearSystem_of_isNumeric hscaled
  have hrows := linearSystem_rows hsystem
  have hrows' := linearSystem_rows hsystem'
  rw [hsystem']
  refine congrArg _ (List.ext_getElem ?_ fun i hi hi' => ?_)
  · simp [← hrows.length_eq, ← hrows'.length_eq]
  · have hi₁ : i < system.length := by simpa using hi'
    have hi₂ : i < equations.length := hrows.length_eq ▸ hi₁
    have hrow := hrows.get hi₂ hi₁
    have hrow' := hrows'.get (by simpa using hi₂) hi
    simp only [List.get_eq_getElem, List.getElem_mapIdx] at hrow hrow' ⊢
    have hmem := h _ (List.getElem_mem hi₂)
    exact Option.some.inj (hrow'.symm.trans (hmem.linearRow?_scaled hrow (k i)))

/-- What is reported of scaled equations: the same, with the residual scaled. -/
def SolverError.scaled (k : ℕ → Rat) : SolverError Rat → SolverError Rat
  | .inconsistent i e => .inconsistent i (.number (k i) * e)
  | e => e

namespace Gauge

variable {g : Gauge Rat} {system : List (LinearRow Rat)} {k : ℕ → Rat} {unknowns : List Symbol}

theorem matches_start (hg : g.MeasuresNumbers) (h : ∀ row ∈ system, row.IsNumeric) :
    Matches (IsScaled k) (system.map g.start)
      ((system.mapIdx fun i row => row.scaled (k i)).map g.start) := by
  intro r
  rw [List.getElem?_map, List.getElem?_map, List.getElem?_mapIdx]
  cases hr : system[r]? with
  | none => exact .none
  | some row =>
    have hrow := h row (List.mem_of_getElem? hr)
    have hscale : g.magnitude (row.scaled (k r)).rhs = |k r| * g.magnitude row.rhs :=
      magnitude_scaled hg hrow.rhs
    refine .some ⟨hrow, ?_⟩
    rw [start, hscale]
    rfl

/-- The solution is the same in scaled rows. -/
theorem solution_scaled {rows rows' : List (PivotRow Rat)} {pivots : List ℕ}
    (hk : ∀ i, k i ≠ 0) (h : Matches (IsScaled k) rows rows')
    (hpivots : ∀ (i p : ℕ), pivots[i]? = some p → ∃ row : PivotRow Rat,
      rows[p]? = some row ∧ (row.coefficient i).isZero = false) :
    ((unknowns.zip pivots).mapIdx fun c (u, p) => solutionOf rows' u c p) =
      (unknowns.zip pivots).mapIdx fun c (u, p) => solutionOf rows u c p := by
  refine List.mapIdx_eq_mapIdx_iff.2 fun c hc => ?_
  have hc : c < pivots.length := by
    rw [List.length_zip] at hc
    omega
  rw [List.getElem_zip]
  obtain ⟨row, hrow, hzero⟩ := hpivots c pivots[c] (List.getElem?_eq_getElem hc)
  obtain ⟨_, hrow', hnumeric, rfl⟩ := h.exists_right hrow
  simp only [solutionOf, hrow, hrow', PivotRow.coefficient_scaled]
  exact congrArg _ (over_scaled (hk _) hnumeric.rhs (hnumeric.coefficient c) hzero)

end Gauge

/-- **Scaling an equation changes nothing.** Both sides of each equation that is built from numbers
and unknowns may be multiplied by a number other than zero, another one for each equation. Whatever
the tolerance, the elimination takes the same pivots and gives the same solution; or it fails at the
same unknown; or it reports a contradiction in the same equation, with its residual multiplied. -/
theorem gaussJordan_scaled (tolerance : Rat) (probe : Symbol → Rat)
    {equations : List (Equation Rat)} {unknowns : List Symbol}
    (h : ∀ q ∈ equations, q.IsNumeric unknowns) {k : ℕ → Rat} (hk : ∀ i, k i ≠ 0) :
    let scaled := equations.mapIdx fun i q => q.scaled (k i)
    let g := Gauge.probing tolerance probe unknowns
    ∃ system system', linearSystem equations unknowns = .ok system ∧
      linearSystem scaled unknowns = .ok system' ∧
      (g.run unknowns 0 (system'.map g.start)).map (·.2) =
        (g.run unknowns 0 (system.map g.start)).map (·.2) ∧
      gaussJordan tolerance probe scaled unknowns =
        (gaussJordan tolerance probe equations unknowns).mapError (SolverError.scaled k) := by
  intro scaled g
  have hg := Gauge.measuresNumbers_probing tolerance probe unknowns
  obtain ⟨system, hsystem⟩ := exists_linearSystem_of_isNumeric h
  have hsystem' := linearSystem_scaled h hsystem k
  have hmatches := Gauge.matches_start (k := k) hg (isNumeric_linearSystem h hsystem)
  refine ⟨system, _, hsystem, hsystem', ?_⟩
  unfold gaussJordan
  rw [Gauge.solve_eq hsystem, Gauge.solve_eq hsystem']
  obtain ⟨e, he, he'⟩ | ⟨ends, ends', pivots, hends, hends', hmatches⟩ :=
    (Gauge.isSimulation_scaled hg hk).run unknowns 0 hmatches
  · obtain ⟨-, u, -, -, -, rfl, -, -⟩ := Gauge.run_error he
    rw [he, he']
    exact ⟨rfl, rfl⟩
  · have hreduced : Gauge.IsReduced unknowns.length 0 (system.map g.start) := by
      refine List.forall_mem_map.2 fun row hrow => ?_
      obtain ⟨q, -, hrow⟩ := exists_left_of_forall₂ (linearSystem_rows hsystem) hrow
      exact ⟨linearRow?_length hrow, fun _ j hj => absurd hj (Nat.not_lt_zero j)⟩
    have hpivots := (Gauge.run_pivots hends hreduced).2
    simp only [Nat.zero_add] at hpivots
    rw [hends, hends']
    refine ⟨rfl, ?_⟩
    dsimp only
    rw [Gauge.contradiction?_scaled hg hk hmatches, Gauge.solution_scaled hk hmatches hpivots]
    cases Gauge.contradiction? _ ends <;> rfl

/-- Two equations, one of them in units of a pico and the other with its sign changed. -/
theorem gaussJordan_scaled_pico :
    let x : Symbol := ⟨0, "x"⟩
    let y : Symbol := ⟨1, "y"⟩
    let equations : List (Equation Rat) :=
      [⟨.symbol x + .number 2 * .symbol y, .number 5⟩,
        ⟨.symbol x / .number 2 - .symbol y, .number (1 / 2)⟩]
    let k (i : ℕ) : Rat := if i = 0 then 1 / 10 ^ 12 else -3
    let probe (s : Symbol) : Rat := s.id + 1
    (∀ q ∈ equations, q.IsNumeric [x, y]) ∧ (∀ i, k i ≠ 0) ∧
    ∃ solution, evalAll Environment.bare (solution.map (·.rhs)) = some [3, 1] ∧
      gaussJordan (1 / 10 ^ 9) probe (equations.mapIdx fun i q => q.scaled (k i)) [x, y] =
        .ok solution := by
  intro x y equations k probe
  have hequations : ∀ q ∈ equations, q.IsNumeric [x, y] := by
    refine List.forall_mem_cons.2 ⟨?_, List.forall_mem_singleton.2 ?_⟩
    · exact ⟨.plus (.unknown (by simp)) (.multiple ⟨2, rfl⟩ (.unknown (by simp))),
        .constant ⟨5, rfl⟩⟩
    · exact ⟨.minus (.divide (.unknown (by simp)) ⟨2, two_ne_zero, rfl⟩) (.unknown (by simp)),
        .constant ⟨1 / 2, rfl⟩⟩
  have hk (i : ℕ) : k i ≠ 0 := by
    unfold k
    split <;> norm_num
  obtain ⟨-, -, -, -, -, hscaled⟩ := gaussJordan_scaled (1 / 10 ^ 9) probe hequations hk
  have hsolution := eq_ok_getD (y := gaussJordan (1 / 10 ^ 9) probe equations [x, y])
    (by decide +kernel)
  refine ⟨hequations, hk, (gaussJordan (1 / 10 ^ 9) probe equations [x, y]).toOption.getD [],
    by decide +kernel, ?_⟩
  rw [hscaled, hsolution]
  rfl

end Kirchhoff
