import ServingSim.Timing.GridInterpolation

/-
  The weighted policy past a grid of two axes (`timing::cache::linear_2d`).

  Past the grid the table is held at its boundary and one slope for each axis is added
  for what the query overshoots. The slopes are least-squares fits over the top band of
  the grid, by Cramer's rule on the normal equations. On affine samples the normal
  equations have the coefficients as their solution, so an accepted fit finds them
  exactly.

  Two coordinates that differ by no more than the tolerance of `locate` make a segment
  that is read as a point, so the affine value is not reproduced between them.

  What is proved:
    1. `weighted_not_exact` — close coordinates break exactness.
    2. `weighted_extrapolates` — continuity, monotonicity and additivity on every grid, and
       exactness on affine samples when different coordinates are apart.
-/

namespace ServingSim

open PiecewiseLinear

/-! ## No negative value -/

theorem accumulate_nonneg {corners : List Corner}
    (h : ∀ c ∈ corners, (∀ metric, 0 ≤ c.cell.get metric) ∧ 0 ≤ c.weight) (metric : Metric) :
    0 ≤ (accumulate corners).get metric := by
  rw [get_accumulate]
  apply List.sum_nonneg
  intro term hterm
  obtain ⟨c, hc, rfl⟩ := List.mem_map.mp hterm
  exact mul_nonneg ((h c hc).1 metric) (h c hc).2

theorem nearest_mem {corners : List Corner} {c : Corner} (h : nearest corners = some c) :
    c ∈ corners := by
  cases corners with
  | nil => cases h
  | cons first rest =>
    have hfold : ∀ (l : List Corner) (best : Corner), l.foldl (fun best c =>
        if c.distance < best.distance then c else best) best ∈ best :: l := by
      intro l
      induction l with
      | nil => simp
      | cons a l ih =>
        intro best
        rw [List.foldl_cons]
        obtain heq | hmem := List.mem_cons.mp (ih (if a.distance < best.distance then a else best))
        · rw [heq]
          split <;> simp
        · exact List.mem_cons_of_mem _ (List.mem_cons_of_mem _ hmem)
    have := hfold rest first
    rwa [Option.some.inj h] at this

theorem get_scale (m : Metrics4) (factor : ℚ) (metric : Metric) :
    (m.scale factor).get metric = m.get metric * factor := by
  cases metric <;> rfl

theorem blendCorners_nonneg {allFinite outside : Bool} {corners : List Corner}
    (h : ∀ c ∈ corners, (∀ metric, 0 ≤ c.cell.get metric) ∧ 0 ≤ c.weight) {cell : Metrics4}
    {leaning : Bool} (hblend : blendCorners allFinite outside corners = some (cell, leaning))
    (metric : Metric) : 0 ≤ cell.get metric := by
  have hsurviving : ∀ c ∈ corners.filter (·.valid),
      (∀ metric, 0 ≤ c.cell.get metric) ∧ 0 ≤ c.weight :=
    fun c hc => h c (List.mem_filter.mp hc).1
  unfold blendCorners at hblend
  split at hblend
  · obtain ⟨rfl, _⟩ := Prod.mk.inj (Option.some.inj hblend)
    exact accumulate_nonneg h metric
  · dsimp only at hblend
    split at hblend
    · obtain ⟨rfl, _⟩ := Prod.mk.inj (Option.some.inj hblend)
      exact accumulate_nonneg hsurviving metric
    · split at hblend
      · rename_i hsum
        obtain ⟨rfl, _⟩ := Prod.mk.inj (Option.some.inj hblend)
        rw [get_scale]
        apply mul_nonneg
        · apply accumulate_nonneg
          intro c hc
          obtain ⟨c', hc', rfl⟩ := List.mem_map.mp hc
          exact ⟨(hsurviving c' hc').1, le_max_right _ _⟩
        · exact div_nonneg zero_le_one (epsilon_pos.trans hsum).le
      · obtain ⟨c, hc, hcell⟩ := Option.map_eq_some_iff.mp hblend
        obtain ⟨rfl, _⟩ := Prod.mk.inj hcell
        exact (hsurviving c (nearest_mem hc)).1 metric

namespace Cache2DLinear

section weighted

variable (axis0 axis1 : List ℚ) (samples : List KernelMetrics)

/-- The cache under the weighted policy. -/
abbrev weighted : Cache2DLinear := build axis0 axis1 samples .weighted

/-- The largest coordinate of an axis. -/
def top (axis : List ℚ) : ℚ := coordinate (sortedAxis axis) (axis.length - 1)

/-- The smallest coordinate of an axis. -/
def bottom (axis : List ℚ) : ℚ := coordinate (sortedAxis axis) 0

/-- The point of the axis range that is nearest. -/
def held (axis : List ℚ) (x : ℚ) : ℚ := clampTo (bottom axis) (top axis) x

variable {axis0 axis1 samples}

variable {axis : List ℚ}

theorem bottom_le_top (hpos : axis ≠ []) : bottom axis ≤ top axis := by
  have hlength : 0 < axis.length := List.length_pos_iff.mpr hpos
  exact sortedAxis_ordered axis 0 (axis.length - 1) (Nat.zero_le _) (by
    rw [length_sortedAxis]
    omega)

theorem held_within (hpos : axis ≠ []) (x : ℚ) :
    bottom axis ≤ held axis x ∧ held axis x ≤ top axis := by
  have hle := bottom_le_top hpos
  unfold held clampTo
  split
  · exact ⟨le_rfl, hle⟩
  · rename_i hlow
    split
    · exact ⟨hle, le_rfl⟩
    · rename_i hhigh
      exact ⟨not_lt.mp hlow, not_lt.mp hhigh⟩

theorem held_of_top_le (hpos : axis ≠ []) {x : ℚ} (hx : top axis ≤ x) :
    held axis x = top axis := by
  have hle := bottom_le_top hpos
  unfold held clampTo
  rw [if_neg (not_lt.mpr (hle.trans hx))]
  split
  · rfl
  · rename_i hnot
    exact le_antisymm (not_lt.mp hnot) hx

theorem held_held (hpos : axis ≠ []) (x : ℚ) :
    held axis (held axis x) = held axis x := by
  obtain ⟨hlow, hhigh⟩ := held_within hpos x
  exact clampTo_eq hlow hhigh

theorem cells_nonneg (policy : Extrapolation) (index : Nat) (metric : Metric) :
    0 ≤ ((build axis0 axis1 samples policy).cells.getD index .zero).get metric := by
  rw [List.getD_eq_getElem?_getD]
  cases hget : (build axis0 axis1 samples policy).cells[index]? with
  | none =>
    rw [Option.getD_none, Metrics4.get_zero]
  | some cell =>
    rw [Option.getD_some]
    have hmem : cell ∈ List.map Prod.fst ((axisOrder axis0).flatMap fun i =>
        (axisOrder axis1).map fun j =>
          storedCell (samples.getD (i * axis1.length + j) .nonFinite)) :=
      List.mem_of_getElem? hget
    obtain ⟨stored, hstored, rfl⟩ := List.mem_map.mp hmem
    obtain ⟨i, _, hrow⟩ := List.mem_flatMap.mp hstored
    obtain ⟨j, _, rfl⟩ := List.mem_map.mp hrow
    exact storedCell_nonneg _ metric

theorem interpolateCell_nonneg (h0 : axis0 ≠ []) (h1 : axis1 ≠ []) {x0 x1 : ℚ}
    (hx0 : bottom axis0 ≤ x0 ∧ x0 ≤ top axis0) (hx1 : bottom axis1 ≤ x1 ∧ x1 ≤ top axis1)
    {policy : Extrapolation} {cell : Metrics4} {leaning : Bool}
    (hcell : (build axis0 axis1 samples policy).interpolateCell x0 x1 = some (cell, leaning))
    (metric : Metric) : 0 ≤ cell.get metric := by
  have hwithin : ∀ {axis : List ℚ} {x : ℚ}, bottom axis ≤ x ∧ x ≤ top axis →
      WithinAxis (sortedAxis axis) x := by
    intro axis x hx
    refine ⟨hx.1, ?_⟩
    rw [length_sortedAxis]
    exact hx.2
  have hpos : ∀ {axis : List ℚ}, axis ≠ [] → 0 < (sortedAxis axis).length := by
    intro axis haxis
    rw [length_sortedAxis]
    exact List.length_pos_iff.mpr haxis
  obtain ⟨_, _, ht0, ht0'⟩ := locate_weights (sortedAxis_ordered axis0) (hpos h0) (hwithin hx0)
  obtain ⟨_, _, ht1, ht1'⟩ := locate_weights (sortedAxis_ordered axis1) (hpos h1) (hwithin hx1)
  have hu0 := sub_nonneg.mpr ht0'
  have hu1 := sub_nonneg.mpr ht1'
  refine blendCorners_nonneg ?_ hcell metric
  intro c hc
  simp only [corners, List.mem_cons, List.not_mem_nil, or_false] at hc
  obtain rfl | rfl | rfl | rfl := hc
  · exact ⟨cells_nonneg policy _, mul_nonneg hu0 hu1⟩
  · exact ⟨cells_nonneg policy _, mul_nonneg hu0 ht1⟩
  · exact ⟨cells_nonneg policy _, mul_nonneg ht0 hu1⟩
  · exact ⟨cells_nonneg policy _, mul_nonneg ht0 ht1⟩

/-! ## The priced overshoot -/

/-- What a query goes beyond the axis. -/
def overshoot (axis : List ℚ) (x : ℚ) : ℚ := max (x - top axis) 0

theorem overshoot_nonneg (axis : List ℚ) (x : ℚ) : 0 ≤ overshoot axis x := le_max_right _ _

theorem overshoot_eq_zero {x : ℚ} (hx : x ≤ top axis) : overshoot axis x = 0 :=
  max_eq_right (sub_nonpos.mpr hx)

theorem overshoot_of_top_le {x : ℚ} (hx : top axis ≤ x) :
    overshoot axis x = x - top axis :=
  max_eq_left (sub_nonneg.mpr hx)

variable (axis0 axis1 samples)

/-- The metric a lookup hands out. -/
def value (x0 x1 : ℚ) (metric : Metric) : ℚ :=
  ((weighted axis0 axis1 samples).eval x0 x1).m.get metric

/-- The slopes in use: none if the fit was declined. -/
def slope0 (metric : Metric) : ℚ :=
  match (weighted axis0 axis1 samples).slopes with
  | some slopes => slopes.axis0.get metric
  | none => 0

def slope1 (metric : Metric) : ℚ :=
  match (weighted axis0 axis1 samples).slopes with
  | some slopes => slopes.axis1.get metric
  | none => 0

/-- The blend at the nearest point of the table, if there is one. -/
def boundary (x0 x1 : ℚ) : Option (Metrics4 × Bool) :=
  if (weighted axis0 axis1 samples).anyValid = false then none
  else (weighted axis0 axis1 samples).interpolateCell (held axis0 x0) (held axis1 x1)

variable {axis0 axis1 samples}

variable {band : List BandCell}

theorem fitted_nonneg (column : Fin 3) (metric : Metric) :
    0 ≤ fittedSlope band column metric :=
  le_max_right _ _

variable (axis0 axis1 samples) in
theorem slopes_nonneg (metric : Metric) :
    0 ≤ slope0 axis0 axis1 samples metric ∧ 0 ≤ slope1 axis0 axis1 samples metric := by
  unfold slope0 slope1
  cases hslopes : (weighted axis0 axis1 samples).slopes with
  | none => exact ⟨le_rfl, le_rfl⟩
  | some slopes =>
    change fitAxisSlopes _ _ _ _ = some slopes at hslopes
    unfold fitAxisSlopes at hslopes
    dsimp only at hslopes
    split at hslopes
    · cases hslopes
    · split at hslopes
      · cases hslopes
      · rw [← Option.some.inj hslopes]
        simp only [Metrics4.get_ofMetrics]
        exact ⟨fitted_nonneg 1 metric, fitted_nonneg 2 metric⟩

theorem lookup_weighted (x0 x1 : ℚ) : (weighted axis0 axis1 samples).lookup x0 x1 =
      match (weighted axis0 axis1 samples).interpolateCell (held axis0 x0) (held axis1 x1) with
      | none => none
      | some (cell, leaning) =>
        if held axis0 x0 = x0 ∧ held axis1 x1 = x1 then some (cell, leaning)
        else match (weighted axis0 axis1 samples).slopes with
          | some slopes =>
            some ((cell.addScaled slopes.axis0 (overshoot axis0 x0)).addScaled slopes.axis1
              (overshoot axis1 x1), true)
          | none => some (cell, true) := by
  have hxs0 : (weighted axis0 axis1 samples).xs0 = sortedAxis axis0 := rfl
  have hxs1 : (weighted axis0 axis1 samples).xs1 = sortedAxis axis1 := rfl
  have hpolicy : (weighted axis0 axis1 samples).extrapolation ≠ .product := by
    change Extrapolation.weighted ≠ .product
    decide
  rw [lookup, if_neg hpolicy, hxs0, hxs1, length_sortedAxis, length_sortedAxis]
  rfl

theorem eval_increment (samples : List KernelMetrics) (h0 : axis0 ≠ []) (h1 : axis1 ≠ [])
    (x0 x1 : ℚ) (metric : Metric) :
    value axis0 axis1 samples x0 x1 metric =
      match boundary axis0 axis1 samples x0 x1 with
      | none => 0
      | some (cell, _) => cell.get metric + slope0 axis0 axis1 samples metric * overshoot axis0 x0 +
          slope1 axis0 axis1 samples metric * overshoot axis1 x1 := by
  have hmiss : LeafMetrics.miss.m.get metric = 0 := Metrics4.get_zero metric
  unfold value boundary
  rw [eval]
  by_cases hany : (weighted axis0 axis1 samples).anyValid = false
  · rw [if_pos hany, if_pos hany, hmiss]
  · rw [if_neg hany, if_neg hany, lookup_weighted]
    cases hcell : (weighted axis0 axis1 samples).interpolateCell (held axis0 x0)
        (held axis1 x1) with
    | none => exact hmiss
    | some blended =>
      obtain ⟨cell, leaning⟩ := blended
      have hnonneg := interpolateCell_nonneg h0 h1 (held_within h0 x0) (held_within h1 x1) hcell
      obtain ⟨hslope0, hslope1⟩ := slopes_nonneg axis0 axis1 samples metric
      have hover0 := mul_nonneg hslope0 (overshoot_nonneg axis0 x0)
      have hover1 := mul_nonneg hslope1 (overshoot_nonneg axis1 x1)
      dsimp only
      by_cases hinside : held axis0 x0 = x0 ∧ held axis1 x1 = x1
      · have hin0 : overshoot axis0 x0 = 0 := overshoot_eq_zero (hinside.1 ▸ (held_within h0 x0).2)
        have hin1 : overshoot axis1 x1 = 0 := overshoot_eq_zero (hinside.2 ▸ (held_within h1 x1).2)
        rw [if_pos hinside, hin0, hin1]
        simp only [leafOf, Metrics4.clamped_eq hnonneg, mul_zero, add_zero]
      · rw [if_neg hinside]
        unfold slope0 slope1 at *
        cases hslopes : (weighted axis0 axis1 samples).slopes with
        | none =>
          simp only [leafOf, Metrics4.clamped_eq hnonneg, zero_mul, add_zero]
        | some slopes =>
          rw [hslopes] at hover0 hover1
          dsimp only at hover0 hover1 ⊢
          simp only [leafOf, Metrics4.get_clamped, Metrics4.get_addScaled]
          exact max_eq_left (add_nonneg (add_nonneg (hnonneg metric) hover0) hover1)

/-! ## Continuity, monotonicity, additivity -/

theorem boundary_held (h0 : axis0 ≠ []) (h1 : axis1 ≠ []) (x0 x1 : ℚ) :
    boundary axis0 axis1 samples (held axis0 x0) (held axis1 x1) =
      boundary axis0 axis1 samples x0 x1 := by
  rw [boundary, boundary, held_held h0, held_held h1]

/-- How the weighted policy continues the table of a grid. -/
structure ContinuesTable (axis0 axis1 : List ℚ) (samples : List KernelMetrics) : Prop where
  continuous : ∀ metric, ∃ rate, 0 ≤ rate ∧ ∀ x0 x1,
    |value axis0 axis1 samples x0 x1 metric -
      value axis0 axis1 samples (held axis0 x0) (held axis1 x1) metric| ≤
        rate * (overshoot axis0 x0 + overshoot axis1 x1)
  monotone0 : ∀ metric x0 y0 x1, top axis0 ≤ x0 → x0 ≤ y0 →
    value axis0 axis1 samples x0 x1 metric ≤ value axis0 axis1 samples y0 x1 metric
  monotone1 : ∀ metric x0 x1 y1, top axis1 ≤ x1 → x1 ≤ y1 →
    value axis0 axis1 samples x0 x1 metric ≤ value axis0 axis1 samples x0 y1 metric
  additive : ∀ metric x0 x1, top axis0 ≤ x0 → top axis1 ≤ x1 →
    let base := value axis0 axis1 samples (top axis0) (top axis1) metric
    value axis0 axis1 samples x0 x1 metric - base =
      (value axis0 axis1 samples x0 (top axis1) metric - base) +
        (value axis0 axis1 samples (top axis0) x1 metric - base)

theorem continuesTable (h0 : axis0 ≠ []) (h1 : axis1 ≠ []) :
    ContinuesTable axis0 axis1 samples := by
  have hvalue := eval_increment samples h0 h1
  have hslopes := slopes_nonneg axis0 axis1 samples
  constructor
  case continuous =>
    intro metric
    obtain ⟨hslope0, hslope1⟩ := hslopes metric
    refine ⟨slope0 axis0 axis1 samples metric + slope1 axis0 axis1 samples metric,
      add_nonneg hslope0 hslope1, ?_⟩
    intro x0 x1
    have hover0 := overshoot_nonneg axis0 x0
    have hover1 := overshoot_nonneg axis1 x1
    rw [hvalue, hvalue, boundary_held h0 h1, overshoot_eq_zero (held_within h0 x0).2,
      overshoot_eq_zero (held_within h1 x1).2]
    cases boundary axis0 axis1 samples x0 x1 with
    | none =>
      rw [sub_self, abs_zero]
      positivity
    | some blended =>
      dsimp only
      rw [abs_of_nonneg]
      · nlinarith [mul_nonneg hslope0 hover1, mul_nonneg hslope1 hover0]
      · nlinarith [mul_nonneg hslope0 hover0, mul_nonneg hslope1 hover1]
  case monotone0 =>
    intro metric x0 y0 x1 hx hxy
    rw [hvalue, hvalue, boundary, boundary, held_of_top_le h0 hx,
      held_of_top_le h0 (hx.trans hxy), overshoot_of_top_le hx,
      overshoot_of_top_le (hx.trans hxy)]
    split
    · exact le_rfl
    · have := mul_le_mul_of_nonneg_left (sub_le_sub_right hxy (top axis0)) (hslopes metric).1
      linarith
  case monotone1 =>
    intro metric x0 x1 y1 hx hxy
    rw [hvalue, hvalue, boundary, boundary, held_of_top_le h1 hx,
      held_of_top_le h1 (hx.trans hxy), overshoot_of_top_le hx,
      overshoot_of_top_le (hx.trans hxy)]
    split
    · exact le_rfl
    · have := mul_le_mul_of_nonneg_left (sub_le_sub_right hxy (top axis1)) (hslopes metric).2
      linarith
  case additive =>
    intro metric x0 x1 hx0 hx1
    dsimp only
    rw [hvalue, hvalue, hvalue, hvalue]
    simp only [boundary, held_of_top_le h0 hx0, held_of_top_le h1 hx1,
      held_of_top_le h0 le_rfl, held_of_top_le h1 le_rfl, overshoot_eq_zero le_rfl]
    split
    · ring
    · ring

/-! ## Fitting affine samples -/

theorem bandSum_combine {f g g' g'' : BandCell → ℚ} {a b c : ℚ}
    (h : ∀ cell ∈ band, f cell = a * g cell + b * g' cell + c * g'' cell) :
    bandSum band f = a * bandSum band g + b * bandSum band g' + c * bandSum band g'' := by
  unfold bandSum
  induction band with
  | nil => simp
  | cons cell band ih =>
    obtain ⟨hcell, hband⟩ := List.forall_mem_cons.mp h
    simp only [List.map_cons, List.sum_cons]
    rw [ih hband, hcell]
    ring

theorem bandSum_one (band : List BandCell) : bandSum band (fun _ => 1) = band.length := by
  simp [bandSum]

variable {metric : Metric} {a b0 b1 : ℚ}

theorem fittedSlope_affine
    (h : ∀ cell ∈ band, cell.cell.get metric = a + b0 * cell.x0 + b1 * cell.x1)
    (hdeterminant : determinant3x3 (normalMatrix band) ≠ 0) :
    fittedSlope band 1 metric = max b0 0 ∧ fittedSlope band 2 metric = max b1 0 := by
  have hsum : bandSum band (fun b => b.cell.get metric) =
      a * bandSum band (fun _ => 1) + b0 * bandSum band (fun b => b.x0) +
        b1 * bandSum band (fun b => b.x1) :=
    bandSum_combine fun cell hcell => by
      rw [h cell hcell]
      ring
  have hsum0 : bandSum band (fun b => b.x0 * b.cell.get metric) =
      a * bandSum band (fun b => b.x0) + b0 * bandSum band (fun b => b.x0 * b.x0) +
        b1 * bandSum band (fun b => b.x0 * b.x1) :=
    bandSum_combine fun cell hcell => by
      rw [h cell hcell]
      ring
  have hsum1 : bandSum band (fun b => b.x1 * b.cell.get metric) =
      a * bandSum band (fun b => b.x1) + b0 * bandSum band (fun b => b.x0 * b.x1) +
        b1 * bandSum band (fun b => b.x1 * b.x1) :=
    bandSum_combine fun cell hcell => by
      rw [h cell hcell]
      ring
  rw [bandSum_one] at hsum
  have hfirst : determinant3x3 (substitute (normalMatrix band) 1 (bandRhs band metric)) =
      b0 * determinant3x3 (normalMatrix band) := by
    simp [determinant3x3, substitute, normalMatrix, bandRhs, hsum, hsum0, hsum1]
    ring
  have hsecond : determinant3x3 (substitute (normalMatrix band) 2 (bandRhs band metric)) =
      b1 * determinant3x3 (normalMatrix band) := by
    simp [determinant3x3, substitute, normalMatrix, bandRhs, hsum, hsum0, hsum1]
    ring
  unfold fittedSlope
  rw [hfirst, hsecond, mul_div_cancel_right₀ _ hdeterminant, mul_div_cancel_right₀ _ hdeterminant]
  exact ⟨rfl, rfl⟩

theorem bandSum_square_nonneg (band : List BandCell) (f : BandCell → ℚ) :
    0 ≤ bandSum band fun b => f b * f b := by
  apply List.sum_nonneg
  intro term hterm
  obtain ⟨b, _, rfl⟩ := List.mem_map.mp hterm
  exact mul_self_nonneg (f b)

/-- A sample table that is affine in one metric. -/
def AffineSamples (axis0 axis1 : List ℚ) (samples : List KernelMetrics) (metric : Metric)
    (a b0 b1 : ℚ) : Prop :=
  ∀ i j, i < axis0.length → j < axis1.length →
    sampled axis1 samples metric i j = a + b0 * coordinate axis0 i + b1 * coordinate axis1 j

theorem slopeBand_affine (hall : AllFinite axis0 axis1 samples)
    (haffine : AffineSamples axis0 axis1 samples metric a b0 b1) :
    ∀ cell ∈ slopeBand (weighted axis0 axis1 samples).xs0 (weighted axis0 axis1 samples).xs1
        (weighted axis0 axis1 samples).cells (weighted axis0 axis1 samples).valid,
      cell.cell.get metric = a + b0 * cell.x0 + b1 * cell.x1 := by
  intro cell hcell
  unfold slopeBand at hcell
  obtain ⟨i, hi, hrow⟩ := List.mem_flatMap.mp hcell
  have hi : i < axis0.length := by
    have := List.mem_range.mp hi
    rwa [show (weighted axis0 axis1 samples).xs0.length = axis0.length from
      length_sortedAxis axis0] at this
  split at hrow
  · cases hrow
  · obtain ⟨j, hj, hstored⟩ := List.mem_filterMap.mp hrow
    have hcolumns : (weighted axis0 axis1 samples).xs1.length = axis1.length :=
      length_sortedAxis axis1
    rw [hcolumns] at hj hstored
    have hj : j < axis1.length := List.mem_range.mp hj
    split at hstored
    · cases hstored
    · rw [← Option.some.inj hstored]
      dsimp only
      have hsample := build_cell samples .weighted hi hj
      rw [hsample, storedCell_of_finite (hall _ _ (origin_lt hi) (origin_lt hj))]
      have hvalue := haffine _ _ (origin_lt hi) (origin_lt hj)
      rw [← coordinate_sortedAxis hi, ← coordinate_sortedAxis hj] at hvalue
      exact hvalue

theorem slopes_exact (hall : AllFinite axis0 axis1 samples)
    (haccepted : (weighted axis0 axis1 samples).slopes.isSome = true)
    (haffine : AffineSamples axis0 axis1 samples metric a b0 b1) :
    slope0 axis0 axis1 samples metric = max b0 0 ∧
      slope1 axis0 axis1 samples metric = max b1 0 := by
  have hband := slopeBand_affine hall haffine
  obtain ⟨slopes, hslopes⟩ := Option.isSome_iff_exists.mp haccepted
  unfold slope0 slope1
  rw [hslopes]
  change fitAxisSlopes (weighted axis0 axis1 samples).xs0 (weighted axis0 axis1 samples).xs1
    (weighted axis0 axis1 samples).cells (weighted axis0 axis1 samples).valid =
      some slopes at hslopes
  unfold fitAxisSlopes at hslopes
  dsimp only at hslopes
  split at hslopes
  · cases hslopes
  · split at hslopes
    · cases hslopes
    · rename_i hdegenerate
      have hdeterminant : determinant3x3 (normalMatrix (slopeBand
          (weighted axis0 axis1 samples).xs0 (weighted axis0 axis1 samples).xs1
          (weighted axis0 axis1 samples).cells (weighted axis0 axis1 samples).valid)) ≠ 0 := by
        intro hzero
        apply hdegenerate
        rw [hzero, abs_zero]
        have hepsilon : 0 ≤ epsilon64 := by norm_num [epsilon64]
        apply mul_nonneg (mul_nonneg (mul_nonneg hepsilon _) _) _
        · exact Nat.cast_nonneg _
        · exact bandSum_square_nonneg _ fun b => b.x0
        · exact bandSum_square_nonneg _ fun b => b.x1
      rw [← Option.some.inj hslopes]
      simp only [Metrics4.get_ofMetrics]
      exact fittedSlope_affine hband hdeterminant

/-! ## Exactness on affine samples -/

theorem mem_sortedAxis {place : Nat} (hplace : place < axis.length) :
    coordinate (sortedAxis axis) place ∈ axis := by
  rw [coordinate_sortedAxis hplace, coordinate, List.getD_eq_getElem _ _ (origin_lt hplace)]
  exact List.getElem_mem _

theorem held_inRange (hpos : axis ≠ []) (x : ℚ) : InRange axis (held axis x) := by
  have hlength : 0 < axis.length := List.length_pos_iff.mpr hpos
  obtain ⟨hlow, hhigh⟩ := held_within hpos x
  exact ⟨⟨_, mem_sortedAxis hlength, hlow⟩, ⟨_, mem_sortedAxis (by omega), hhigh⟩⟩

theorem held_add_overshoot (hpos : axis ≠ []) {x : ℚ} (hx : bottom axis ≤ x) :
    held axis x + overshoot axis x = x := by
  obtain hle | hge := le_total x (top axis)
  · rw [held, clampTo_eq hx hle, overshoot_eq_zero hle, add_zero]
  · rw [held_of_top_le hpos hge, overshoot_of_top_le hge]
    ring

theorem boundary_affine (h0 : axis0 ≠ []) (h1 : axis1 ≠ []) (hspaced0 : AxisSpaced axis0)
    (hspaced1 : AxisSpaced axis1) (hall : AllFinite axis0 axis1 samples)
    (haffine : AffineSamples axis0 axis1 samples metric a b0 b1) (x0 x1 : ℚ) :
    ∃ cell, boundary axis0 axis1 samples x0 x1 = some (cell, false) ∧
      cell.get metric = a + b0 * held axis0 x0 + b1 * held axis1 x1 := by
  have hpos0 : 0 < axis0.length := List.length_pos_iff.mpr h0
  have hpos1 : 0 < axis1.length := List.length_pos_iff.mpr h1
  obtain ⟨hs0, hlocate0⟩ := hspaced0.holds (held_inRange h0 x0)
  obtain ⟨hs1, hlocate1⟩ := hspaced1.holds (held_inRange h1 x1)
  have hfinite : ∀ {p q : Nat} {P : Prop}, p < axis0.length → q < axis1.length →
      (sampleAt axis1 samples (origin axis0 p) (origin axis1 q)).isFinite = false → P := by
    intro p q P hp hq hdropped
    rw [hall _ _ (origin_lt hp) (origin_lt hq)] at hdropped
    exact absurd hdropped.symm Bool.false_ne_true
  obtain ⟨cell, hcell, hget⟩ := interpolateCell_nested samples .weighted hs0 hs1 hlocate0
    hlocate1 (by
      intro k k' hdropped
      refine ⟨?_, ?_, ?_, ?_⟩ <;> intro hk hk' <;> subst hk hk'
      · exact hfinite hs0.lo_lt hs1.lo_lt hdropped
      · exact hfinite hs0.lo_lt hs1.inside hdropped
      · exact hfinite hs0.inside hs1.lo_lt hdropped
      · exact hfinite hs0.inside hs1.inside hdropped)
  refine ⟨cell, ?_, ?_⟩
  · have hany : (weighted axis0 axis1 samples).anyValid = true :=
      build_anyValid samples .weighted hpos0 hpos1 (hall 0 0 hpos0 hpos1)
    rw [boundary, if_neg (by simp [hany])]
    exact hcell
  · -- the table is affine in the sorted coordinates
    have hvalue : ∀ p q, p < axis0.length → q < axis1.length →
        valueAt axis0 axis1 samples metric p q = (a + b0 * coordinate (sortedAxis axis0) p) +
          b1 * coordinate (sortedAxis axis1) q := by
      intro p q hp hq
      rw [valueAt, storedCell_of_finite (hall _ _ (origin_lt hp) (origin_lt hq)),
        coordinate_sortedAxis hp, coordinate_sortedAxis hq]
      exact haffine _ _ (origin_lt hp) (origin_lt hq)
    have hinner : ∀ p, p < axis0.length →
        ((segmentAt axis1 (held axis1 x1)).blend fun q => valueAt axis0 axis1 samples metric p q) =
          (a + b1 * held axis1 x1) + b0 * coordinate (sortedAxis axis0) p := by
      intro p hp
      rw [hs1.blend_affine (hvalue p _ hp hs1.lo_lt) (hvalue p _ hp hs1.inside)]
      ring
    rw [hget, hs0.blend_affine (hinner _ hs0.lo_lt) (hinner _ hs0.inside)]
    ring

theorem value_affine (h0 : axis0 ≠ []) (h1 : axis1 ≠ []) (hspaced0 : AxisSpaced axis0)
    (hspaced1 : AxisSpaced axis1) (hall : AllFinite axis0 axis1 samples)
    (haccepted : (weighted axis0 axis1 samples).slopes.isSome = true)
    (hb0 : 0 ≤ b0) (hb1 : 0 ≤ b1)
    (haffine : AffineSamples axis0 axis1 samples metric a b0 b1) {x0 x1 : ℚ}
    (hx0 : bottom axis0 ≤ x0) (hx1 : bottom axis1 ≤ x1) :
    value axis0 axis1 samples x0 x1 metric = a + b0 * x0 + b1 * x1 := by
  obtain ⟨cell, hboundary, hcell⟩ := boundary_affine h0 h1 hspaced0 hspaced1 hall haffine x0 x1
  obtain ⟨hslope0, hslope1⟩ := slopes_exact hall haccepted haffine
  have hsplit0 := held_add_overshoot h0 hx0
  have hsplit1 := held_add_overshoot h1 hx1
  rw [eval_increment samples h0 h1, hboundary, hslope0, hslope1, max_eq_left hb0, max_eq_left hb1]
  dsimp only
  rw [hcell]
  calc a + b0 * held axis0 x0 + b1 * held axis1 x1 + b0 * overshoot axis0 x0 +
        b1 * overshoot axis1 x1
      = a + b0 * (held axis0 x0 + overshoot axis0 x0) +
          b1 * (held axis1 x1 + overshoot axis1 x1) := by ring
    _ = a + b0 * x0 + b1 * x1 := by rw [hsplit0, hsplit1]

variable (axis0 axis1 samples) in
/-- An accepted fit of affine samples with no negative slope continues the function, at or
above the first point of both axes. -/
def ContinuesAffine : Prop :=
  AllFinite axis0 axis1 samples → (weighted axis0 axis1 samples).slopes.isSome = true →
  ∀ metric a b0 b1, 0 ≤ b0 → 0 ≤ b1 → AffineSamples axis0 axis1 samples metric a b0 b1 →
  ∀ x0 x1, bottom axis0 ≤ x0 → bottom axis1 ≤ x1 →
    value axis0 axis1 samples x0 x1 metric = a + b0 * x0 + b1 * x1

end weighted

/-! ## Coordinates closer than the tolerance -/

/-- Two of the coordinates differ by half the tolerance. -/
def closeAxis : List ℚ := [1 / 4, 1 / 2, 1 / 2 + epsilon / 2]

def shortAxis : List ℚ := [1, 2]

/-- The time is the first coordinate. -/
def closeSamples : List KernelMetrics := closeAxis.flatMap fun x0 =>
  shortAxis.map fun _ => .timed x0

theorem axisOrder_close : axisOrder closeAxis = [0, 1, 2] := by
  apply List.mergeSort_of_pairwise
  decide +kernel

theorem axisOrder_short : axisOrder shortAxis = [0, 1] := by
  apply List.mergeSort_of_pairwise
  decide +kernel

/-- **Affine samples need not be continued exactly**: between coordinates that differ by less
than the tolerance, the lookup stays at the lower one. -/
theorem weighted_not_exact : (∀ metric, ∃ a b0 b1, 0 ≤ b0 ∧ 0 ≤ b1 ∧
      AffineSamples closeAxis shortAxis closeSamples metric a b0 b1) ∧
    ¬ ContinuesAffine closeAxis shortAxis closeSamples := by
  have htime : AffineSamples closeAxis shortAxis closeSamples .timeMs 0 1 0 := by
    intro i j hi hj
    change i < 3 at hi
    change j < 2 at hj
    interval_cases i <;> interval_cases j <;> decide +kernel
  have hzero : ∀ metric, metric ≠ .timeMs →
      AffineSamples closeAxis shortAxis closeSamples metric 0 0 0 := by
    intro metric hmetric i j hi hj
    change i < 3 at hi
    change j < 2 at hj
    cases metric <;> interval_cases i <;> interval_cases j <;>
      first | exact absurd rfl hmetric | decide +kernel
  constructor
  · intro metric
    by_cases hmetric : metric = .timeMs
    · exact ⟨0, 1, 0, zero_le_one, le_rfl, hmetric ▸ htime⟩
    · exact ⟨0, 0, 0, le_rfl, le_rfl, hzero metric hmetric⟩
  · intro hexact
    have hall : AllFinite closeAxis shortAxis closeSamples := by
      intro i j hi hj
      change i < 3 at hi
      change j < 2 at hj
      interval_cases i <;> interval_cases j <;> decide +kernel
    have haccepted : (weighted closeAxis shortAxis closeSamples).slopes.isSome = true := by
      simp only [weighted, build, sortedAxis, axisOrder_close, axisOrder_short]
      decide +kernel
    have hbottom0 : bottom closeAxis ≤ 1 / 2 + epsilon / 2 := by
      simp only [bottom, sortedAxis, axisOrder_close]
      decide +kernel
    have hbottom1 : bottom shortAxis ≤ 1 := by
      simp only [bottom, sortedAxis, axisOrder_short]
      decide +kernel
    have hvalue : value closeAxis shortAxis closeSamples (1 / 2 + epsilon / 2) 1 .timeMs =
        1 / 2 := by
      simp only [value, weighted, build, sortedAxis, axisOrder_close, axisOrder_short]
      decide +kernel
    have := hexact hall haccepted .timeMs 0 1 0 zero_le_one le_rfl htime _ _ hbottom0 hbottom1
    rw [hvalue] at this
    norm_num [epsilon] at this

/-- **The weighted policy**, for every grid of two axes and its samples. -/
theorem weighted_extrapolates (grid : SweepGrid) (samples : List KernelMetrics)
    {axis0 axis1 : List ℚ} (hgrid : grid.axes = [axis0, axis1])
    (hcount : axis0.length * axis1.length = samples.length) :
    fromSamplesWith grid samples .weighted = .ok (weighted axis0 axis1 samples) ∧
    ContinuesTable axis0 axis1 samples ∧
    (AxisSpaced axis0 → AxisSpaced axis1 → ContinuesAffine axis0 axis1 samples) := by
  have h0 : axis0 ≠ [] := grid.filled axis0 (by simp [hgrid])
  have h1 : axis1 ≠ [] := grid.filled axis1 (by simp [hgrid])
  refine ⟨?_, continuesTable h0 h1, ?_⟩
  · unfold fromSamplesWith
    rw [hgrid]
    exact bind_eq_ok_iff.mpr ⟨(), ensure_eq_ok_iff.mpr hcount, rfl⟩
  · intro hspaced0 hspaced1 hall haccepted metric a b0 b1 hb0 hb1 haffine x0 x1 hx0 hx1
    exact value_affine h0 h1 hspaced0 hspaced1 hall haccepted hb0 hb1 haffine hx0 hx1

/-- The grid of the short axis on both sides. -/
def shortGrid : SweepGrid := ⟨[shortAxis, shortAxis], by decide, by decide +kernel⟩

/-- Samples that grow by 2 and by 3. -/
def shortSamples : List KernelMetrics := [.timed 5, .timed 8, .timed 7, .timed 10]

/-- The slopes are found, and a query far past the grid has the affine value. -/
theorem weighted_extrapolates_short : fromSamplesWith shortGrid shortSamples .weighted =
      .ok (weighted shortAxis shortAxis shortSamples) ∧
    value shortAxis shortAxis shortSamples 10 20 .timeMs = 2 * 10 + 3 * 20 := by
  obtain ⟨hok, _, haffine⟩ := weighted_extrapolates shortGrid shortSamples rfl rfl
  have hspaced : AxisSpaced shortAxis := by
    intro i j hi hj hlt
    change i < 2 at hi
    change j < 2 at hj
    interval_cases i <;> interval_cases j <;> revert hlt <;> decide +kernel
  have hall : AllFinite shortAxis shortAxis shortSamples := by
    intro i j hi hj
    change i < 2 at hi
    change j < 2 at hj
    interval_cases i <;> interval_cases j <;> decide +kernel
  have haccepted : (weighted shortAxis shortAxis shortSamples).slopes.isSome = true := by
    simp only [weighted, build, sortedAxis, axisOrder_short]
    decide +kernel
  have htime : AffineSamples shortAxis shortAxis shortSamples .timeMs 0 2 3 := by
    intro i j hi hj
    change i < 2 at hi
    change j < 2 at hj
    interval_cases i <;> interval_cases j <;> decide +kernel
  have hbottom : ∀ {x : ℚ}, 1 ≤ x → bottom shortAxis ≤ x := by
    intro x hx
    refine le_trans ?_ hx
    simp only [bottom, sortedAxis, axisOrder_short]
    decide +kernel
  refine ⟨hok, ?_⟩
  have := haffine hspaced hspaced hall haccepted .timeMs 0 2 3 (by norm_num) (by norm_num) htime
    10 20 (hbottom (by norm_num)) (hbottom (by norm_num))
  rw [this]
  ring

end Cache2DLinear

end ServingSim
