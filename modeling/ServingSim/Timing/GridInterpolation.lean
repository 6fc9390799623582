import ServingSim.Timing.GridLocate

/-
  The grid caches interpolate their samples (`timing::cache::linear_2d`, `linear_3d`).

  Inside the grid a lookup is a blend along the first axis of blends along the others,
  whichever way the corners were dropped, as long as the dropped ones have no weight.
  At a point of the grid only its own corner has weight, so a surviving one is returned
  as it is.

  What is proved:
    1. `grid_caches_interpolate` — surviving points exact with empty coverage; inside a
       grid without drops between the corners, exact for affine functions, the same for
       every policy, and monotone with the table.
-/

namespace ServingSim

open PiecewiseLinear

/-! ## Metrics field by field -/

namespace Metrics4

@[simp] theorem get_zero (metric : Metric) : Metrics4.zero.get metric = 0 := by
  cases metric <;> rfl

@[simp] theorem get_addScaled (m other : Metrics4) (weight : ℚ) (metric : Metric) :
    (m.addScaled other weight).get metric = m.get metric + other.get metric * weight := by
  cases metric <;> rfl

@[simp] theorem get_clamped (m : Metrics4) (metric : Metric) :
    m.clamped.get metric = max (m.get metric) 0 := by
  cases metric <;> rfl

@[simp] theorem get_ofMetrics (f : Metric → ℚ) (metric : Metric) :
    (ofMetrics f).get metric = f metric := by
  cases metric <;> rfl

theorem ext_get {m m' : Metrics4} (h : ∀ metric, m.get metric = m'.get metric) : m = m' := by
  cases m
  cases m'
  have htime := h .timeMs
  have hflops := h .flops
  have hbytes := h .bytes
  have henergy := h .energyJ
  simp only [get] at htime hflops hbytes henergy
  rw [htime, hflops, hbytes, henergy]

theorem clamped_eq {m : Metrics4} (h : ∀ metric, 0 ≤ m.get metric) : m.clamped = m :=
  ext_get fun metric => by rw [get_clamped, max_eq_left (h metric)]

end Metrics4

theorem amount_nonneg (rate timeMs : Reading) (unit : ℚ) :
    0 ≤ KernelMetrics.amount rate timeMs unit := by
  unfold KernelMetrics.amount
  split
  · dsimp only
    split
    · apply le_min
      · exact Nat.cast_nonneg _
      · norm_num
    · exact le_refl 0
  · exact le_refl 0

theorem storedCell_nonneg (sample : KernelMetrics) (metric : Metric) :
    0 ≤ (storedCell sample).1.get metric := by
  unfold storedCell
  split
  · rename_i hfinite
    simp only [KernelMetrics.isFinite, Bool.and_eq_true] at hfinite
    obtain ⟨⟨htime, henergy⟩, _⟩ := hfinite
    have hreading : ∀ value : Reading, finiteNonNegative value = true → 0 ≤ value.getD 0 := by
      intro value hvalue
      cases value with
      | none => exact le_refl 0
      | some value => exact of_decide_eq_true hvalue
    cases metric with
    | timeMs => exact hreading _ htime
    | flops =>
      change 0 ≤ sample.flops
      unfold KernelMetrics.flops
      split
      · exact le_refl 0
      · exact amount_nonneg _ _ _
    | bytes =>
      change 0 ≤ sample.bytes
      unfold KernelMetrics.bytes
      split
      · exact amount_nonneg _ _ _
      · split
        · exact amount_nonneg _ _ _
        · exact le_refl 0
    | energyJ => exact hreading _ henergy
  · rw [Metrics4.get_zero]

theorem storedCell_of_finite {sample : KernelMetrics} (h : sample.isFinite = true) :
    storedCell sample = (Metrics4.fromSample sample, true) := by
  rw [storedCell, if_pos h]

theorem storedCell_valid_iff (sample : KernelMetrics) :
    (storedCell sample).2 = sample.isFinite := by
  unfold storedCell
  split
  · rename_i h
    rw [h]
  · rename_i h
    simpa using h

/-! ## Corners -/

theorem get_accumulate (corners : List Corner) (metric : Metric) : (accumulate corners).get metric =
      (corners.map fun c => c.cell.get metric * c.weight).sum := by
  have hfold : ∀ acc : Metrics4, (corners.foldl (fun acc corner =>
      acc.addScaled corner.cell corner.weight) acc).get metric =
        acc.get metric + (corners.map fun c => c.cell.get metric * c.weight).sum := by
    induction corners with
    | nil => simp
    | cons corner corners ih =>
      intro acc
      rw [List.foldl_cons, ih, Metrics4.get_addScaled, List.map_cons, List.sum_cons, add_assoc]
  rw [accumulate, hfold, Metrics4.get_zero, zero_add]

theorem blendCorners_whole (allFinite outside : Bool) (corners : List Corner)
    (h : ∀ c ∈ corners, c.valid = false → c.weight = 0) :
    ∃ cell, blendCorners allFinite outside corners = some (cell, outside) ∧
      ∀ metric, cell.get metric = (corners.map fun c => c.cell.get metric * c.weight).sum := by
  unfold blendCorners
  by_cases hall : allFinite = true
  · rw [if_pos hall]
    exact ⟨_, rfl, get_accumulate corners⟩
  · rw [if_neg hall]
    have hdrop : (corners.any fun c => !c.valid && decide (epsilon < |c.weight|)) = false := by
      rw [List.any_eq_false]
      intro c hc hdropped
      simp only [Bool.and_eq_true, Bool.not_eq_eq_eq_not, Bool.not_true, decide_eq_true_eq]
        at hdropped
      rw [h c hc hdropped.1, abs_zero] at hdropped
      exact absurd hdropped.2 (not_lt.mpr epsilon_pos.le)
    simp only [hdrop, if_true]
    refine ⟨_, rfl, ?_⟩
    intro metric
    rw [get_accumulate]
    clear hdrop
    induction corners with
    | nil => rfl
    | cons c corners ih =>
      obtain ⟨hfirst, hrest⟩ := List.forall_mem_cons.mp h
      rw [List.filter_cons, List.map_cons, List.sum_cons, ← ih hrest]
      by_cases hvalid : c.valid = true
      · rw [if_pos hvalid, List.map_cons, List.sum_cons]
      · rw [if_neg hvalid, hfirst (by simpa using hvalid), mul_zero, zero_add]

/-! ## The stored table -/

theorem getElem?_flatMap_blocks {α β : Type} {blocks : List α} {f : α → List β} {m p q : Nat}
    (hlength : ∀ a ∈ blocks, (f a).length = m) (hq : q < m) :
    (blocks.flatMap f)[p * m + q]? = (blocks[p]?).bind fun a => (f a)[q]? := by
  induction blocks generalizing p with
  | nil => simp
  | cons a blocks ih =>
    obtain ⟨hfirst, hrest⟩ := List.forall_mem_cons.mp hlength
    rw [List.flatMap_cons]
    cases p with
    | zero =>
      rw [Nat.zero_mul, Nat.zero_add, List.getElem?_append_left (by omega)]
      rfl
    | succ p =>
      have hindex : (p + 1) * m + q = m + (p * m + q) := by ring
      rw [hindex, List.getElem?_append_right (by omega), hfirst, Nat.add_sub_cancel_left, ih hrest]
      rfl

theorem axisOrder_getElem? {axis : List ℚ} {place : Nat} (hplace : place < axis.length) :
    (axisOrder axis)[place]? = some (origin axis place) := by
  have hlt : place < (axisOrder axis).length := by
    rw [length_axisOrder]
    exact hplace
  rw [origin, List.getD_eq_getElem _ _ hlt]
  exact List.getElem?_eq_getElem hlt

/-! ## Points and neighbours of an unsorted axis -/

/-- The point is not below every value of the axis, nor above every one. -/
def InRange (axis : List ℚ) (x : ℚ) : Prop := (∃ a ∈ axis, a ≤ x) ∧ ∃ b ∈ axis, x ≤ b

/-- Two values of the axis that enclose the point with no other value between them. -/
structure Neighbours (axis : List ℚ) (x : ℚ) (below above : Nat) : Prop where
  below_lt : below < axis.length
  above_lt : above < axis.length
  le_point : coordinate axis below ≤ x
  point_le : x ≤ coordinate axis above
  adjacent : ∀ k, k < axis.length →
    coordinate axis k ≤ coordinate axis below ∨ coordinate axis above ≤ coordinate axis k

theorem inRange_of_lt {axis : List ℚ} {i : Nat} (hi : i < axis.length) :
    InRange axis (coordinate axis i) := by
  have hmem : coordinate axis i ∈ axis := by
    rw [coordinate, List.getD_eq_getElem _ _ hi]
    exact List.getElem_mem hi
  exact ⟨⟨_, hmem, le_rfl⟩, ⟨_, hmem, le_rfl⟩⟩

/-- The segment of a point on the sorted axis. -/
def segmentAt (axis : List ℚ) (x : ℚ) : PiecewiseLinear.Segment ℚ := (locate (sortedAxis axis) x).1

/-- The hypotheses on an axis: distinct values, further apart than the tolerance. -/
structure Separated (axis : List ℚ) : Prop where
  distinct : axis.Nodup
  spaced : AxisSpaced axis

section axis

variable {axis : List ℚ} {x : ℚ}

theorem InRange.pos (hx : InRange axis x) : 0 < axis.length := by
  obtain ⟨⟨a, ha, _⟩, _⟩ := hx
  exact List.length_pos_of_mem ha

theorem InRange.withinAxis (hx : InRange axis x) : WithinAxis (sortedAxis axis) x := by
  have hpos := hx.pos
  obtain ⟨⟨a, ha, hle⟩, b, hb, hge⟩ := hx
  obtain ⟨i, hi, rfl⟩ := List.getElem_of_mem ha
  obtain ⟨j, hj, rfl⟩ := List.getElem_of_mem hb
  obtain ⟨p, hp, hpi⟩ := exists_place hi
  obtain ⟨q, hq, hqj⟩ := exists_place hj
  have hcp : coordinate (sortedAxis axis) p = axis[i] := by
    rw [coordinate_sortedAxis hp, hpi, coordinate, List.getD_eq_getElem _ _ hi]
  have hcq : coordinate (sortedAxis axis) q = axis[j] := by
    rw [coordinate_sortedAxis hq, hqj, coordinate, List.getD_eq_getElem _ _ hj]
  constructor
  · obtain rfl | hlt := Nat.eq_zero_or_pos p
    · exact hcp.le.trans hle
    · exact (sortedAxis_le hlt hp).trans (hcp.le.trans hle)
  · rw [length_sortedAxis]
    by_cases hlast : q = axis.length - 1
    · rw [← hlast, hcq]
      exact hge
    · exact hge.trans (hcq.ge.trans (sortedAxis_le (by omega) (by omega)))

theorem AxisSpaced.holds (h : AxisSpaced axis) (hx : InRange axis x) :
    (segmentAt axis x).Holds (coordinate (sortedAxis axis)) axis.length x ∧
      locate (sortedAxis axis) x = (segmentAt axis x, false) := by
  have hlength := length_sortedAxis axis
  have hholds := locate_holds (sortedAxis_spaced h) (hlength.symm ▸ hx.pos) hx.withinAxis
  rw [hlength] at hholds
  exact ⟨hholds.1, Prod.ext rfl hholds.2⟩

theorem Separated.holds (h : Separated axis) (hx : InRange axis x) :
    (segmentAt axis x).Holds (coordinate (sortedAxis axis)) axis.length x ∧
      locate (sortedAxis axis) x = (segmentAt axis x, false) :=
  h.spaced.holds hx

theorem Separated.increasing (h : Separated axis) :
    Increasing (coordinate (sortedAxis axis)) axis.length := sortedAxis_increasing h.distinct

theorem Separated.neighbours (h : Separated axis) {s : PiecewiseLinear.Segment ℚ}
    (hs : s.Holds (coordinate (sortedAxis axis)) axis.length x) :
    Neighbours axis x (origin axis s.lo) (origin axis s.hi) := by
  constructor
  · exact origin_lt hs.lo_lt
  · exact origin_lt hs.inside
  · rw [← coordinate_sortedAxis hs.lo_lt]
    exact hs.lo_le h.increasing
  · rw [← coordinate_sortedAxis hs.inside]
    exact hs.le_hi h.increasing
  · intro k hk
    obtain ⟨place, hplace, rfl⟩ := exists_place hk
    rw [← coordinate_sortedAxis hplace, ← coordinate_sortedAxis hs.lo_lt,
      ← coordinate_sortedAxis hs.inside]
    by_cases hle : place ≤ s.lo
    · left
      obtain heq | hlt := Nat.eq_or_lt_of_le hle
      · rw [heq]
      · exact sortedAxis_le hlt hs.lo_lt
    · right
      have hge : s.hi ≤ place := by
        have := hs.neighbours
        omega
      obtain heq | hlt := Nat.eq_or_lt_of_le hge
      · rw [heq]
      · exact sortedAxis_le hlt hplace

theorem mono_origin {g : Nat → ℚ} (hg : ∀ i i', i < axis.length → i' < axis.length →
      coordinate axis i ≤ coordinate axis i' → g i ≤ g i') :
    ∀ p q, p ≤ q → q < axis.length → g (origin axis p) ≤ g (origin axis q) := by
  intro p q hpq hq
  apply hg _ _ (origin_lt (by omega)) (origin_lt hq)
  rw [← coordinate_sortedAxis (by omega), ← coordinate_sortedAxis hq]
  obtain heq | hlt := Nat.eq_or_lt_of_le hpq
  · rw [heq]
  · exact sortedAxis_le hlt hq

end axis

variable {s : PiecewiseLinear.Segment ℚ}

theorem exists_end_le {axis g : Nat → ℚ} {n : Nat} {x : ℚ}
    (h : s.Holds axis n x) : ∃ k, (k = s.lo ∨ k = s.hi) ∧ g k ≤ s.blend g := by
  obtain hle | hle := min_le_iff.mp h.blend_between.1
  · exact ⟨s.lo, Or.inl rfl, hle⟩
  · exact ⟨s.hi, Or.inr rfl, hle⟩

theorem exists_le_end {axis g : Nat → ℚ} {n : Nat} {x : ℚ}
    (h : s.Holds axis n x) : ∃ k, (k = s.lo ∨ k = s.hi) ∧ s.blend g ≤ g k := by
  obtain hle | hle := le_max_iff.mp h.blend_between.2
  · exact ⟨s.lo, Or.inl rfl, hle⟩
  · exact ⟨s.hi, Or.inr rfl, hle⟩

theorem clampTo_eq {lo hi x : ℚ} (hlo : lo ≤ x) (hhi : x ≤ hi) : clampTo lo hi x = x := by
  rw [clampTo, if_neg (not_lt.mpr hlo), if_neg (not_lt.mpr hhi)]

/-- A function of one coordinate whose graph is a line. -/
def IsAffine (g : ℚ → ℚ) : Prop := ∃ a b, ∀ x, g x = a + b * x

theorem blend_isAffine {axis : List ℚ} {x : ℚ} {g : Nat → ℚ}
    {f : ℚ → ℚ}
    (h : s.Holds (coordinate (sortedAxis axis)) axis.length x) (hf : IsAffine f)
    (hg : ∀ p, p < axis.length → g p = f (coordinate axis (origin axis p))) :
    s.blend g = f x := by
  obtain ⟨a, b, hab⟩ := hf
  rw [hab x]
  apply h.blend_affine
  · rw [hg _ h.lo_lt, hab, coordinate_sortedAxis h.lo_lt]
  · rw [hg _ h.inside, hab, coordinate_sortedAxis h.inside]

/-! ## Two axes -/

namespace Cache2DLinear

/-- The sample of a point of the grid, as it was handed in. -/
def sampleAt (axis1 : List ℚ) (samples : List KernelMetrics) (i j : Nat) : KernelMetrics :=
  samples.getD (i * axis1.length + j) .nonFinite

/-- The sampled metric at a point of the grid. -/
def sampled (axis1 : List ℚ) (samples : List KernelMetrics) (metric : Metric) (i j : Nat) : ℚ :=
  (Metrics4.fromSample (sampleAt axis1 samples i j)).get metric

section build

variable {axis0 axis1 : List ℚ} (samples : List KernelMetrics) (policy : Extrapolation)

theorem stored_getElem? {p q : Nat} (hp : p < axis0.length) (hq : q < axis1.length) :
    ((axisOrder axis0).flatMap fun i => (axisOrder axis1).map fun j =>
      storedCell (sampleAt axis1 samples i j))[p * axis1.length + q]? =
        some (storedCell (sampleAt axis1 samples (origin axis0 p) (origin axis1 q))) := by
  rw [getElem?_flatMap_blocks (m := axis1.length) _ hq, axisOrder_getElem? hp,
    Option.bind_some, List.getElem?_map, axisOrder_getElem? hq]
  · rfl
  · intro i _
    rw [List.length_map, length_axisOrder]

theorem build_cell {p q : Nat} (hp : p < axis0.length) (hq : q < axis1.length) :
    (build axis0 axis1 samples policy).cells.getD (p * axis1.length + q) .zero =
      (storedCell (sampleAt axis1 samples (origin axis0 p) (origin axis1 q))).1 := by
  change (List.map Prod.fst _).getD _ _ = _
  rw [List.getD_eq_getElem?_getD, List.getElem?_map]
  have := stored_getElem? samples hp hq
  simp only [sampleAt] at this ⊢
  rw [this]
  rfl

theorem build_valid {p q : Nat} (hp : p < axis0.length) (hq : q < axis1.length) :
    (build axis0 axis1 samples policy).valid.getD (p * axis1.length + q) false =
      (sampleAt axis1 samples (origin axis0 p) (origin axis1 q)).isFinite := by
  change (List.map Prod.snd _).getD _ _ = _
  rw [List.getD_eq_getElem?_getD, List.getElem?_map, ← storedCell_valid_iff]
  have := stored_getElem? samples hp hq
  simp only [sampleAt] at this ⊢
  rw [this]
  rfl

theorem build_anyValid {i j : Nat} (hi : i < axis0.length) (hj : j < axis1.length)
    (hfinite : (sampleAt axis1 samples i j).isFinite = true) :
    (build axis0 axis1 samples policy).anyValid = true := by
  obtain ⟨p, hp, rfl⟩ := exists_place hi
  obtain ⟨q, hq, rfl⟩ := exists_place hj
  change (build axis0 axis1 samples policy).valid.any id = true
  rw [List.any_eq_true]
  refine ⟨true, ?_, rfl⟩
  have hvalid := build_valid samples policy hp hq
  rw [hfinite, List.getD_eq_getElem?_getD] at hvalid
  cases hget : (build axis0 axis1 samples policy).valid[p * axis1.length + q]? with
  | none =>
    rw [hget] at hvalid
    exact absurd hvalid Bool.false_ne_true
  | some value =>
    rw [hget] at hvalid
    exact hvalid ▸ List.mem_of_getElem? hget

/-- The value of a metric at a place of the sorted grid. -/
def valueAt (axis0 axis1 : List ℚ) (samples : List KernelMetrics) (metric : Metric) (p q : Nat) :
    ℚ :=
  (storedCell (sampleAt axis1 samples (origin axis0 p) (origin axis1 q))).1.get metric

theorem interpolateCell_nested {s0 s1 : PiecewiseLinear.Segment ℚ} {x0 x1 : ℚ}
    (h0 : s0.Holds (coordinate (sortedAxis axis0)) axis0.length x0)
    (h1 : s1.Holds (coordinate (sortedAxis axis1)) axis1.length x1)
    (hlocate0 : locate (sortedAxis axis0) x0 = (s0, false))
    (hlocate1 : locate (sortedAxis axis1) x1 = (s1, false))
    (hdropped : ∀ p q, (sampleAt axis1 samples (origin axis0 p) (origin axis1 q)).isFinite = false →
      (p = s0.lo → q = s1.lo → (1 - s0.t) * (1 - s1.t) = 0) ∧
      (p = s0.lo → q = s1.hi → (1 - s0.t) * s1.t = 0) ∧
      (p = s0.hi → q = s1.lo → s0.t * (1 - s1.t) = 0) ∧
      (p = s0.hi → q = s1.hi → s0.t * s1.t = 0)) :
    ∃ cell, (build axis0 axis1 samples policy).interpolateCell x0 x1 = some (cell, false) ∧
      ∀ metric, cell.get metric =
        s0.blend fun p => s1.blend fun q => valueAt axis0 axis1 samples metric p q := by
  have hcolumns : (build axis0 axis1 samples policy).xs1.length = axis1.length :=
    length_sortedAxis axis1
  have hcell : ∀ p q, p < axis0.length → q < axis1.length → ∀ weight metric,
      ((build axis0 axis1 samples policy).corner s0 s1 x0 x1 p q weight).cell.get metric =
        valueAt axis0 axis1 samples metric p q := by
    intro p q hp hq weight metric
    simp only [corner, hcolumns]
    rw [build_cell samples policy hp hq]
    rfl
  have hvalid : ∀ p q, p < axis0.length → q < axis1.length → ∀ weight,
      ((build axis0 axis1 samples policy).corner s0 s1 x0 x1 p q weight).valid =
        (sampleAt axis1 samples (origin axis0 p) (origin axis1 q)).isFinite := by
    intro p q hp hq weight
    simp only [corner, hcolumns]
    exact build_valid samples policy hp hq
  obtain ⟨cell, hblend, hget⟩ := blendCorners_whole (build axis0 axis1 samples policy).allFinite
    false ((build axis0 axis1 samples policy).corners s0 s1 x0 x1) (by
      intro c hc hinvalid
      simp only [corners, List.mem_cons, List.not_mem_nil, or_false] at hc
      obtain rfl | rfl | rfl | rfl := hc
      · rw [hvalid _ _ h0.lo_lt h1.lo_lt] at hinvalid
        exact (hdropped _ _ hinvalid).1 rfl rfl
      · rw [hvalid _ _ h0.lo_lt h1.inside] at hinvalid
        exact (hdropped _ _ hinvalid).2.1 rfl rfl
      · rw [hvalid _ _ h0.inside h1.lo_lt] at hinvalid
        exact (hdropped _ _ hinvalid).2.2.1 rfl rfl
      · rw [hvalid _ _ h0.inside h1.inside] at hinvalid
        exact (hdropped _ _ hinvalid).2.2.2 rfl rfl)
  refine ⟨cell, ?_, ?_⟩
  · have hxs0 : (build axis0 axis1 samples policy).xs0 = sortedAxis axis0 := rfl
    have hxs1 : (build axis0 axis1 samples policy).xs1 = sortedAxis axis1 := rfl
    rw [interpolateCell, hxs0, hxs1, hlocate0, hlocate1]
    exact hblend
  · intro metric
    rw [hget]
    simp only [corners, List.map_cons, List.map_nil, List.sum_cons, List.sum_nil,
      hcell _ _ h0.lo_lt h1.lo_lt, hcell _ _ h0.lo_lt h1.inside, hcell _ _ h0.inside h1.lo_lt,
      hcell _ _ h0.inside h1.inside]
    simp only [corner, PiecewiseLinear.Segment.blend]
    ring

/-- No sample was dropped. -/
def AllFinite (axis0 axis1 : List ℚ) (samples : List KernelMetrics) : Prop :=
  ∀ i j, i < axis0.length → j < axis1.length → (sampleAt axis1 samples i j).isFinite = true

theorem lookup_inGrid {x0 x1 : ℚ} (hx0 : InRange axis0 x0) (hx1 : InRange axis1 x1) :
    (build axis0 axis1 samples policy).lookup x0 x1 =
      (build axis0 axis1 samples policy).interpolateCell x0 x1 := by
  have hclamp0 := clampTo_eq hx0.withinAxis.1 hx0.withinAxis.2
  have hclamp1 := clampTo_eq hx1.withinAxis.1 hx1.withinAxis.2
  have hxs0 : (build axis0 axis1 samples policy).xs0 = sortedAxis axis0 := rfl
  have hxs1 : (build axis0 axis1 samples policy).xs1 = sortedAxis axis1 := rfl
  simp only [lookup, hxs0, hxs1]
  simp only [coordinate] at hclamp0 hclamp1
  rw [hclamp0, hclamp1]
  by_cases hproduct : (build axis0 axis1 samples policy).extrapolation = .product
  · rw [if_pos hproduct]
  · rw [if_neg hproduct]
    cases (build axis0 axis1 samples policy).interpolateCell x0 x1 with
    | none => rfl
    | some blended => simp

theorem eval_inGrid {x0 x1 : ℚ} (hx0 : InRange axis0 x0) (hx1 : InRange axis1 x1)
    (hany : (build axis0 axis1 samples policy).anyValid = true) {cell : Metrics4}
    (hcell : (build axis0 axis1 samples policy).interpolateCell x0 x1 = some (cell, false))
    (hnonneg : ∀ metric, 0 ≤ cell.get metric) :
    (build axis0 axis1 samples policy).eval x0 x1 =
      ⟨cell, CoverageFlags.empty, LeafMetrics.noBackend⟩ := by
  rw [eval, hany, if_neg Bool.false_ne_true.symm, lookup_inGrid samples policy hx0 hx1, hcell]
  simp only [leafOf, Metrics4.clamped_eq hnonneg]
  rfl

theorem nested_nonneg {s0 s1 : PiecewiseLinear.Segment ℚ} {x0 x1 : ℚ}
    (h0 : s0.Holds (coordinate (sortedAxis axis0)) axis0.length x0)
    (h1 : s1.Holds (coordinate (sortedAxis axis1)) axis1.length x1) (metric : Metric) :
    0 ≤ s0.blend fun p => s1.blend fun q => valueAt axis0 axis1 samples metric p q := by
  apply h0.le_blend <;> apply h1.le_blend <;> exact storedCell_nonneg _ _

variable (h0 : Separated axis0) (h1 : Separated axis1)
include h0 h1

theorem eval_gridPoint {i j : Nat} (hi : i < axis0.length) (hj : j < axis1.length)
    (hfinite : (sampleAt axis1 samples i j).isFinite = true) :
    (build axis0 axis1 samples policy).eval (coordinate axis0 i) (coordinate axis1 j) =
      ⟨Metrics4.fromSample (sampleAt axis1 samples i j), CoverageFlags.empty,
        LeafMetrics.noBackend⟩ := by
  have hx0 := inRange_of_lt hi
  have hx1 := inRange_of_lt hj
  obtain ⟨hs0, hout0⟩ := h0.holds hx0
  obtain ⟨hs1, hout1⟩ := h1.holds hx1
  obtain ⟨p, hp, rfl⟩ := exists_place hi
  obtain ⟨q, hq, rfl⟩ := exists_place hj
  have hatp := coordinate_sortedAxis hp
  have hatq := coordinate_sortedAxis hq
  -- a corner with weight is the point itself, and that survived
  have hzero : ∀ {k k' : Nat} {w w' : ℚ}, (w ≠ 0 → k = p) → (w' ≠ 0 → k' = q) →
      (sampleAt axis1 samples (origin axis0 k) (origin axis1 k')).isFinite = false →
        w * w' = 0 := by
    intro k k' w w' hw hw' hdropped
    by_contra hne
    rw [hw (left_ne_zero_of_mul hne), hw' (right_ne_zero_of_mul hne), hfinite] at hdropped
    exact Bool.false_ne_true hdropped.symm
  have hlo0 := hs0.lo_eq h0.increasing hp hatp
  have hhi0 := hs0.hi_eq h0.increasing hp hatp
  have hlo1 := hs1.lo_eq h1.increasing hq hatq
  have hhi1 := hs1.hi_eq h1.increasing hq hatq
  obtain ⟨cell, hcell, hget⟩ := interpolateCell_nested samples policy hs0 hs1
    hout0 hout1 (by
      intro k k' hdropped
      refine ⟨?_, ?_, ?_, ?_⟩ <;> intro hk hk' <;> subst hk hk'
      · exact hzero hlo0 hlo1 hdropped
      · exact hzero hlo0 hhi1 hdropped
      · exact hzero hhi0 hlo1 hdropped
      · exact hzero hhi0 hhi1 hdropped)
  have hexact : cell = Metrics4.fromSample
      (sampleAt axis1 samples (origin axis0 p) (origin axis1 q)) := by
    apply Metrics4.ext_get
    intro metric
    rw [hget, hs0.blend_at h0.increasing hp hatp, hs1.blend_at h1.increasing hq hatq, valueAt,
      storedCell_of_finite hfinite]
  rw [← hexact]
  apply eval_inGrid samples policy hx0 hx1 (build_anyValid samples policy hi hj hfinite) hcell
  intro metric
  rw [hget]
  exact nested_nonneg samples hs0 hs1 metric

theorem eval_whole (hall : AllFinite axis0 axis1 samples) {x0 x1 : ℚ} (hx0 : InRange axis0 x0)
    (hx1 : InRange axis1 x1) :
    ∃ cell : Metrics4, (∀ policy, (build axis0 axis1 samples policy).eval x0 x1 =
        ⟨cell, CoverageFlags.empty, LeafMetrics.noBackend⟩) ∧
      ∀ metric, cell.get metric = (segmentAt axis0 x0).blend fun p =>
        (segmentAt axis1 x1).blend fun q =>
          sampled axis1 samples metric (origin axis0 p) (origin axis1 q) := by
  obtain ⟨hs0, hout0⟩ := h0.holds hx0
  obtain ⟨hs1, hout1⟩ := h1.holds hx1
  refine ⟨Metrics4.ofMetrics fun metric => (segmentAt axis0 x0).blend fun p =>
    (segmentAt axis1 x1).blend fun q => valueAt axis0 axis1 samples metric p q, ?_, ?_⟩
  · intro policy
    -- nothing is dropped, so there is no dropped corner to give weight to
    have hnone : ∀ {p q : Nat} {P : Prop}, p < axis0.length → q < axis1.length →
        (sampleAt axis1 samples (origin axis0 p) (origin axis1 q)).isFinite = false → P := by
      intro p q P hp hq hdropped
      rw [hall _ _ (origin_lt hp) (origin_lt hq)] at hdropped
      exact absurd hdropped.symm Bool.false_ne_true
    obtain ⟨cell, hcell, hget⟩ := interpolateCell_nested samples policy hs0 hs1 hout0 hout1 (by
      intro k k' hdropped
      refine ⟨?_, ?_, ?_, ?_⟩ <;> intro hk hk' <;> subst hk hk'
      · exact hnone hs0.lo_lt hs1.lo_lt hdropped
      · exact hnone hs0.lo_lt hs1.inside hdropped
      · exact hnone hs0.inside hs1.lo_lt hdropped
      · exact hnone hs0.inside hs1.inside hdropped)
    have hsame : cell = Metrics4.ofMetrics fun metric => (segmentAt axis0 x0).blend fun p =>
        (segmentAt axis1 x1).blend fun q => valueAt axis0 axis1 samples metric p q :=
      Metrics4.ext_get fun metric => by rw [hget, Metrics4.get_ofMetrics]
    rw [← hsame]
    apply eval_inGrid samples policy hx0 hx1
      (build_anyValid samples policy hx0.pos hx1.pos (hall 0 0 hx0.pos hx1.pos)) hcell
    intro metric
    rw [hget]
    exact nested_nonneg samples hs0 hs1 metric
  · intro metric
    rw [Metrics4.get_ofMetrics]
    have hvalue : ∀ p q, p < axis0.length → q < axis1.length →
        valueAt axis0 axis1 samples metric p q =
          sampled axis1 samples metric (origin axis0 p) (origin axis1 q) := by
      intro p q hp hq
      rw [valueAt, storedCell_of_finite (hall _ _ (origin_lt hp) (origin_lt hq))]
      rfl
    apply PiecewiseLinear.Segment.blend_congr <;> apply PiecewiseLinear.Segment.blend_congr
    · exact hvalue _ _ hs0.lo_lt hs1.lo_lt
    · exact hvalue _ _ hs0.lo_lt hs1.inside
    · exact hvalue _ _ hs0.inside hs1.lo_lt
    · exact hvalue _ _ hs0.inside hs1.inside

end build

/-- What it means that caches over two axes, one for each policy, interpolate their
samples. -/
structure Interpolates (axis0 axis1 : List ℚ) (samples : List KernelMetrics)
    (cacheOf : Extrapolation → Cache2DLinear) : Prop where
  gridPoint : ∀ policy i j, i < axis0.length → j < axis1.length →
    (sampleAt axis1 samples i j).isFinite = true →
    (cacheOf policy).eval (coordinate axis0 i) (coordinate axis1 j) =
      ⟨Metrics4.fromSample (sampleAt axis1 samples i j), CoverageFlags.empty, LeafMetrics.noBackend⟩
  corners : AllFinite axis0 axis1 samples → ∀ policy x0 x1, InRange axis0 x0 → InRange axis1 x1 →
    ∃ below0 above0 below1 above1, Neighbours axis0 x0 below0 above0 ∧
      Neighbours axis1 x1 below1 above1 ∧ ∀ metric,
      (∃ i j, (i = below0 ∨ i = above0) ∧ (j = below1 ∨ j = above1) ∧
        sampled axis1 samples metric i j ≤ ((cacheOf policy).eval x0 x1).m.get metric) ∧
      ∃ i j, (i = below0 ∨ i = above0) ∧ (j = below1 ∨ j = above1) ∧
        ((cacheOf policy).eval x0 x1).m.get metric ≤ sampled axis1 samples metric i j
  affine : AllFinite axis0 axis1 samples → ∀ policy metric (f : ℚ → ℚ → ℚ),
    (∀ x1, IsAffine fun x0 => f x0 x1) → (∀ x0, IsAffine (f x0)) →
    (∀ i j, i < axis0.length → j < axis1.length →
      sampled axis1 samples metric i j = f (coordinate axis0 i) (coordinate axis1 j)) →
    ∀ x0 x1, InRange axis0 x0 → InRange axis1 x1 →
      ((cacheOf policy).eval x0 x1).m.get metric = f x0 x1
  policies : AllFinite axis0 axis1 samples → ∀ policy policy' x0 x1, InRange axis0 x0 →
    InRange axis1 x1 → (cacheOf policy).eval x0 x1 = (cacheOf policy').eval x0 x1
  monotone0 : AllFinite axis0 axis1 samples → ∀ policy metric,
    (∀ j, j < axis1.length → ∀ i i', i < axis0.length → i' < axis0.length →
      coordinate axis0 i ≤ coordinate axis0 i' →
        sampled axis1 samples metric i j ≤ sampled axis1 samples metric i' j) →
    ∀ x0 y0 x1, InRange axis0 x0 → InRange axis0 y0 → InRange axis1 x1 → x0 ≤ y0 →
      ((cacheOf policy).eval x0 x1).m.get metric ≤ ((cacheOf policy).eval y0 x1).m.get metric
  monotone1 : AllFinite axis0 axis1 samples → ∀ policy metric,
    (∀ i, i < axis0.length → ∀ j j', j < axis1.length → j' < axis1.length →
      coordinate axis1 j ≤ coordinate axis1 j' →
        sampled axis1 samples metric i j ≤ sampled axis1 samples metric i j') →
    ∀ x0 x1 y1, InRange axis0 x0 → InRange axis1 x1 → InRange axis1 y1 → x1 ≤ y1 →
      ((cacheOf policy).eval x0 x1).m.get metric ≤ ((cacheOf policy).eval x0 y1).m.get metric

theorem build_interpolates {axis0 axis1 : List ℚ} (samples : List KernelMetrics)
    (h0 : Separated axis0) (h1 : Separated axis1) :
    Interpolates axis0 axis1 samples (build axis0 axis1 samples) := by
  constructor
  case gridPoint =>
    intro policy i j hi hj hfinite
    exact eval_gridPoint samples policy h0 h1 hi hj hfinite
  case corners =>
    intro hall policy x0 x1 hx0 hx1
    obtain ⟨cell, heval, hget⟩ := eval_whole samples h0 h1 hall hx0 hx1
    obtain ⟨hs0, _⟩ := h0.holds hx0
    obtain ⟨hs1, _⟩ := h1.holds hx1
    refine ⟨_, _, _, _, h0.neighbours hs0, h1.neighbours hs1, ?_⟩
    -- one axis at a time: a blend lies between its ends
    intro metric
    rw [heval policy, hget]
    constructor
    · obtain ⟨p, hp, hle⟩ := exists_end_le (g := fun p => (segmentAt axis1 x1).blend fun q =>
        sampled axis1 samples metric (origin axis0 p) (origin axis1 q)) hs0
      obtain ⟨q, hq, hle'⟩ := exists_end_le (g := fun q =>
        sampled axis1 samples metric (origin axis0 p) (origin axis1 q)) hs1
      exact ⟨origin axis0 p, origin axis1 q, hp.imp (congrArg _) (congrArg _),
        hq.imp (congrArg _) (congrArg _), hle'.trans hle⟩
    · obtain ⟨p, hp, hle⟩ := exists_le_end (g := fun p => (segmentAt axis1 x1).blend fun q =>
        sampled axis1 samples metric (origin axis0 p) (origin axis1 q)) hs0
      obtain ⟨q, hq, hle'⟩ := exists_le_end (g := fun q =>
        sampled axis1 samples metric (origin axis0 p) (origin axis1 q)) hs1
      exact ⟨origin axis0 p, origin axis1 q, hp.imp (congrArg _) (congrArg _),
        hq.imp (congrArg _) (congrArg _), hle.trans hle'⟩
  case affine =>
    intro hall policy metric f hf0 hf1 htable x0 x1 hx0 hx1
    obtain ⟨cell, heval, hget⟩ := eval_whole samples h0 h1 hall hx0 hx1
    rw [heval policy, hget]
    apply blend_isAffine (h0.holds hx0).1 (hf0 x1)
    intro p hp
    apply blend_isAffine (h1.holds hx1).1 (hf1 (coordinate axis0 (origin axis0 p)))
    intro q hq
    exact htable _ _ (origin_lt hp) (origin_lt hq)
  case policies =>
    intro hall policy policy' x0 x1 hx0 hx1
    obtain ⟨cell, heval, _⟩ := eval_whole samples h0 h1 hall hx0 hx1
    rw [heval policy, heval policy']
  case monotone0 =>
    intro hall policy metric htable x0 y0 x1 hx0 hy0 hx1 hle
    obtain ⟨cell, heval, hget⟩ := eval_whole samples h0 h1 hall hx0 hx1
    obtain ⟨cell', heval', hget'⟩ := eval_whole samples h0 h1 hall hy0 hx1
    obtain ⟨hs1, _⟩ := h1.holds hx1
    rw [heval policy, heval' policy, hget, hget']
    apply (h0.holds hx0).1.blend_mono (h0.holds hy0).1 h0.increasing hle
    intro p p' hpp hp'
    apply hs1.blend_le_blend
    · exact mono_origin (htable _ (origin_lt hs1.lo_lt)) p p' hpp hp'
    · exact mono_origin (htable _ (origin_lt hs1.inside)) p p' hpp hp'
  case monotone1 =>
    intro hall policy metric htable x0 x1 y1 hx0 hx1 hy1 hle
    obtain ⟨cell, heval, hget⟩ := eval_whole samples h0 h1 hall hx0 hx1
    obtain ⟨cell', heval', hget'⟩ := eval_whole samples h0 h1 hall hx0 hy1
    obtain ⟨hs0, _⟩ := h0.holds hx0
    obtain ⟨hs1, _⟩ := h1.holds hx1
    obtain ⟨hs1', _⟩ := h1.holds hy1
    rw [heval policy, heval' policy, hget, hget']
    apply hs0.blend_le_blend
    · exact hs1.blend_mono hs1' h1.increasing hle
        (mono_origin (htable _ (origin_lt hs0.lo_lt)))
    · exact hs1.blend_mono hs1' h1.increasing hle
        (mono_origin (htable _ (origin_lt hs0.inside)))

end Cache2DLinear

end ServingSim
