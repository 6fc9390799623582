import ServingSim.Timing.GridInterpolation

/-
  The grid cache over three axes, and what both grid caches owe their samples
  (`timing::cache::linear_3d`).

  The eight corners are numbered by masks; their weighted sum is a blend along the first
  axis of blends along the second of blends along the third.

  What is proved:
    1. `grid_caches_interpolate` — both caches interpolate their samples.
-/

namespace ServingSim

open PiecewiseLinear

/-- The end of a segment that a mask's bit chooses. -/
def segmentEnd (s : PiecewiseLinear.Segment ℚ) (upper : Bool) : Nat := if upper then s.hi else s.lo

/-- The weight of that end. -/
def endWeight (s : PiecewiseLinear.Segment ℚ) (upper : Bool) : ℚ := if upper then s.t else 1 - s.t

theorem segmentEnd_lt {s : PiecewiseLinear.Segment ℚ} {axis : Nat → ℚ} {n : Nat} {x : ℚ}
    (h : s.Holds axis n x) (upper : Bool) : segmentEnd s upper < n := by
  cases upper
  · exact h.lo_lt
  · exact h.inside

theorem segmentEnd_eq {s : PiecewiseLinear.Segment ℚ} {axis : Nat → ℚ} {n : Nat} {x : ℚ}
    (h : s.Holds axis n x) (hinc : Increasing axis n) {k : Nat} (hk : k < n) (hx : axis k = x)
    {upper : Bool} (hweight : endWeight s upper ≠ 0) : segmentEnd s upper = k := by
  cases upper
  · exact h.lo_eq hinc hk hx hweight
  · exact h.hi_eq hinc hk hx hweight

namespace Cache3DLinear

/-- The sample of a point of the grid, as it was handed in. -/
def sampleAt (axis1 axis2 : List ℚ) (samples : List KernelMetrics) (i j k : Nat) :
    KernelMetrics :=
  samples.getD ((i * axis1.length + j) * axis2.length + k) .nonFinite

/-- The sampled metric at a point of the grid. -/
def sampled (axis1 axis2 : List ℚ) (samples : List KernelMetrics) (metric : Metric)
    (i j k : Nat) : ℚ :=
  (Metrics4.fromSample (sampleAt axis1 axis2 samples i j k)).get metric

section build

variable {axis0 axis1 axis2 : List ℚ} (samples : List KernelMetrics)

/-! ## The stored table -/

/-- The sample that ended up at a place of the sorted grid. -/
def placed (axis0 axis1 axis2 : List ℚ) (samples : List KernelMetrics) (p q r : Nat) :
    KernelMetrics :=
  sampleAt axis1 axis2 samples (origin axis0 p) (origin axis1 q) (origin axis2 r)

section

variable {p q r : Nat} (hp : p < axis0.length) (hq : q < axis1.length) (hr : r < axis2.length)

include p q r hp hq hr

theorem stored_getElem? :
    ((axisOrder axis0).flatMap fun i => (axisOrder axis1).flatMap fun j =>
      (axisOrder axis2).map fun k => storedCell (sampleAt axis1 axis2 samples i j k))[
        (p * axis1.length + q) * axis2.length + r]? =
      some (storedCell (placed axis0 axis1 axis2 samples p q r)) := by
  have hinner : ∀ i, ((axisOrder axis1).flatMap fun j => (axisOrder axis2).map fun k =>
      storedCell (sampleAt axis1 axis2 samples i j k)).length = axis1.length * axis2.length := by
    intro i
    simp [List.length_flatMap, length_axisOrder]
  have hindex : (p * axis1.length + q) * axis2.length + r =
      p * (axis1.length * axis2.length) + (q * axis2.length + r) := by ring
  have hfits : q * axis2.length + r < axis1.length * axis2.length := by
    have := Nat.mul_le_mul_right axis2.length (Nat.succ_le_of_lt hq)
    rw [Nat.succ_mul] at this
    omega
  rw [hindex, getElem?_flatMap_blocks (fun i _ => hinner i) hfits, axisOrder_getElem? hp,
    Option.bind_some, getElem?_flatMap_blocks (m := axis2.length) _ hr, axisOrder_getElem? hq,
    Option.bind_some, List.getElem?_map, axisOrder_getElem? hr]
  · rfl
  · intro j _
    rw [List.length_map, length_axisOrder]

theorem build_cell :
    (build ![axis0, axis1, axis2] samples).cells.getD
        ((p * axis1.length + q) * axis2.length + r) .zero =
      (storedCell (placed axis0 axis1 axis2 samples p q r)).1 := by
  change (List.map Prod.fst _).getD _ _ = _
  rw [List.getD_eq_getElem?_getD, List.getElem?_map]
  have hstored := stored_getElem? samples hp hq hr
  simp only [sampleAt] at hstored
  exact congrArg (fun stored => (stored.map Prod.fst).getD Metrics4.zero) hstored

theorem build_valid :
    (build ![axis0, axis1, axis2] samples).valid.getD
        ((p * axis1.length + q) * axis2.length + r) false =
      (placed axis0 axis1 axis2 samples p q r).isFinite := by
  change (List.map Prod.snd _).getD _ _ = _
  rw [List.getD_eq_getElem?_getD, List.getElem?_map, ← storedCell_valid_iff]
  have hstored := stored_getElem? samples hp hq hr
  simp only [sampleAt] at hstored
  exact congrArg (fun stored => (stored.map Prod.snd).getD false) hstored

theorem build_anyValid (hfinite : (placed axis0 axis1 axis2 samples p q r).isFinite = true) :
    (build ![axis0, axis1, axis2] samples).anyValid = true := by
  change (build ![axis0, axis1, axis2] samples).valid.any id = true
  rw [List.any_eq_true]
  refine ⟨true, ?_, rfl⟩
  have hvalid := build_valid samples hp hq hr
  rw [hfinite, List.getD_eq_getElem?_getD] at hvalid
  cases hget : (build ![axis0, axis1, axis2] samples).valid[
      (p * axis1.length + q) * axis2.length + r]? with
  | none =>
    rw [hget] at hvalid
    exact absurd hvalid Bool.false_ne_true
  | some value =>
    rw [hget] at hvalid
    exact hvalid ▸ List.mem_of_getElem? hget

end

/-! ## A blend of blends of blends -/

/-- The value of a metric at a place of the sorted grid. -/
def valueAt (axis0 axis1 axis2 : List ℚ) (samples : List KernelMetrics) (metric : Metric)
    (p q r : Nat) : ℚ :=
  (storedCell (placed axis0 axis1 axis2 samples p q r)).1.get metric

section nested

variable {s0 s1 s2 : PiecewiseLinear.Segment ℚ} {x0 x1 x2 : ℚ}
  (h0 : s0.Holds (coordinate (sortedAxis axis0)) axis0.length x0)
  (h1 : s1.Holds (coordinate (sortedAxis axis1)) axis1.length x1)
  (h2 : s2.Holds (coordinate (sortedAxis axis2)) axis2.length x2)
include h0 h1 h2

theorem corner_spec (mask : Nat) :
    let corner := (build ![axis0, axis1, axis2] samples).corner ![s0, s1, s2] ![x0, x1, x2] mask
    let p := segmentEnd s0 (mask.testBit 0)
    let q := segmentEnd s1 (mask.testBit 1)
    let r := segmentEnd s2 (mask.testBit 2)
    corner.valid = (placed axis0 axis1 axis2 samples p q r).isFinite ∧
      (∀ metric, corner.cell.get metric = valueAt axis0 axis1 axis2 samples metric p q r) ∧
      corner.weight = endWeight s0 (mask.testBit 0) * endWeight s1 (mask.testBit 1) *
        endWeight s2 (mask.testBit 2) := by
  intro corner p q r
  have hp := segmentEnd_lt h0 (mask.testBit 0)
  have hq := segmentEnd_lt h1 (mask.testBit 1)
  have hr := segmentEnd_lt h2 (mask.testBit 2)
  refine ⟨build_valid samples hp hq hr, ?_, rfl⟩
  intro metric
  exact congrArg (fun cell => Metrics4.get cell metric) (build_cell samples hp hq hr)

theorem interpolateCell_nested
    (hlocate0 : locate (sortedAxis axis0) x0 = (s0, false))
    (hlocate1 : locate (sortedAxis axis1) x1 = (s1, false))
    (hlocate2 : locate (sortedAxis axis2) x2 = (s2, false))
    (hdropped : ∀ b0 b1 b2, (placed axis0 axis1 axis2 samples (segmentEnd s0 b0)
        (segmentEnd s1 b1) (segmentEnd s2 b2)).isFinite = false →
      endWeight s0 b0 * endWeight s1 b1 * endWeight s2 b2 = 0) :
    ∃ cell, (build ![axis0, axis1, axis2] samples).interpolateCell ![x0, x1, x2] =
        some (cell, false) ∧
      ∀ metric, cell.get metric = s0.blend fun p => s1.blend fun q => s2.blend fun r =>
        valueAt axis0 axis1 axis2 samples metric p q r := by
  obtain ⟨cell, hblend, hget⟩ := blendCorners_whole
    (build ![axis0, axis1, axis2] samples).allFinite false
    ((List.range 8).map
      ((build ![axis0, axis1, axis2] samples).corner ![s0, s1, s2] ![x0, x1, x2])) (by
      intro c hc hinvalid
      obtain ⟨mask, _, rfl⟩ := List.mem_map.mp hc
      obtain ⟨hvalid, _, hweight⟩ := corner_spec samples h0 h1 h2 mask
      rw [hweight]
      exact hdropped _ _ _ (hvalid.symm.trans hinvalid))
  refine ⟨cell, ?_, ?_⟩
  · have hsegments : (fun axis => (locate ((build ![axis0, axis1, axis2] samples).axes axis)
        (![x0, x1, x2] axis)).1) = ![s0, s1, s2] := by
      funext axis
      fin_cases axis
      · exact congrArg Prod.fst hlocate0
      · exact congrArg Prod.fst hlocate1
      · exact congrArg Prod.fst hlocate2
    have hout0 : (locate ((build ![axis0, axis1, axis2] samples).axes 0)
        (![x0, x1, x2] 0)).2 = false := congrArg Prod.snd hlocate0
    have hout1 : (locate ((build ![axis0, axis1, axis2] samples).axes 1)
        (![x0, x1, x2] 1)).2 = false := congrArg Prod.snd hlocate1
    have hout2 : (locate ((build ![axis0, axis1, axis2] samples).axes 2)
        (![x0, x1, x2] 2)).2 = false := congrArg Prod.snd hlocate2
    simp only [interpolateCell, hsegments, hout0, hout1, hout2, Bool.or_self]
    exact hblend
  · intro metric
    -- the term of each mask, by its three bits
    obtain ⟨term, hterm⟩ : ∃ term : Bool → Bool → Bool → ℚ, ∀ b0 b1 b2, term b0 b1 b2 =
        valueAt axis0 axis1 axis2 samples metric (segmentEnd s0 b0) (segmentEnd s1 b1)
          (segmentEnd s2 b2) * (endWeight s0 b0 * endWeight s1 b1 * endWeight s2 b2) :=
      ⟨_, fun _ _ _ => rfl⟩
    have hmasks : cell.get metric = ((List.range 8).map fun mask : Nat =>
        term (mask.testBit 0) (mask.testBit 1) (mask.testBit 2)).sum := by
      rw [hget, List.map_map]
      congr 1
      apply List.map_congr_left
      intro mask _
      obtain ⟨_, hcell, hweight⟩ := corner_spec samples h0 h1 h2 mask
      rw [hterm]
      change Metrics4.get _ _ * _ = _
      rw [hcell, hweight]
    have hlisted : ((List.range 8).map fun mask : Nat =>
        term (mask.testBit 0) (mask.testBit 1) (mask.testBit 2)) =
          [term false false false, term true false false, term false true false,
            term true true false, term false false true, term true false true,
            term false true true, term true true true] := rfl
    rw [hmasks, hlisted]
    simp only [List.sum_cons, List.sum_nil, hterm, segmentEnd, endWeight,
      PiecewiseLinear.Segment.blend,
      Bool.false_eq_true, if_true, if_false]
    ring

end nested

/-! ## Values inside the grid -/

/-- No sample was dropped. -/
def AllFinite (axis0 axis1 axis2 : List ℚ) (samples : List KernelMetrics) : Prop :=
  ∀ i j k, i < axis0.length → j < axis1.length → k < axis2.length →
    (sampleAt axis1 axis2 samples i j k).isFinite = true

theorem eval_blended {query : Fin 3 → ℚ}
    (hany : (build ![axis0, axis1, axis2] samples).anyValid = true) {cell : Metrics4}
    (hcell : (build ![axis0, axis1, axis2] samples).interpolateCell query = some (cell, false))
    (hnonneg : ∀ metric, 0 ≤ cell.get metric) :
    (build ![axis0, axis1, axis2] samples).eval query =
      ⟨cell, CoverageFlags.empty, LeafMetrics.noBackend⟩ := by
  rw [eval, hany, if_neg Bool.false_ne_true.symm, hcell]
  simp only [leafOf, Metrics4.clamped_eq hnonneg]
  rfl

theorem nested_nonneg {s0 s1 s2 : PiecewiseLinear.Segment ℚ} {x0 x1 x2 : ℚ}
    (h0 : s0.Holds (coordinate (sortedAxis axis0)) axis0.length x0)
    (h1 : s1.Holds (coordinate (sortedAxis axis1)) axis1.length x1)
    (h2 : s2.Holds (coordinate (sortedAxis axis2)) axis2.length x2) (metric : Metric) :
    0 ≤ s0.blend fun p => s1.blend fun q => s2.blend fun r =>
      valueAt axis0 axis1 axis2 samples metric p q r := by
  apply h0.le_blend <;> apply h1.le_blend <;> apply h2.le_blend <;>
    exact storedCell_nonneg _ _

variable (h0 : Separated axis0) (h1 : Separated axis1) (h2 : Separated axis2)
include h0 h1 h2

theorem eval_gridPoint {i j k : Nat} (hi : i < axis0.length) (hj : j < axis1.length)
    (hk : k < axis2.length) (hfinite : (sampleAt axis1 axis2 samples i j k).isFinite = true) :
    (build ![axis0, axis1, axis2] samples).eval
        ![coordinate axis0 i, coordinate axis1 j, coordinate axis2 k] =
      ⟨Metrics4.fromSample (sampleAt axis1 axis2 samples i j k), CoverageFlags.empty,
        LeafMetrics.noBackend⟩ := by
  obtain ⟨hs0, hout0⟩ := h0.holds (inRange_of_lt hi)
  obtain ⟨hs1, hout1⟩ := h1.holds (inRange_of_lt hj)
  obtain ⟨hs2, hout2⟩ := h2.holds (inRange_of_lt hk)
  obtain ⟨p, hp, rfl⟩ := exists_place hi
  obtain ⟨q, hq, rfl⟩ := exists_place hj
  obtain ⟨r, hr, rfl⟩ := exists_place hk
  have hatp := coordinate_sortedAxis hp
  have hatq := coordinate_sortedAxis hq
  have hatr := coordinate_sortedAxis hr
  obtain ⟨cell, hcell, hget⟩ := interpolateCell_nested samples hs0 hs1 hs2 hout0 hout1 hout2 (by
    intro b0 b1 b2 hdropped
    -- a corner with weight is the point itself, and that survived
    by_contra hne
    have hne01 := left_ne_zero_of_mul hne
    rw [segmentEnd_eq hs0 h0.increasing hp hatp (left_ne_zero_of_mul hne01),
      segmentEnd_eq hs1 h1.increasing hq hatq (right_ne_zero_of_mul hne01),
      segmentEnd_eq hs2 h2.increasing hr hatr (right_ne_zero_of_mul hne)] at hdropped
    exact Bool.false_ne_true (hdropped.symm.trans hfinite))
  have hplaced : (placed axis0 axis1 axis2 samples p q r).isFinite = true := hfinite
  have hexact : cell = Metrics4.fromSample (placed axis0 axis1 axis2 samples p q r) := by
    apply Metrics4.ext_get
    intro metric
    rw [hget, hs0.blend_at h0.increasing hp hatp, hs1.blend_at h1.increasing hq hatq,
      hs2.blend_at h2.increasing hr hatr, valueAt, storedCell_of_finite hplaced]
  have hvalue := eval_blended samples (build_anyValid samples hp hq hr hfinite) hcell (by
    intro metric
    rw [hget]
    exact nested_nonneg samples hs0 hs1 hs2 metric)
  rw [hvalue, hexact]
  rfl

theorem eval_whole (hall : AllFinite axis0 axis1 axis2 samples) {x0 x1 x2 : ℚ}
    (hx0 : InRange axis0 x0) (hx1 : InRange axis1 x1) (hx2 : InRange axis2 x2) (metric : Metric) :
    ((build ![axis0, axis1, axis2] samples).eval ![x0, x1, x2]).m.get metric =
      (segmentAt axis0 x0).blend fun p => (segmentAt axis1 x1).blend fun q =>
        (segmentAt axis2 x2).blend fun r =>
          sampled axis1 axis2 samples metric (origin axis0 p) (origin axis1 q)
            (origin axis2 r) := by
  obtain ⟨hs0, hout0⟩ := h0.holds hx0
  obtain ⟨hs1, hout1⟩ := h1.holds hx1
  obtain ⟨hs2, hout2⟩ := h2.holds hx2
  have hplaced : ∀ p q r, p < axis0.length → q < axis1.length → r < axis2.length →
      (placed axis0 axis1 axis2 samples p q r).isFinite = true := by
    intro p q r hp hq hr
    exact hall _ _ _ (origin_lt hp) (origin_lt hq) (origin_lt hr)
  obtain ⟨cell, hcell, hget⟩ := interpolateCell_nested samples hs0 hs1 hs2 hout0 hout1 hout2 (by
    intro b0 b1 b2 hdropped
    rw [hplaced _ _ _ (segmentEnd_lt hs0 b0) (segmentEnd_lt hs1 b1) (segmentEnd_lt hs2 b2)]
      at hdropped
    exact absurd hdropped.symm Bool.false_ne_true)
  rw [eval_blended samples (build_anyValid samples hx0.pos hx1.pos hx2.pos
    (hplaced 0 0 0 hx0.pos hx1.pos hx2.pos)) hcell (by
      intro metric
      rw [hget]
      exact nested_nonneg samples hs0 hs1 hs2 metric), hget]
  have hvalue : ∀ p q r, p < axis0.length → q < axis1.length → r < axis2.length →
      valueAt axis0 axis1 axis2 samples metric p q r = sampled axis1 axis2 samples metric
        (origin axis0 p) (origin axis1 q) (origin axis2 r) := by
    intro p q r hp hq hr
    rw [valueAt, storedCell_of_finite (hplaced p q r hp hq hr)]
    rfl
  apply PiecewiseLinear.Segment.blend_congr <;> apply PiecewiseLinear.Segment.blend_congr <;>
    apply PiecewiseLinear.Segment.blend_congr
  · exact hvalue _ _ _ hs0.lo_lt hs1.lo_lt hs2.lo_lt
  · exact hvalue _ _ _ hs0.lo_lt hs1.lo_lt hs2.inside
  · exact hvalue _ _ _ hs0.lo_lt hs1.inside hs2.lo_lt
  · exact hvalue _ _ _ hs0.lo_lt hs1.inside hs2.inside
  · exact hvalue _ _ _ hs0.inside hs1.lo_lt hs2.lo_lt
  · exact hvalue _ _ _ hs0.inside hs1.lo_lt hs2.inside
  · exact hvalue _ _ _ hs0.inside hs1.inside hs2.lo_lt
  · exact hvalue _ _ _ hs0.inside hs1.inside hs2.inside

end build

/-- What it means that a cache over three axes interpolates its samples. It knows one
policy, so there is nothing for policies to agree on. -/
structure Interpolates (axis0 axis1 axis2 : List ℚ) (samples : List KernelMetrics)
    (cache : Cache3DLinear) : Prop where
  gridPoint : ∀ i j k, i < axis0.length → j < axis1.length → k < axis2.length →
    (sampleAt axis1 axis2 samples i j k).isFinite = true →
    cache.eval ![coordinate axis0 i, coordinate axis1 j, coordinate axis2 k] =
      ⟨Metrics4.fromSample (sampleAt axis1 axis2 samples i j k), CoverageFlags.empty,
        LeafMetrics.noBackend⟩
  corners : AllFinite axis0 axis1 axis2 samples → ∀ x0 x1 x2, InRange axis0 x0 →
    InRange axis1 x1 → InRange axis2 x2 →
    ∃ below0 above0 below1 above1 below2 above2, Neighbours axis0 x0 below0 above0 ∧
      Neighbours axis1 x1 below1 above1 ∧ Neighbours axis2 x2 below2 above2 ∧ ∀ metric,
      (∃ i j k, (i = below0 ∨ i = above0) ∧ (j = below1 ∨ j = above1) ∧
        (k = below2 ∨ k = above2) ∧ sampled axis1 axis2 samples metric i j k ≤
          (cache.eval ![x0, x1, x2]).m.get metric) ∧
      ∃ i j k, (i = below0 ∨ i = above0) ∧ (j = below1 ∨ j = above1) ∧
        (k = below2 ∨ k = above2) ∧ (cache.eval ![x0, x1, x2]).m.get metric ≤
          sampled axis1 axis2 samples metric i j k
  affine : AllFinite axis0 axis1 axis2 samples → ∀ metric (f : ℚ → ℚ → ℚ → ℚ),
    (∀ x1 x2, IsAffine fun x0 => f x0 x1 x2) → (∀ x0 x2, IsAffine fun x1 => f x0 x1 x2) →
    (∀ x0 x1, IsAffine (f x0 x1)) →
    (∀ i j k, i < axis0.length → j < axis1.length → k < axis2.length →
      sampled axis1 axis2 samples metric i j k =
        f (coordinate axis0 i) (coordinate axis1 j) (coordinate axis2 k)) →
    ∀ x0 x1 x2, InRange axis0 x0 → InRange axis1 x1 → InRange axis2 x2 →
      (cache.eval ![x0, x1, x2]).m.get metric = f x0 x1 x2
  monotone0 : AllFinite axis0 axis1 axis2 samples → ∀ metric,
    (∀ j k, j < axis1.length → k < axis2.length → ∀ i i', i < axis0.length →
      i' < axis0.length → coordinate axis0 i ≤ coordinate axis0 i' →
        sampled axis1 axis2 samples metric i j k ≤ sampled axis1 axis2 samples metric i' j k) →
    ∀ x0 y0 x1 x2, InRange axis0 x0 → InRange axis0 y0 → InRange axis1 x1 → InRange axis2 x2 →
      x0 ≤ y0 → (cache.eval ![x0, x1, x2]).m.get metric ≤ (cache.eval ![y0, x1, x2]).m.get metric
  monotone1 : AllFinite axis0 axis1 axis2 samples → ∀ metric,
    (∀ i k, i < axis0.length → k < axis2.length → ∀ j j', j < axis1.length →
      j' < axis1.length → coordinate axis1 j ≤ coordinate axis1 j' →
        sampled axis1 axis2 samples metric i j k ≤ sampled axis1 axis2 samples metric i j' k) →
    ∀ x0 x1 y1 x2, InRange axis0 x0 → InRange axis1 x1 → InRange axis1 y1 → InRange axis2 x2 →
      x1 ≤ y1 → (cache.eval ![x0, x1, x2]).m.get metric ≤ (cache.eval ![x0, y1, x2]).m.get metric
  monotone2 : AllFinite axis0 axis1 axis2 samples → ∀ metric,
    (∀ i j, i < axis0.length → j < axis1.length → ∀ k k', k < axis2.length →
      k' < axis2.length → coordinate axis2 k ≤ coordinate axis2 k' →
        sampled axis1 axis2 samples metric i j k ≤ sampled axis1 axis2 samples metric i j k') →
    ∀ x0 x1 x2 y2, InRange axis0 x0 → InRange axis1 x1 → InRange axis2 x2 → InRange axis2 y2 →
      x2 ≤ y2 → (cache.eval ![x0, x1, x2]).m.get metric ≤ (cache.eval ![x0, x1, y2]).m.get metric

theorem build_interpolates {axis0 axis1 axis2 : List ℚ} (samples : List KernelMetrics)
    (h0 : Separated axis0) (h1 : Separated axis1) (h2 : Separated axis2) :
    Interpolates axis0 axis1 axis2 samples (build ![axis0, axis1, axis2] samples) := by
  constructor
  case gridPoint =>
    intro i j k hi hj hk hfinite
    exact eval_gridPoint samples h0 h1 h2 hi hj hk hfinite
  case corners =>
    intro hall x0 x1 x2 hx0 hx1 hx2
    obtain ⟨hs0, _⟩ := h0.holds hx0
    obtain ⟨hs1, _⟩ := h1.holds hx1
    obtain ⟨hs2, _⟩ := h2.holds hx2
    refine ⟨_, _, _, _, _, _, h0.neighbours hs0, h1.neighbours hs1, h2.neighbours hs2, ?_⟩
    -- one axis at a time: a blend lies between its ends
    intro metric
    rw [eval_whole samples h0 h1 h2 hall hx0 hx1 hx2]
    constructor
    · obtain ⟨p, hp, hle⟩ := exists_end_le (g := fun p => (segmentAt axis1 x1).blend fun q =>
        (segmentAt axis2 x2).blend fun r => sampled axis1 axis2 samples metric (origin axis0 p)
          (origin axis1 q) (origin axis2 r)) hs0
      obtain ⟨q, hq, hle'⟩ := exists_end_le (g := fun q => (segmentAt axis2 x2).blend fun r =>
        sampled axis1 axis2 samples metric (origin axis0 p) (origin axis1 q) (origin axis2 r)) hs1
      obtain ⟨r, hr, hle''⟩ := exists_end_le (g := fun r =>
        sampled axis1 axis2 samples metric (origin axis0 p) (origin axis1 q) (origin axis2 r)) hs2
      exact ⟨origin axis0 p, origin axis1 q, origin axis2 r, hp.imp (congrArg _) (congrArg _),
        hq.imp (congrArg _) (congrArg _), hr.imp (congrArg _) (congrArg _),
        hle''.trans (hle'.trans hle)⟩
    · obtain ⟨p, hp, hle⟩ := exists_le_end (g := fun p => (segmentAt axis1 x1).blend fun q =>
        (segmentAt axis2 x2).blend fun r => sampled axis1 axis2 samples metric (origin axis0 p)
          (origin axis1 q) (origin axis2 r)) hs0
      obtain ⟨q, hq, hle'⟩ := exists_le_end (g := fun q => (segmentAt axis2 x2).blend fun r =>
        sampled axis1 axis2 samples metric (origin axis0 p) (origin axis1 q) (origin axis2 r)) hs1
      obtain ⟨r, hr, hle''⟩ := exists_le_end (g := fun r =>
        sampled axis1 axis2 samples metric (origin axis0 p) (origin axis1 q) (origin axis2 r)) hs2
      exact ⟨origin axis0 p, origin axis1 q, origin axis2 r, hp.imp (congrArg _) (congrArg _),
        hq.imp (congrArg _) (congrArg _), hr.imp (congrArg _) (congrArg _),
        hle.trans (hle'.trans hle'')⟩
  case affine =>
    intro hall metric f hf0 hf1 hf2 htable x0 x1 x2 hx0 hx1 hx2
    rw [eval_whole samples h0 h1 h2 hall hx0 hx1 hx2]
    apply blend_isAffine (h0.holds hx0).1 (hf0 x1 x2)
    intro p hp
    apply blend_isAffine (h1.holds hx1).1 (hf1 (coordinate axis0 (origin axis0 p)) x2)
    intro q hq
    apply blend_isAffine (h2.holds hx2).1 (hf2 (coordinate axis0 (origin axis0 p))
      (coordinate axis1 (origin axis1 q)))
    intro r hr
    exact htable _ _ _ (origin_lt hp) (origin_lt hq) (origin_lt hr)
  case monotone0 =>
    intro hall metric htable x0 y0 x1 x2 hx0 hy0 hx1 hx2 hle
    rw [eval_whole samples h0 h1 h2 hall hx0 hx1 hx2, eval_whole samples h0 h1 h2 hall hy0 hx1 hx2]
    obtain ⟨hs1, _⟩ := h1.holds hx1
    obtain ⟨hs2, _⟩ := h2.holds hx2
    apply (h0.holds hx0).1.blend_mono (h0.holds hy0).1 h0.increasing hle
    intro p p' hpp hp'
    -- along the moved axis the four neighbouring lines are each monotone
    apply hs1.blend_le_blend <;> apply hs2.blend_le_blend
    · exact mono_origin (htable _ _ (origin_lt hs1.lo_lt) (origin_lt hs2.lo_lt)) p p' hpp hp'
    · exact mono_origin (htable _ _ (origin_lt hs1.lo_lt) (origin_lt hs2.inside)) p p' hpp hp'
    · exact mono_origin (htable _ _ (origin_lt hs1.inside) (origin_lt hs2.lo_lt)) p p' hpp hp'
    · exact mono_origin (htable _ _ (origin_lt hs1.inside) (origin_lt hs2.inside)) p p' hpp hp'
  case monotone1 =>
    intro hall metric htable x0 x1 y1 x2 hx0 hx1 hy1 hx2 hle
    rw [eval_whole samples h0 h1 h2 hall hx0 hx1 hx2, eval_whole samples h0 h1 h2 hall hx0 hy1 hx2]
    obtain ⟨hs0, _⟩ := h0.holds hx0
    obtain ⟨hs2, _⟩ := h2.holds hx2
    have hinner : ∀ p, p < axis0.length → _ := fun p hp =>
      (h1.holds hx1).1.blend_mono (h1.holds hy1).1 h1.increasing hle
        (g := fun q => (segmentAt axis2 x2).blend fun r =>
          sampled axis1 axis2 samples metric (origin axis0 p) (origin axis1 q) (origin axis2 r))
        (by
          intro q q' hqq hq'
          apply hs2.blend_le_blend
          · exact mono_origin (htable _ _ (origin_lt hp) (origin_lt hs2.lo_lt)) q q' hqq hq'
          · exact mono_origin (htable _ _ (origin_lt hp) (origin_lt hs2.inside)) q q' hqq hq')
    exact hs0.blend_le_blend (hinner _ hs0.lo_lt) (hinner _ hs0.inside)
  case monotone2 =>
    intro hall metric htable x0 x1 x2 y2 hx0 hx1 hx2 hy2 hle
    rw [eval_whole samples h0 h1 h2 hall hx0 hx1 hx2, eval_whole samples h0 h1 h2 hall hx0 hx1 hy2]
    obtain ⟨hs0, _⟩ := h0.holds hx0
    obtain ⟨hs1, _⟩ := h1.holds hx1
    have hinner : ∀ p q, p < axis0.length → q < axis1.length → _ := fun p q hp hq =>
      (h2.holds hx2).1.blend_mono (h2.holds hy2).1 h2.increasing hle
        (mono_origin (htable _ _ (origin_lt hp) (origin_lt hq)))
    apply hs0.blend_le_blend <;> apply hs1.blend_le_blend
    · exact hinner _ _ hs0.lo_lt hs1.lo_lt
    · exact hinner _ _ hs0.lo_lt hs1.inside
    · exact hinner _ _ hs0.inside hs1.lo_lt
    · exact hinner _ _ hs0.inside hs1.inside

end Cache3DLinear

/-! ## Both caches -/

/-- **The grid caches interpolate their samples.** For every grid of two or three axes with
distinct, separated values in any order, and any samples, the caches are built and
return surviving points exactly, with empty coverage, under every policy; without drops
a lookup inside the grid lies between its corners, reproduces functions that are affine
in each coordinate, does not depend on the policy and grows with the table. -/
theorem grid_caches_interpolate (grid : SweepGrid) (samples : List KernelMetrics)
    (hseparated : ∀ axis ∈ grid.axes, Separated axis)
    (hcount : (grid.axes.map List.length).prod = samples.length) :
    (∀ axis0 axis1, grid.axes = [axis0, axis1] → ∃ cacheOf : Extrapolation → Cache2DLinear,
        (∀ policy, Cache2DLinear.fromSamplesWith grid samples policy = .ok (cacheOf policy)) ∧
        Cache2DLinear.Interpolates axis0 axis1 samples cacheOf) ∧
    ∀ axis0 axis1 axis2, grid.axes = [axis0, axis1, axis2] →
      ∃ cache : Cache3DLinear, Cache3DLinear.fromSamples grid samples = .ok cache ∧
        Cache3DLinear.Interpolates axis0 axis1 axis2 samples cache := by
  constructor
  · intro axis0 axis1 haxes
    rw [haxes] at hseparated hcount
    have hproduct : axis0.length * axis1.length = samples.length := by
      simpa using hcount
    refine ⟨Cache2DLinear.build axis0 axis1 samples, ?_,
      Cache2DLinear.build_interpolates samples (hseparated _ (by simp)) (hseparated _ (by simp))⟩
    intro policy
    rw [Cache2DLinear.fromSamplesWith, haxes]
    exact bind_eq_ok_iff.mpr ⟨(), ensure_eq_ok_iff.mpr hproduct, rfl⟩
  · intro axis0 axis1 axis2 haxes
    rw [haxes] at hseparated hcount
    have hproduct : axis0.length * axis1.length * axis2.length = samples.length := by
      simpa [Nat.mul_assoc] using hcount
    refine ⟨Cache3DLinear.build ![axis0, axis1, axis2] samples, ?_,
      Cache3DLinear.build_interpolates samples (hseparated _ (by simp)) (hseparated _ (by simp))
        (hseparated _ (by simp))⟩
    rw [Cache3DLinear.fromSamples, haxes]
    exact bind_eq_ok_iff.mpr ⟨(), ensure_eq_ok_iff.mpr hproduct, rfl⟩

/-- A grid whose first axis is not in order, with one dropped cell. -/
def smallGrid : SweepGrid := ⟨[[4, 1], [1, 2]], by simp, by simp⟩

theorem separated_pair {a b : ℚ} (h : 1 ≤ |a - b|) : Separated [a, b] := by
  have hgap : epsilon < 1 := by norm_num [epsilon]
  constructor
  · have hne : a ≠ b := by
      intro heq
      rw [heq, sub_self, abs_zero] at h
      norm_num at h
    simp [hne]
  · intro i j hi hj hlt
    simp only [List.length_cons, List.length_nil] at hi hj
    obtain rfl | rfl : i = 0 ∨ i = 1 := by omega
    · obtain rfl | rfl : j = 0 ∨ j = 1 := by omega
      · exact absurd hlt (lt_irrefl _)
      · change a + epsilon < b
        change a < b at hlt
        rw [abs_of_neg (sub_neg.mpr hlt)] at h
        linarith
    · obtain rfl | rfl : j = 0 ∨ j = 1 := by omega
      · change b + epsilon < a
        change b < a at hlt
        rw [abs_of_pos (sub_pos.mpr hlt)] at h
        linarith
      · exact absurd hlt (lt_irrefl _)

theorem grid_caches_interpolate_small : ∃ cacheOf : Extrapolation → Cache2DLinear,
    (∀ policy, Cache2DLinear.fromSamplesWith smallGrid
      [.timed 5, .timed 6, .nonFinite, .timed 3] policy = .ok (cacheOf policy)) ∧
    (cacheOf .weighted).eval 4 1 =
      ⟨Metrics4.fromSample (.timed 5), CoverageFlags.empty, LeafMetrics.noBackend⟩ := by
  obtain ⟨hplane, _⟩ := grid_caches_interpolate smallGrid
    [.timed 5, .timed 6, .nonFinite, .timed 3] (by
      intro axis haxis
      simp only [smallGrid, List.mem_cons, List.not_mem_nil, or_false] at haxis
      obtain rfl | rfl := haxis
      · exact separated_pair (by norm_num)
      · exact separated_pair (by norm_num)) (by decide)
  obtain ⟨cacheOf, hbuilt, hinterpolates⟩ := hplane [4, 1] [1, 2] rfl
  exact ⟨cacheOf, hbuilt, hinterpolates.gridPoint .weighted 0 0 (by decide) (by decide)
    (by decide +kernel)⟩

end ServingSim
