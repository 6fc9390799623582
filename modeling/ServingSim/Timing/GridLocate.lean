import Mathlib.Data.List.GetD
import ServingSim.Timing.GridCache

/-
  Locating a point on a cache axis (`timing::cache::interp::locate`).

  The halving search ends at the last place whose coordinate is not above the point.
  The segment there holds the point, in the sense of the interpolation library, if
  different coordinates are further apart than the tolerance below which `locate` takes
  a segment for a single point.
-/

namespace ServingSim

open PiecewiseLinear

/-- The coordinate at a place of an axis. -/
abbrev coordinate (xs : List ℚ) : Nat → ℚ := fun i => xs.getD i 0

/-- In order, and different coordinates are further apart than the tolerance. -/
def Spaced (xs : List ℚ) : Prop :=
  ∀ i j, i < j → j < xs.length →
    coordinate xs i = coordinate xs j ∨ coordinate xs i + epsilon < coordinate xs j

theorem epsilon_pos : 0 < epsilon := by norm_num [epsilon]

/-- In order. -/
def Ordered (xs : List ℚ) : Prop :=
  ∀ i j, i ≤ j → j < xs.length → coordinate xs i ≤ coordinate xs j

variable {xs : List ℚ}

theorem Spaced.ordered (h : Spaced xs) : Ordered xs := by
  intro i j hij hj
  obtain heq | hlt := Nat.eq_or_lt_of_le hij
  · rw [heq]
  · obtain heq | hgap := h i j hlt hj
    · exact heq.le
    · have := epsilon_pos
      linarith

/-- The point lies between the first and the last coordinate. -/
def WithinAxis (xs : List ℚ) (x : ℚ) : Prop :=
  coordinate xs 0 ≤ x ∧ x ≤ coordinate xs (xs.length - 1)

/-! ## The search -/

theorem searchSegment_spec (h : Ordered xs) (x : ℚ) (fuel lo size : Nat)
    (hfuel : size ≤ fuel) (hsize : 0 < size) (hfits : lo + size ≤ xs.length)
    (hlo : lo = 0 ∨ coordinate xs lo ≤ x)
    (hend : lo + size = xs.length ∨ x < coordinate xs (lo + size)) :
    let place := searchSegment xs x fuel lo size
    place < xs.length ∧ (place = 0 ∨ coordinate xs place ≤ x) ∧
      (place + 1 = xs.length ∨ x < coordinate xs (place + 1)) := by
  induction fuel generalizing lo size with
  | zero => omega
  | succ fuel ih =>
    rw [searchSegment]
    by_cases hone : 1 < size
    · rw [if_pos hone]
      have hhalf : 0 < size / 2 := Nat.div_pos hone (by decide)
      have hdouble : 2 * (size / 2) ≤ size := Nat.mul_div_le size 2
      by_cases hmid : coordinate xs (lo + size / 2) ≤ x
      · -- the upper part: it has the same end
        simp only [if_pos hmid]
        have hsame : lo + size / 2 + (size - size / 2) = lo + size := by omega
        exact ih _ _ (by omega) (by omega) (by omega) (Or.inr hmid) (hsame ▸ hend)
      · -- the lower part: its end is not before the place that was too high
        simp only [if_neg hmid]
        refine ih _ _ (by omega) (by omega) (by omega) hlo ?_
        by_cases hlast : lo + (size - size / 2) = xs.length
        · exact Or.inl hlast
        · right
          have hle : coordinate xs (lo + size / 2) ≤ coordinate xs (lo + (size - size / 2)) :=
            h _ _ (by omega) (by omega)
          exact lt_of_lt_of_le (not_le.mp hmid) hle
    · rw [if_neg hone]
      obtain rfl : size = 1 := by omega
      exact ⟨by omega, hlo, hend⟩

theorem searchSegment_encloses (h : Ordered xs) (htwo : 1 < xs.length) {x : ℚ}
    (hx : WithinAxis xs x) :
    let lo := min (searchSegment xs x xs.length 0 xs.length) (xs.length - 1 - 1)
    lo + 1 < xs.length ∧ coordinate xs lo ≤ x ∧ x ≤ coordinate xs (lo + 1) := by
  obtain ⟨hlower, hupper⟩ := hx
  obtain ⟨hplace, hnot, hnext⟩ := searchSegment_spec h x xs.length 0 xs.length le_rfl
    (by omega) (by omega) (Or.inl rfl) (Or.inl (Nat.zero_add _))
  obtain ⟨place, hsearch⟩ : ∃ place, place = searchSegment xs x xs.length 0 xs.length := ⟨_, rfl⟩
  rw [← hsearch] at hplace hnot hnext ⊢
  intro lo
  have hmin : lo = min place (xs.length - 1 - 1) := rfl
  refine ⟨by omega, ?_, ?_⟩
  · obtain hzero | hle := hnot
    · have : lo = 0 := by omega
      rw [this]
      exact hlower
    · exact (h _ _ (by omega) hplace).trans hle
  · by_cases hlast : place + 1 < xs.length
    · have hsame : lo = place := by omega
      rw [hsame]
      exact (hnext.resolve_left (by omega)).le
    · have hend : lo + 1 = xs.length - 1 := by omega
      rw [hend]
      exact hupper

/-! ## The segment -/

theorem locate_single (hone : xs.length = 1) {x : ℚ} (hx : WithinAxis xs x) :
    (locate xs x).1.Holds (coordinate xs) xs.length x ∧ (locate xs x).2 = false := by
  obtain ⟨hlower, hupper⟩ := hx
  rw [hone] at hupper
  have heq : xs.getD 0 0 = x := le_antisymm hlower hupper
  simp only [locate, if_pos hone, heq, sub_self, abs_zero, decide_eq_false_iff_not, not_lt]
  refine ⟨?_, epsilon_pos.le⟩
  constructor
  · exact Nat.le_refl 0
  · exact Nat.zero_le 1
  · rw [hone]
    exact Nat.one_pos
  · exact le_refl 0
  · exact zero_le_one
  · change (1 - 0) * xs.getD 0 0 + 0 * xs.getD 0 0 = x
    rw [heq]
    ring

theorem locate_weights (h : Ordered xs) (hpos : 0 < xs.length) {x : ℚ}
    (hx : WithinAxis xs x) :
    (locate xs x).1.lo ≤ (locate xs x).1.hi ∧ (locate xs x).1.hi < xs.length ∧
      0 ≤ (locate xs x).1.t ∧ (locate xs x).1.t ≤ 1 := by
  by_cases hone : xs.length = 1
  · obtain ⟨hholds, _⟩ := locate_single hone hx
    exact ⟨hholds.ordered, hholds.inside, hholds.nonneg, hholds.le_one⟩
  · obtain ⟨hinside, hbelow, habove⟩ := searchSegment_encloses h (by omega) hx
    simp only [locate, if_neg hone]
    refine ⟨Nat.le_succ _, hinside, ?_⟩
    split
    · exact ⟨le_refl 0, zero_le_one⟩
    · rename_i hwide
      have hwidth := sub_nonneg.mpr (hbelow.trans habove)
      have hpositive := lt_of_le_of_ne hwidth (by
        intro hzero
        apply hwide
        change |coordinate xs _ - coordinate xs _| ≤ epsilon
        rw [← hzero, abs_zero]
        exact epsilon_pos.le)
      exact ⟨div_nonneg (sub_nonneg.mpr hbelow) hwidth,
        (div_le_one hpositive).mpr (sub_le_sub_right habove _)⟩

theorem locate_holds (h : Spaced xs) (hpos : 0 < xs.length) {x : ℚ}
    (hx : WithinAxis xs x) :
    (locate xs x).1.Holds (coordinate xs) xs.length x ∧ (locate xs x).2 = false := by
  by_cases hone : xs.length = 1
  · exact locate_single hone hx
  · obtain ⟨hordered, hlt, hnonneg, hle⟩ := locate_weights h.ordered hpos hx
    obtain ⟨hinside, hbelow, habove⟩ := searchSegment_encloses h.ordered (by omega) hx
    constructor
    case right =>
      simp only [locate, if_neg hone]
      rw [decide_eq_false_iff_not, not_or, not_lt, not_lt]
      exact hx
    case left =>
      refine ⟨hordered, ?_, hlt, hnonneg, hle, ?_⟩
      · simp only [locate, if_neg hone]
        exact Nat.le_refl _
      · simp only [locate, if_neg hone, PiecewiseLinear.Segment.blend]
        obtain ⟨lo, hlo⟩ : ∃ lo, lo = min (searchSegment xs x xs.length 0 xs.length)
          (xs.length - 1 - 1) := ⟨_, rfl⟩
        rw [← hlo] at hinside hbelow habove ⊢
        obtain heq | hgap := h lo (lo + 1) (Nat.lt_succ_self lo) hinside
        · -- a segment without width is its point
          have hwidth : xs.getD (lo + 1) 0 - xs.getD lo 0 = 0 := sub_eq_zero.mpr heq.symm
          have hpoint : coordinate xs lo = x := le_antisymm hbelow (habove.trans_eq heq.symm)
          rw [hwidth, abs_zero, if_pos epsilon_pos.le, hpoint]
          ring
        · have hwide : epsilon < xs.getD (lo + 1) 0 - xs.getD lo 0 := by
            have : xs.getD lo 0 + epsilon < xs.getD (lo + 1) 0 := hgap
            linarith
          have hwidth : 0 < xs.getD (lo + 1) 0 - xs.getD lo 0 := epsilon_pos.trans hwide
          rw [abs_of_pos hwidth, if_neg (not_le.mpr hwide)]
          simp only [coordinate]
          field_simp
          ring

/-! ## Sorted axes -/

theorem axisOrder_perm (axis : List ℚ) : (axisOrder axis).Perm (List.range axis.length) :=
  List.mergeSort_perm _ _

theorem length_axisOrder (axis : List ℚ) : (axisOrder axis).length = axis.length := by
  rw [(axisOrder_perm axis).length_eq, List.length_range]

@[simp] theorem length_sortedAxis (axis : List ℚ) : (sortedAxis axis).length = axis.length := by
  rw [sortedAxis, List.length_map, length_axisOrder]

/-- The place of the unsorted axis whose value stands at a place of the sorted one. -/
def origin (axis : List ℚ) (place : Nat) : Nat := (axisOrder axis).getD place 0

variable {axis : List ℚ}

theorem origin_lt {place : Nat} (hplace : place < axis.length) :
    origin axis place < axis.length := by
  have hlt : place < (axisOrder axis).length := by
    rw [length_axisOrder]
    exact hplace
  rw [origin, List.getD_eq_getElem _ _ hlt, ← List.mem_range]
  exact (axisOrder_perm axis).mem_iff.mp (List.getElem_mem hlt)

theorem coordinate_sortedAxis {place : Nat} (hplace : place < axis.length) :
    coordinate (sortedAxis axis) place = coordinate axis (origin axis place) := by
  have hlt : place < (axisOrder axis).length := by
    rw [length_axisOrder]
    exact hplace
  rw [coordinate, sortedAxis, List.getD_eq_getElem _ _ (by simpa using hlt), List.getElem_map,
    origin, List.getD_eq_getElem _ _ hlt]

theorem exists_place {i : Nat} (hi : i < axis.length) :
    ∃ place, place < axis.length ∧ origin axis place = i := by
  have hmem : i ∈ axisOrder axis := (axisOrder_perm axis).mem_iff.mpr (List.mem_range.mpr hi)
  obtain ⟨place, hplace, hget⟩ := List.getElem_of_mem hmem
  refine ⟨place, length_axisOrder axis ▸ hplace, ?_⟩
  rw [origin, List.getD_eq_getElem _ _ hplace, hget]

theorem sortedAxis_le {i j : Nat} (hij : i < j) (hj : j < axis.length) :
    coordinate (sortedAxis axis) i ≤ coordinate (sortedAxis axis) j := by
  have hsorted : (axisOrder axis).Pairwise fun a b =>
      decide (axis.getD a 0 ≤ axis.getD b 0) = true := by
    apply List.pairwise_mergeSort
    · intro a b c hab hbc
      exact decide_eq_true ((of_decide_eq_true hab).trans (of_decide_eq_true hbc))
    · intro a b
      simpa using le_total (axis.getD a 0) (axis.getD b 0)
  have hi' : i < (axisOrder axis).length := by
    rw [length_axisOrder]
    omega
  have hj' : j < (axisOrder axis).length := by
    rw [length_axisOrder]
    exact hj
  have hpair := of_decide_eq_true (List.pairwise_iff_getElem.mp hsorted i j hi' hj' hij)
  rw [coordinate_sortedAxis (hij.trans hj), coordinate_sortedAxis hj, origin, origin,
    List.getD_eq_getElem _ _ hi', List.getD_eq_getElem _ _ hj']
  exact hpair

theorem sortedAxis_ordered (axis : List ℚ) : Ordered (sortedAxis axis) := by
  intro i j hij hj
  obtain heq | hlt := Nat.eq_or_lt_of_le hij
  · rw [heq]
  · exact sortedAxis_le hlt (length_sortedAxis axis ▸ hj)

/-- Different values of an axis are further apart than the tolerance. -/
def AxisSpaced (axis : List ℚ) : Prop :=
  ∀ i j, i < axis.length → j < axis.length → coordinate axis i < coordinate axis j →
    coordinate axis i + epsilon < coordinate axis j

theorem sortedAxis_spaced (h : AxisSpaced axis) : Spaced (sortedAxis axis) := by
  intro i j hij hj
  rw [length_sortedAxis] at hj
  have hi : i < axis.length := hij.trans hj
  have hle := sortedAxis_le hij hj
  rw [coordinate_sortedAxis hi, coordinate_sortedAxis hj] at hle ⊢
  obtain heq | hlt := eq_or_lt_of_le hle
  · exact Or.inl heq
  · exact Or.inr (h _ _ (origin_lt hi) (origin_lt hj) hlt)

theorem sortedAxis_increasing (hdistinct : axis.Nodup) :
    Increasing (coordinate (sortedAxis axis)) axis.length := by
  intro i j hij hj
  have hi : i < axis.length := hij.trans hj
  apply lt_of_le_of_ne (sortedAxis_le hij hj)
  rw [coordinate_sortedAxis hi, coordinate_sortedAxis hj]
  intro heq
  rw [coordinate, coordinate, List.getD_eq_getElem _ _ (origin_lt hi),
    List.getD_eq_getElem _ _ (origin_lt hj)] at heq
  have horigin : origin axis i = origin axis j := hdistinct.getElem_inj_iff.mp heq
  have hi' : i < (axisOrder axis).length := by
    rw [length_axisOrder]
    exact hi
  have hj' : j < (axisOrder axis).length := by
    rw [length_axisOrder]
    exact hj
  rw [origin, origin, List.getD_eq_getElem _ _ hi', List.getD_eq_getElem _ _ hj'] at horigin
  have hnodup : (axisOrder axis).Nodup := (axisOrder_perm axis).nodup_iff.mpr List.nodup_range
  have := hnodup.getElem_inj_iff.mp horigin
  omega

end ServingSim
