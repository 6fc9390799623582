import Mathlib.Algebra.Order.Field.Basic
import Mathlib.Tactic

/-
  Piecewise linear interpolation along one axis.

  A segment of an axis is two neighbouring places and a fraction between them. It
  holds a point if the two coordinates blend to the point. Nothing here depends on how
  a segment is searched for: two segments that hold one point blend alike.

  Blends nest. Interpolation over a grid of several axes is a blend over the first axis
  of blends over the others, so each law below carries over axis by axis.
-/

namespace PiecewiseLinear

/-! ## Increasing coordinates -/

section axis

variable {K : Type*} [LinearOrder K] {axis : Nat → K} {n : Nat}

/-- The coordinates of the first `n` places increase. -/
def Increasing (axis : Nat → K) (n : Nat) : Prop := ∀ i j, i < j → j < n → axis i < axis j

theorem Increasing.le_of_le (h : Increasing axis n) {i j : Nat} (hi : i < n)
    (hle : axis i ≤ axis j) : i ≤ j := by
  by_contra hlt
  exact absurd hle (not_le.mpr (h j i (Nat.lt_of_not_le hlt) hi))

end axis

/-! ## Segments -/

/-- Places `lo` and `hi` of an axis and a fraction of the way between them. -/
structure Segment (K : Type*) where
  lo : Nat
  hi : Nat
  t : K

variable {K : Type*} [Field K]

/-- The value between the two ends. -/
def Segment.blend (s : Segment K) (g : Nat → K) : K := (1 - s.t) * g s.lo + s.t * g s.hi

theorem Segment.blend_congr {s : Segment K} {g g' : Nat → K} (hlo : g s.lo = g' s.lo)
    (hhi : g s.hi = g' s.hi) : s.blend g = s.blend g' := by
  rw [blend, blend, hlo, hhi]

/-- The segment joins neighbours of the first `n` places of the axis, and its fraction
leads to the point `x`. -/
structure Segment.Holds [LE K] (s : Segment K) (axis : Nat → K) (n : Nat) (x : K) : Prop where
  ordered : s.lo ≤ s.hi
  neighbours : s.hi ≤ s.lo + 1
  inside : s.hi < n
  nonneg : 0 ≤ s.t
  le_one : s.t ≤ 1
  point : s.blend axis = x

namespace Segment.Holds

variable [LinearOrder K] {s s' : Segment K} {axis g : Nat → K} {n : Nat} {x y : K}

theorem lo_lt (h : s.Holds axis n x) : s.lo < n := Nat.lt_of_le_of_lt h.ordered h.inside

theorem ends_le (h : s.Holds axis n x) (hinc : Increasing axis n) : axis s.lo ≤ axis s.hi := by
  obtain heq | hlt := Nat.eq_or_lt_of_le h.ordered
  · rw [heq]
  · exact (hinc _ _ hlt h.inside).le

theorem width_mul (h : s.Holds axis n x) : s.t * (axis s.hi - axis s.lo) = x - axis s.lo := by
  rw [← h.point, blend]
  ring

theorem blend_affine (h : s.Holds axis n x) {a b : K} (hlo : g s.lo = a + b * axis s.lo)
    (hhi : g s.hi = a + b * axis s.hi) : s.blend g = a + b * x := by
  rw [← h.point, blend, blend, hlo, hhi]
  ring

variable [IsStrictOrderedRing K]

/-! ## Between the ends -/

theorem blend_le_blend (h : s.Holds axis n x) {g' : Nat → K} (hlo : g s.lo ≤ g' s.lo)
    (hhi : g s.hi ≤ g' s.hi) : s.blend g ≤ s.blend g' := by
  apply add_le_add
  · exact mul_le_mul_of_nonneg_left hlo (sub_nonneg.mpr h.le_one)
  · exact mul_le_mul_of_nonneg_left hhi h.nonneg

omit [LinearOrder K] [IsStrictOrderedRing K] in
theorem blend_const (s : Segment K) (b : K) : s.blend (fun _ => b) = b := by
  rw [blend]
  ring

theorem blend_le (h : s.Holds axis n x) {b : K} (hlo : g s.lo ≤ b) (hhi : g s.hi ≤ b) :
    s.blend g ≤ b := by
  have hconst : s.blend g ≤ s.blend fun _ => b := h.blend_le_blend hlo hhi
  exact hconst.trans_eq (blend_const s b)

theorem le_blend (h : s.Holds axis n x) {b : K} (hlo : b ≤ g s.lo) (hhi : b ≤ g s.hi) :
    b ≤ s.blend g :=
  (blend_const s b).ge.trans (h.blend_le_blend hlo hhi)

theorem blend_between (h : s.Holds axis n x) :
    min (g s.lo) (g s.hi) ≤ s.blend g ∧ s.blend g ≤ max (g s.lo) (g s.hi) :=
  ⟨h.le_blend (min_le_left _ _) (min_le_right _ _), h.blend_le (le_max_left _ _) (le_max_right _ _)⟩

theorem lo_le (h : s.Holds axis n x) (hinc : Increasing axis n) : axis s.lo ≤ x := by
  rw [← h.point]
  exact h.le_blend le_rfl (h.ends_le hinc)

theorem le_hi (h : s.Holds axis n x) (hinc : Increasing axis n) : x ≤ axis s.hi := by
  rw [← h.point]
  exact h.blend_le (h.ends_le hinc) le_rfl

/-! ## At a point of the axis -/

section

variable (h : s.Holds axis n x) (hinc : Increasing axis n) {k : Nat} (hk : k < n)
  (hx : axis k = x)

include h hinc k hk hx

theorem lo_eq (hweight : 1 - s.t ≠ 0) : s.lo = k := by
  subst hx
  have hlo : s.lo ≤ k := hinc.le_of_le h.lo_lt (h.lo_le hinc)
  have hhi : k ≤ s.hi := hinc.le_of_le hk (h.le_hi hinc)
  by_contra hne
  -- the point is above the lower end, so it is the upper one, and the fraction is 1
  have hupper : s.hi = k := by
    have := h.neighbours
    omega
  have hwidth := h.width_mul
  rw [hupper] at hwidth
  have hpos : axis k - axis s.lo ≠ 0 := (sub_pos.mpr (hinc _ _ (by omega) hk)).ne'
  have hone : s.t = 1 := mul_right_cancel₀ hpos (hwidth.trans (one_mul _).symm)
  rw [hone] at hweight
  exact hweight (sub_self 1)

theorem hi_eq (hweight : s.t ≠ 0) : s.hi = k := by
  subst hx
  have hlo : s.lo ≤ k := hinc.le_of_le h.lo_lt (h.lo_le hinc)
  have hhi : k ≤ s.hi := hinc.le_of_le hk (h.le_hi hinc)
  by_contra hne
  have hlower : s.lo = k := by
    have := h.neighbours
    omega
  have hwidth := h.width_mul
  rw [hlower, sub_self] at hwidth
  have hpos : axis s.hi - axis k ≠ 0 := (sub_pos.mpr (hinc _ _ (by omega) h.inside)).ne'
  exact hweight ((mul_eq_zero.mp hwidth).resolve_right hpos)

theorem blend_at : s.blend g = g k := by
  by_cases hzero : s.t = 0
  · have hlo : s.lo = k := h.lo_eq hinc hk hx (by rw [hzero, sub_zero]; exact one_ne_zero)
    rw [blend, hzero, hlo]
    ring
  · have hhi : s.hi = k := h.hi_eq hinc hk hx hzero
    by_cases hone : 1 - s.t = 0
    · rw [blend, hone, hhi, ← sub_eq_zero.mp hone]
      ring
    · rw [blend, hhi, h.lo_eq hinc hk hx hone]
      ring

end

/-! ## Along the axis -/

theorem blend_mono (h : s.Holds axis n x) (h' : s'.Holds axis n y) (hinc : Increasing axis n)
    (hxy : x ≤ y) (hg : ∀ i j, i ≤ j → j < n → g i ≤ g j) : s.blend g ≤ s'.blend g := by
  by_cases happart : s.hi ≤ s'.lo
  · -- the second segment starts behind the first
    calc s.blend g ≤ g s.hi := h.blend_le (hg _ _ h.ordered h.inside) le_rfl
      _ ≤ g s'.lo := hg _ _ happart h'.lo_lt
      _ ≤ s'.blend g := h'.le_blend le_rfl (hg _ _ h'.ordered h'.inside)
  · have hlo : s'.lo ≤ s.lo := by
      have := h.neighbours
      omega
    by_cases hbefore : s'.hi ≤ s.lo
    · -- both points are the place where the segments meet
      have hmeet : axis s.lo ≤ axis s'.hi := (h.lo_le hinc).trans (hxy.trans (h'.le_hi hinc))
      have hplace : s.lo = s'.hi := Nat.le_antisymm (hinc.le_of_le h.lo_lt hmeet) hbefore
      have hy : axis s'.hi = y := le_antisymm (hplace ▸ (h.lo_le hinc).trans hxy) (h'.le_hi hinc)
      have hx : axis s'.hi = x := le_antisymm (hplace ▸ h.lo_le hinc) (hxy.trans (h'.le_hi hinc))
      rw [h.blend_at hinc h'.inside hx, h'.blend_at hinc h'.inside hy]
    · -- one segment, and the fraction grows with the point
      have hsame : s'.lo = s.lo := by
        have := h'.neighbours
        omega
      have hsame' : s'.hi = s.hi := by
        have := h.neighbours
        have := h'.neighbours
        omega
      have hlt : s.lo < s.hi := by omega
      have hwidth : 0 < axis s.hi - axis s.lo := sub_pos.mpr (hinc _ _ hlt h.inside)
      have ht : s.t ≤ s'.t := by
        have hfirst := h.width_mul
        have hsecond := h'.width_mul
        rw [hsame, hsame'] at hsecond
        apply le_of_mul_le_mul_right _ hwidth
        rw [hfirst, hsecond]
        exact sub_le_sub_right hxy _
      have hvalues : 0 ≤ g s.hi - g s.lo := sub_nonneg.mpr (hg _ _ h.ordered h.inside)
      calc s.blend g = g s.lo + s.t * (g s.hi - g s.lo) := by
            rw [blend]
            ring
        _ ≤ g s.lo + s'.t * (g s.hi - g s.lo) :=
            add_le_add_right (mul_le_mul_of_nonneg_right ht hvalues) _
        _ = s'.blend g := by
            rw [blend, hsame, hsame']
            ring

end Segment.Holds

end PiecewiseLinear
