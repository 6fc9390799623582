import Mathlib.Tactic
import Mathlib.MeasureTheory.Integral.IntervalIntegral.Basic

/-
  Step functions given by their jumps.

  A list of jumps, each an instant and what it adds from then on, is a function that is
  constant between them. Its area over an interval is a sum of one term for each jump,
  which is exact over any ordered field; over the reals it is the integral.
-/

namespace StepFunction

section height

variable {K : Type*} [LinearOrder K]

/-- The height at an instant: what the jumps up to it add. -/
def height (jumps : List (K × ℤ)) (x : K) : ℤ :=
  ((jumps.filter fun jump => jump.1 ≤ x).map Prod.snd).sum

variable {jumps jumps' : List (K × ℤ)} {jump : K × ℤ} {x : K}

@[simp] theorem height_nil : height ([] : List (K × ℤ)) x = 0 := rfl

theorem height_cons : height (jump :: jumps) x =
    (if jump.1 ≤ x then jump.2 else 0) + height jumps x := by
  by_cases h : jump.1 ≤ x <;> simp [height, h]

theorem height_eq_sum (jumps : List (K × ℤ)) (x : K) :
    height jumps x = (jumps.map fun jump => if jump.1 ≤ x then jump.2 else 0).sum := by
  induction jumps with
  | nil => rfl
  | cons jump jumps ih => rw [height_cons, ih, List.map_cons, List.sum_cons]

theorem height_append : height (jumps ++ jumps') x = height jumps x + height jumps' x := by
  simp [height]

theorem height_perm (h : jumps.Perm jumps') : height jumps x = height jumps' x :=
  ((h.filter _).map _).sum_eq

theorem height_of_le (h : ∀ jump ∈ jumps, jump.1 ≤ x) :
    height jumps x = (jumps.map Prod.snd).sum := by
  rw [height, List.filter_eq_self.mpr fun jump hmem => decide_eq_true (h jump hmem)]

/-! ## Merging -/

/-- Merge neighbouring jumps at one instant. -/
def merge : List (K × ℤ) → List (K × ℤ)
  | [] => []
  | jump :: jumps =>
    match merge jumps with
    | [] => [jump]
    | next :: merged =>
      if next.1 = jump.1 then (jump.1, jump.2 + next.2) :: merged else jump :: next :: merged

theorem merge_cases (jump : K × ℤ) (jumps : List (K × ℤ)) :
    (∃ delta merged, merge jumps = (jump.1, delta) :: merged ∧
      merge (jump :: jumps) = (jump.1, jump.2 + delta) :: merged) ∨
    merge (jump :: jumps) = jump :: merge jumps ∧
      ∀ next ∈ (merge jumps).head?, next.1 ≠ jump.1 := by
  rw [merge]
  cases hmerged : merge jumps with
  | nil => exact .inr ⟨rfl, fun _ hmem => by cases hmem⟩
  | cons next merged =>
    by_cases h : next.1 = jump.1
    · exact .inl ⟨next.2, merged, by rw [← h], if_pos h⟩
    · refine .inr ⟨if_neg h, fun other hmem => ?_⟩
      rw [← Option.some.inj hmem]
      exact h

theorem height_merge (jumps : List (K × ℤ)) (x : K) : height (merge jumps) x = height jumps x := by
  induction jumps with
  | nil => rfl
  | cons jump jumps ih =>
    rcases merge_cases jump jumps with ⟨delta, merged, heq, hmerge⟩ | ⟨hmerge, -⟩
    · rw [heq, height_cons] at ih
      rw [hmerge, height_cons, height_cons, ← ih]
      split <;> ring
    · rw [hmerge, height_cons, height_cons, ih]

theorem mem_merge (hmem : jump ∈ merge jumps) : ∃ other ∈ jumps, other.1 = jump.1 := by
  induction jumps generalizing jump with
  | nil => exact (List.not_mem_nil hmem).elim
  | cons first jumps ih =>
    have hlater : ∀ {other}, other ∈ merge jumps → ∃ jump ∈ first :: jumps, jump.1 = other.1 := by
      intro other hother
      obtain ⟨jump, hjump, heq⟩ := ih hother
      exact ⟨jump, List.mem_cons_of_mem _ hjump, heq⟩
    rcases merge_cases first jumps with ⟨delta, merged, heq, hmerge⟩ | ⟨hmerge, -⟩
    · rw [hmerge] at hmem
      rcases List.mem_cons.mp hmem with rfl | hmem
      · exact ⟨first, List.mem_cons_self, rfl⟩
      · exact hlater (heq ▸ List.mem_cons_of_mem _ hmem)
    · rw [hmerge] at hmem
      rcases List.mem_cons.mp hmem with rfl | hmem
      · exact ⟨jump, List.mem_cons_self, rfl⟩
      · exact hlater hmem

theorem merge_ascending (h : jumps.Pairwise fun a b => a.1 ≤ b.1) :
    (merge jumps).Pairwise fun a b => a.1 < b.1 := by
  induction jumps with
  | nil => exact .nil
  | cons jump jumps ih =>
    rw [List.pairwise_cons] at h
    have hmerged := ih h.2
    rcases merge_cases jump jumps with ⟨delta, merged, heq, hmerge⟩ | ⟨hmerge, hne⟩
    · rw [heq, List.pairwise_cons] at hmerged
      rw [hmerge, List.pairwise_cons]
      exact hmerged
    · rw [hmerge, List.pairwise_cons]
      refine ⟨fun other hother => ?_, hmerged⟩
      -- the first of the rest is later, and the others are later still
      have hle : ∀ other ∈ merge jumps, jump.1 ≤ other.1 := by
        intro other hother
        obtain ⟨source, hsource, heq⟩ := mem_merge hother
        exact heq ▸ h.1 source hsource
      cases hcons : merge jumps with
      | nil =>
        rw [hcons] at hother
        exact (List.not_mem_nil hother).elim
      | cons next merged =>
        have hnext : jump.1 < next.1 := by
          refine lt_of_le_of_ne (hle next (hcons ▸ List.mem_cons_self)) fun heq => ?_
          exact hne next (by rw [hcons]; rfl) heq.symm
        rw [hcons] at hother hmerged
        rcases List.mem_cons.mp hother with rfl | hother
        · exact hnext
        · exact hnext.trans (List.rel_of_pairwise_cons hmerged hother)

end height

/-! ## Areas -/

section area

variable {K : Type*} [Field K] [LinearOrder K]

/-- The area over an interval: every jump counts from its instant on. -/
def area (jumps : List (K × ℤ)) (lo hi : K) : K :=
  (jumps.map fun jump => (jump.2 : K) * max 0 (hi - max jump.1 lo)).sum

variable {jumps jumps' : List (K × ℤ)} {jump : K × ℤ} {x lo mid hi : K}

@[simp] theorem area_nil : area ([] : List (K × ℤ)) lo hi = 0 := rfl

theorem area_cons : area (jump :: jumps) lo hi =
    (jump.2 : K) * max 0 (hi - max jump.1 lo) + area jumps lo hi := by
  simp [area]

theorem area_append : area (jumps ++ jumps') lo hi = area jumps lo hi + area jumps' lo hi := by
  simp [area]

theorem area_perm (h : jumps.Perm jumps') : area jumps lo hi = area jumps' lo hi :=
  (h.map _).sum_eq

theorem area_merge (jumps : List (K × ℤ)) (lo hi : K) :
    area (merge jumps) lo hi = area jumps lo hi := by
  induction jumps with
  | nil => rfl
  | cons jump jumps ih =>
    rcases merge_cases jump jumps with ⟨delta, merged, heq, hmerge⟩ | ⟨hmerge, -⟩
    · rw [heq, area_cons] at ih
      rw [hmerge, area_cons, area_cons, ← ih]
      push_cast
      ring
    · rw [hmerge, area_cons, area_cons, ih]

variable [IsStrictOrderedRing K]

theorem area_self : area jumps lo lo = 0 := by
  induction jumps with
  | nil => rfl
  | cons jump jumps ih =>
    have hnone : lo - max jump.1 lo ≤ 0 := sub_nonpos.mpr (le_max_right _ _)
    rw [area_cons, ih, max_eq_left hnone, mul_zero, add_zero]

theorem area_add (hlo : lo ≤ mid) (hhi : mid ≤ hi) :
    area jumps lo mid + area jumps mid hi = area jumps lo hi := by
  induction jumps with
  | nil => simp
  | cons jump jumps ih =>
    have hone : max 0 (mid - max jump.1 lo) + max 0 (hi - max jump.1 mid) =
        max 0 (hi - max jump.1 lo) := by
      rcases le_total jump.1 lo with h | h
      · rw [max_eq_right h, max_eq_right (h.trans hlo), max_eq_right (sub_nonneg.mpr hlo),
          max_eq_right (sub_nonneg.mpr hhi), max_eq_right (sub_nonneg.mpr (hlo.trans hhi))]
        ring
      · rw [max_eq_left h]
        rcases le_total jump.1 mid with h' | h'
        · rw [max_eq_right h', max_eq_right (sub_nonneg.mpr h'),
            max_eq_right (sub_nonneg.mpr hhi), max_eq_right (sub_nonneg.mpr (h'.trans hhi))]
          ring
        · rw [max_eq_left h', max_eq_left (sub_nonpos.mpr h'), zero_add]
    rw [area_cons, area_cons, area_cons, ← ih, ← hone]
    ring

theorem area_flat (hlo : lo ≤ mid) (hhi : mid ≤ hi) (h : ∀ jump ∈ jumps, jump.1 ≤ mid) :
    area jumps lo hi = area jumps lo mid + ((jumps.map Prod.snd).sum : ℤ) * (hi - mid) := by
  rw [← area_add hlo hhi]
  congr 1
  induction jumps with
  | nil => simp
  | cons jump jumps ih =>
    have hjump := h jump List.mem_cons_self
    rw [area_cons, ih fun other hmem => h other (List.mem_cons_of_mem _ hmem),
      max_eq_right hjump, max_eq_right (sub_nonneg.mpr hhi), List.map_cons, List.sum_cons]
    push_cast
    ring

end area

/-! ## Integrals -/

section integral

open MeasureTheory

theorem integral_jump (t lo hi : ℝ) (h : lo ≤ hi) :
    ∫ x in lo..hi, Set.indicator (Set.Ici t) 1 x = max 0 (hi - max t lo) := by
  rw [intervalIntegral.integral_of_le h, integral_indicator_one measurableSet_Ici,
    measureReal_restrict_apply measurableSet_Ici]
  rcases le_or_gt t lo with hle | hlt
  · have hinter : Set.Ici t ∩ Set.Ioc lo hi = Set.Ioc lo hi :=
      Set.inter_eq_right.mpr fun x hx => hle.trans hx.1.le
    rw [hinter, Real.volume_real_Ioc, max_eq_right hle, max_comm]
  · have hinter : Set.Ici t ∩ Set.Ioc lo hi = Set.Icc t hi := by
      ext x
      constructor
      · rintro ⟨ht, -, hhi⟩
        exact ⟨ht, hhi⟩
      · rintro ⟨ht, hhi⟩
        exact ⟨ht, hlt.trans_le ht, hhi⟩
    rw [hinter, Real.volume_real_Icc, max_eq_left hlt.le, max_comm]

theorem intervalIntegrable_jump (t lo hi : ℝ) :
    IntervalIntegrable (Set.indicator (Set.Ici t) (1 : ℝ → ℝ)) volume lo hi := by
  refine Monotone.intervalIntegrable fun x y hxy => ?_
  by_cases hx : t ≤ x
  · rw [Set.indicator_of_mem (Set.mem_Ici.mpr hx), Set.indicator_of_mem
      (Set.mem_Ici.mpr (hx.trans hxy))]
    exact le_refl _
  · rw [Set.indicator_of_notMem (fun hmem => hx (Set.mem_Ici.mp hmem))]
    exact Set.indicator_nonneg (fun _ _ => zero_le_one) y

theorem height_cons_real (jump : ℝ × ℤ) (jumps : List (ℝ × ℤ)) :
    (fun x => ((height (jump :: jumps) x : ℤ) : ℝ)) =
      fun x => (jump.2 : ℝ) * Set.indicator (Set.Ici jump.1) 1 x + (height jumps x : ℝ) := by
  funext x
  rw [height_cons]
  by_cases h : jump.1 ≤ x
  · simp [h]
  · simp [h]

theorem intervalIntegrable_height (jumps : List (ℝ × ℤ)) (lo hi : ℝ) :
    IntervalIntegrable (fun x => (height jumps x : ℝ)) volume lo hi := by
  induction jumps with
  | nil => simp
  | cons jump jumps ih =>
    rw [height_cons_real]
    exact ((intervalIntegrable_jump jump.1 lo hi).const_mul _).add ih

theorem integral_height (jumps : List (ℝ × ℤ)) {lo hi : ℝ} (h : lo ≤ hi) :
    ∫ x in lo..hi, (height jumps x : ℝ) = area jumps lo hi := by
  induction jumps with
  | nil => simp
  | cons jump jumps ih =>
    rw [height_cons_real, intervalIntegral.integral_add
      ((intervalIntegrable_jump jump.1 lo hi).const_mul _) (intervalIntegrable_height jumps lo hi),
      intervalIntegral.integral_const_mul, integral_jump _ _ _ h, ih, area_cons]

/-- Jumps at rational instants, on the reals. -/
def atReals (jumps : List (ℚ × ℤ)) : List (ℝ × ℤ) := jumps.map fun jump => (↑jump.1, jump.2)

theorem area_atReals (jumps : List (ℚ × ℤ)) (lo hi : ℚ) :
    area (atReals jumps) (lo : ℝ) (hi : ℝ) = ((area jumps lo hi : ℚ) : ℝ) := by
  induction jumps with
  | nil => simp [atReals]
  | cons jump jumps ih =>
    rw [atReals, List.map_cons, area_cons, area_cons, ← atReals, ih]
    push_cast
    rfl

theorem integral_atReals (jumps : List (ℚ × ℤ)) {lo hi : ℚ} (h : lo ≤ hi) :
    ∫ x in (lo : ℝ)..hi, (height (atReals jumps) x : ℝ) = ((area jumps lo hi : ℚ) : ℝ) := by
  rw [integral_height _ (Rat.cast_le.mpr h), area_atReals]

end integral

end StepFunction
