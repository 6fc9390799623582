import ServingSim.Kv.TokensFitting
import ServingSim.Kv.WindowTails

/-
  The longest prefix of an entry that fits (`largest_fitting`).

  An entry too large for its partition is cut at one of its resume positions. The source
  halves a range of context lengths and cuts at the position below the midpoint, so that
  the range is one of lengths while only positions are tried. A cut further down keeps
  fewer positions, and so fewer tokens, tails and states: the charge is monotone in the
  cut, which is what the halving needs.

  What is proved:
    1. `largest_fitting_greatest` — the entry is cut at the greatest position that fits, and
       dropped when none does; the halving ends.

  The end of an entry counts as its last position, as its type has it: `resume_positions`
  gives only such entries, and those cut elsewhere are kept whole when they fit.
-/

namespace ServingSim

namespace ResumePositions

variable {positions : ResumePositions}

/-! ## Positions below a length -/

theorem le_foldl_max (points : List Nat) (start : Nat) :
    start ≤ points.foldl max start ∧ ∀ p ∈ points, p ≤ points.foldl max start := by
  induction points generalizing start with
  | nil => simp
  | cons point rest ih =>
    obtain ⟨hstart, hrest⟩ := ih (max start point)
    rw [List.foldl_cons]
    refine ⟨(le_max_left _ _).trans hstart, ?_⟩
    intro p hp
    rcases List.mem_cons.mp hp with rfl | hp
    · exact (le_max_right _ _).trans hstart
    · exact hrest p hp

theorem foldl_max_mem (points : List Nat) (start : Nat) :
    points.foldl max start = start ∨ points.foldl max start ∈ points := by
  induction points generalizing start with
  | nil => exact .inl rfl
  | cons point rest ih =>
    rw [List.foldl_cons]
    rcases ih (max start point) with h | h
    · rw [h]
      rcases max_choice start point with hmax | hmax
      · exact .inl hmax
      · rw [hmax]
        exact .inr List.mem_cons_self
    · exact .inr (List.mem_cons_of_mem point h)

/-- `floor` answers the greatest position at or below a length, and 0 when there is none. -/
theorem floor_spec (h : positions.Ordered) (tokens : Nat) :
    (positions.floor tokens = 0 ∨ positions.floor tokens ∈ positions.positionSet) ∧
      ∀ p ∈ positions.positionSet, p ≤ tokens → p ≤ positions.floor tokens := by
  obtain ⟨hstart, hpoints⟩ := le_foldl_max
    (positions.explicitPoints.filter (· ≤ min tokens positions.lastPosition))
    (seriesFloor positions.every (min tokens positions.lastPosition))
  constructor
  · rcases foldl_max_mem
      (positions.explicitPoints.filter (· ≤ min tokens positions.lastPosition))
      (seriesFloor positions.every (min tokens positions.lastPosition)) with hseries | hexplicit
    · have hfloor : positions.floor tokens =
          seriesFloor positions.every (min tokens positions.lastPosition) := hseries
      by_cases hzero : positions.floor tokens = 0
      · exact .inl hzero
      · right
        refine (mem_positionSet h).mpr (.inr ⟨Nat.pos_of_ne_zero hzero,
          positions.floor_le_end tokens, ?_⟩)
        rw [hfloor] at hzero ⊢
        unfold seriesFloor at hzero ⊢
        unfold onSeries
        cases hevery : positions.every with
        | none => simp [hevery] at hzero
        | some spacing => simp
    · have hfloor : positions.floor tokens ∈
          positions.explicitPoints.filter (· ≤ min tokens positions.lastPosition) := hexplicit
      right
      have hmem := (List.mem_filter.mp hfloor).1
      obtain ⟨hpos, hle⟩ := h.within _ hmem
      exact Finset.mem_filter.mpr ⟨Finset.mem_Ioc.mpr ⟨hpos, hle⟩, .inl hmem⟩
  · intro p hp hle
    obtain ⟨hbounds, hkind⟩ := Finset.mem_filter.mp hp
    have hlast := (Finset.mem_Ioc.mp hbounds).2
    rcases hkind with hexplicit | hseries
    · apply hpoints
      simp [hexplicit, hle, hlast]
    · -- a multiple of the spacing is below the series' own floor
      refine le_trans ?_ hstart
      unfold onSeries at hseries
      unfold seriesFloor
      cases hevery : positions.every with
      | none => simp [hevery] at hseries
      | some spacing =>
        simp only [hevery, decide_eq_true_eq] at hseries
        calc p = p / spacing * spacing := (Nat.div_mul_cancel (Nat.dvd_of_mod_eq_zero hseries)).symm
          _ ≤ min tokens positions.lastPosition / spacing * spacing :=
            Nat.mul_le_mul_right _ (Nat.div_le_div_right (le_min hle hlast))

theorem floor_mono (h : positions.Ordered) {a b : Nat} (hab : a ≤ b) :
    positions.floor a ≤ positions.floor b := by
  rcases (floor_spec h a).1 with hzero | hmem
  · rw [hzero]
    exact Nat.zero_le _
  · exact (floor_spec h b).2 _ hmem ((positions.floor_le a).trans hab)

theorem floor_position (h : positions.Ordered) {p : Nat} (hp : p ∈ positions.positionSet) :
    positions.floor p = p :=
  Nat.le_antisymm (positions.floor_le p) ((floor_spec h p).2 p hp (Nat.le_refl p))

/-! ## The end as a position -/

theorem mem_positionSet_of_series {p : Nat} (hpos : 0 < p) (hle : p ≤ positions.lastPosition)
    (hseries : positions.onSeries p = true) : p ∈ positions.positionSet :=
  Finset.mem_filter.mpr ⟨Finset.mem_Ioc.mpr ⟨hpos, hle⟩, .inr hseries⟩

theorem end_everyUpTo (spacing tokens : Nat) :
    (everyUpTo spacing (tokens / spacing * spacing)).lastPosition = 0 ∨
      (everyUpTo spacing (tokens / spacing * spacing)).lastPosition ∈
        (everyUpTo spacing (tokens / spacing * spacing)).positionSet := by
  rcases Nat.eq_zero_or_pos (tokens / spacing * spacing) with hzero | hpos
  · exact .inl hzero
  · right
    apply mem_positionSet_of_series hpos (Nat.le_refl _)
    simp [onSeries, everyUpTo]

theorem end_ofExplicit (explicit : Option Nat × Option Nat) (every : Option Nat)
    (contextTokens : Nat) :
    (ofExplicit explicit every contextTokens).lastPosition = 0 ∨
      (ofExplicit explicit every contextTokens).lastPosition ∈
        (ofExplicit explicit every contextTokens).positionSet := by
  by_cases hzero : (ofExplicit explicit every contextTokens).lastPosition = 0
  · exact .inl hzero
  · right
    have hpos := Nat.pos_of_ne_zero hzero
    rw [lastPosition_ofExplicit] at hzero hpos
    rcases max_choice ((keptPoints explicit contextTokens).getLast?.getD 0)
      (seriesFloor every contextTokens) with hmax | hmax
    · -- the last explicit position
      rw [hmax] at hzero hpos
      have hmem : (keptPoints explicit contextTokens).getLast?.getD 0 ∈
          keptPoints explicit contextTokens := by
        cases hlast : (keptPoints explicit contextTokens).getLast? with
        | none => simp [hlast] at hzero
        | some p => exact List.mem_of_getLast? hlast
      refine Finset.mem_filter.mpr ⟨Finset.mem_Ioc.mpr ⟨?_, Nat.le_refl _⟩, .inl ?_⟩
      · rw [lastPosition_ofExplicit, hmax]
        exact hpos
      · rw [explicitPoints_eq_kept, lastPosition_ofExplicit, hmax]
        exact hmem
    · rw [hmax] at hzero hpos
      apply mem_positionSet_of_series _ (Nat.le_refl _)
      · rw [lastPosition_ofExplicit, hmax]
        cases every with
        | none => exact absurd (show seriesFloor none contextTokens = 0 from rfl) hzero
        | some spacing => simp [onSeries, ofExplicit, seriesFloor]
      · rw [lastPosition_ofExplicit, hmax]
        exact hpos

/-! ## Cutting -/

theorem truncated_end (h : positions.Ordered) :
    positions.truncated positions.lastPosition = positions := by
  have hkeep : ∀ point : Option Nat, (∀ p ∈ point, p ≤ positions.lastPosition) →
      point.filter (· ≤ positions.lastPosition) = point := by
    intro point hpoint
    cases point with
    | none => rfl
    | some p => simp [Option.filter, hpoint p rfl]
  have hfirst : ∀ p ∈ positions.explicit.1, p ≤ positions.lastPosition := by
    intro p hp
    apply (h.within p _).2
    simp [explicitPoints, List.reduceOption_mem_iff, Option.mem_def.mp hp]
  have hsecond : ∀ p ∈ positions.explicit.2, p ≤ positions.lastPosition := by
    intro p hp
    apply (h.within p _).2
    simp [explicitPoints, List.reduceOption_mem_iff, Option.mem_def.mp hp]
  unfold truncated
  rw [hkeep _ hfirst, hkeep _ hsecond, Nat.min_self]

theorem positionSet_truncated_mono {a b : Nat} (hab : a ≤ b) :
    (positions.truncated a).positionSet ⊆ (positions.truncated b).positionSet := by
  intro p hp
  simp only [positionSet, Finset.mem_filter, Finset.mem_Ioc, explicitPoints_truncated,
    List.mem_filter, decide_eq_true_eq] at hp ⊢
  obtain ⟨⟨hpos, hle⟩, hkind⟩ := hp
  have hlast : p ≤ (positions.truncated b).lastPosition := hle.trans (min_le_min_right _ hab)
  refine ⟨⟨hpos, hlast⟩, ?_⟩
  rcases hkind with ⟨hmem, hpa⟩ | hseries
  · exact .inl ⟨hmem, hpa.trans hab⟩
  · exact .inr hseries

end ResumePositions

namespace KvAccounting

open ResumePositions

variable (acc : KvAccounting) {positions : ResumePositions}

/-! ## The charge of a cut -/

theorem softCharge_mono {a b : ResumePositions} (ha : a.Ordered) (hb : b.Ordered)
    (hsub : a.positionSet ⊆ b.positionSet) : acc.softCharge a ≤ acc.softCharge b := by
  have htails : ∀ tail, a.windowTailUnion tail ≤ b.windowTailUnion tail := by
    intro tail
    rw [windowTailUnion_eq_card ha, windowTailUnion_eq_card hb]
    exact Finset.card_le_card (Finset.biUnion_subset_biUnion_of_subset_left _ hsub)
  have hcount : a.count ≤ b.count := by
    rw [count_eq_card ha, count_eq_card hb]
    exact Finset.card_le_card hsub
  apply Nat.add_le_add
  · exact List.sum_le_sum fun part _ => Nat.mul_le_mul_left _ (htails _)
  · exact Nat.mul_le_mul_left _ hcount

theorem entryCharge_eq_soft (positions : ResumePositions) :
    acc.entryCharge positions = acc.perTokenUnits positions.lastPosition +
      if acc.sparse then acc.softCharge positions else 0 := by
  unfold entryCharge softCharge
  cases acc.sparse with
  | true => simp [Nat.add_assoc]
  | false => simp

theorem entryCharge_truncated_mono (h : positions.Ordered) {a b : Nat} (hab : a ≤ b) :
    acc.entryCharge (positions.truncated a) ≤ acc.entryCharge (positions.truncated b) := by
  have hlast : (positions.truncated a).lastPosition ≤ (positions.truncated b).lastPosition :=
    min_le_min_right _ hab
  have hsoft := acc.softCharge_mono (h.truncated a) (h.truncated b)
    (positionSet_truncated_mono hab)
  rw [entryCharge_eq_soft, entryCharge_eq_soft]
  apply Nat.add_le_add (acc.perTokenUnits_mono hlast)
  split
  · exact hsoft
  · exact Nat.le_refl 0

/-! ## The search -/

/-- The test the halving makes of a context length. -/
def cutFits (positions : ResumePositions) (capacityUnits mid : Nat) : Bool :=
  acc.entryCharge (positions.truncated (positions.floor mid)) ≤ capacityUnits

theorem cutFits_holdsBelow (h : positions.Ordered) (capacityUnits : Nat) :
    HoldsBelow (acc.cutFits positions capacityUnits) := by
  intro len other hle hother
  rw [cutFits, decide_eq_true_eq] at hother ⊢
  exact (acc.entryCharge_truncated_mono h (floor_mono h hle)).trans hother

end KvAccounting

/-- Where an entry can be cut: at its positions and, to be kept whole, at its end. -/
def ResumePositions.cuts (positions : ResumePositions) : Finset Nat :=
  insert positions.lastPosition positions.positionSet

namespace KvAccounting

variable (acc : KvAccounting)

/-- `kept` is the cut at the greatest position whose charge is at most the capacity, or keeps
nothing where no position has one. -/
def GreatestCut (positions : ResumePositions) (capacityUnits : Nat) (kept : ResumePositions) :
    Prop :=
  (∃ best, IsGreatest {p | p ∈ positions.cuts ∧
      acc.entryCharge (positions.truncated p) ≤ capacityUnits} best ∧
    kept = positions.truncated best) ∨
  (∀ p ∈ positions.cuts, capacityUnits < acc.entryCharge (positions.truncated p)) ∧
    kept = positions.truncated 0

theorem greatestCut_largestFitting {positions : ResumePositions} (h : positions.Ordered)
    (capacityUnits : Nat) :
    acc.GreatestCut positions capacityUnits (acc.largestFitting positions capacityUnits) := by
  unfold largestFitting
  split
  · next hwhole =>
    left
    refine ⟨positions.lastPosition, ⟨⟨Finset.mem_insert_self _ _, ?_⟩, ?_⟩, ?_⟩
    · rw [ResumePositions.truncated_end h]
      exact hwhole
    · intro p hp
      rcases Finset.mem_insert.mp hp.1 with rfl | hmem
      · exact Nat.le_refl _
      · exact (Finset.mem_Ioc.mp (Finset.mem_filter.mp hmem).1).2
    · rw [ResumePositions.truncated_end h]
  · next hwhole =>
    obtain ⟨low, hlow⟩ : ∃ low, low = searchFitting (acc.cutFits positions capacityUnits)
        positions.lastPosition 0 positions.lastPosition := ⟨_, rfl⟩
    obtain ⟨-, hend, hfit, habove⟩ := (searchFitting_greatest
      (acc.cutFits_holdsBelow h capacityUnits) (Nat.zero_le _) (Nat.sub_le _ _) low).mp hlow.symm
    -- whatever fits is a position at or below the cut
    have hbelow : ∀ p ∈ positions.cuts, acc.entryCharge (positions.truncated p) ≤ capacityUnits →
          p ∈ positions.positionSet ∧ p ≤ positions.floor low := by
      intro p hp hcharge
      rcases Finset.mem_insert.mp hp with rfl | hmem
      · rw [ResumePositions.truncated_end h] at hcharge
        exact absurd hcharge hwhole
      · refine ⟨hmem, ?_⟩
        apply (ResumePositions.floor_spec h low).2 p hmem
        by_contra hlt
        have hfail := habove p (Nat.not_le.mp hlt)
          (Finset.mem_Ioc.mp (Finset.mem_filter.mp hmem).1).2
        rw [cutFits, ResumePositions.floor_position h hmem, decide_eq_false_iff_not] at hfail
        exact hfail hcharge
    show acc.GreatestCut positions capacityUnits (positions.truncated
      (positions.floor (searchFitting (acc.cutFits positions capacityUnits)
        positions.lastPosition 0 positions.lastPosition)))
    rw [← hlow]
    by_cases hzero : positions.floor low = 0
    · right
      refine ⟨?_, by rw [hzero]⟩
      intro p hp
      by_contra hcharge
      obtain ⟨hmem, hle⟩ := hbelow p hp (Nat.not_lt.mp hcharge)
      have hpos := (Finset.mem_Ioc.mp (Finset.mem_filter.mp hmem).1).1
      omega
    · left
      have hmem : positions.floor low ∈ positions.positionSet := by
        rcases (ResumePositions.floor_spec h low).1 with hnone | hmem
        · exact absurd hnone hzero
        · exact hmem
      have hcharge : acc.entryCharge (positions.truncated (positions.floor low)) ≤
          capacityUnits := by
        rcases hfit with rfl | hfit
        · exact absurd (ResumePositions.floor_zero positions) hzero
        · simpa [cutFits] using hfit
      refine ⟨positions.floor low, ⟨⟨Finset.mem_insert_of_mem hmem, hcharge⟩, ?_⟩, rfl⟩
      intro p hp
      exact (hbelow p hp.1 hp.2).2

/-- The end of what `resume_positions` gives is a position, or there is none. -/
theorem end_resumePositions (promptTokens contextTokens : Nat) :
    (acc.resumePositions promptTokens contextTokens).lastPosition = 0 ∨
      (acc.resumePositions promptTokens contextTokens).lastPosition ∈
        (acc.resumePositions promptTokens contextTokens).positionSet := by
  unfold resumePositions
  dsimp only
  split
  · exact ResumePositions.end_everyUpTo _ _
  · split <;> exact ResumePositions.end_ofExplicit _ _ _

/-- `largest_fitting` cuts an entry at the greatest position whose charge is at most the capacity
and keeps nothing when none has one; the end it may also keep is itself a position of every entry
`resume_positions` gives; and rounds beyond the entry's length change nothing. -/
theorem largest_fitting_greatest (acc : KvAccounting) (positions : ResumePositions)
    (capacityUnits : Nat) (h : acc.ResumeReached positions) :
    acc.GreatestCut positions capacityUnits (acc.largestFitting positions capacityUnits) ∧
    (∀ promptTokens contextTokens,
      (acc.resumePositions promptTokens contextTokens).lastPosition = 0 ∨
        (acc.resumePositions promptTokens contextTokens).lastPosition ∈
          (acc.resumePositions promptTokens contextTokens).positionSet) ∧
    ∀ more, searchFitting (acc.cutFits positions capacityUnits)
        (positions.lastPosition + more) 0 positions.lastPosition =
      searchFitting (acc.cutFits positions capacityUnits)
        positions.lastPosition 0 positions.lastPosition :=
  ⟨acc.greatestCut_largestFitting h.ordered capacityUnits, acc.end_resumePositions,
    searchFitting_fuel (acc.cutFits_holdsBelow h.ordered capacityUnits) (Nat.zero_le _)
      (Nat.sub_le _ _)⟩

theorem largest_fitting_of_cut :
    windowedTokens.GreatestCut cutPositions 40 (windowedTokens.largestFitting cutPositions 40) ∧
    windowedTokens.largestFitting cutPositions 40 = cutPositions.truncated 10 ∧
    windowedTokens.entryCharge (windowedTokens.largestFitting cutPositions 40) = 35 ∧
    18 ∈ (windowedTokens.resumePositions 7 18).positionSet ∧
    searchFitting (windowedTokens.cutFits cutPositions 40) 20 0 16 =
      searchFitting (windowedTokens.cutFits cutPositions 40) 16 0 16 := by
  obtain ⟨hgreatest, hend, hfuel⟩ :=
    largest_fitting_greatest windowedTokens cutPositions 40 (.truncated 16 (.resume 7 18))
  exact ⟨hgreatest, by decide +kernel, by decide +kernel,
    (hend 7 18).resolve_left (by decide +kernel), hfuel 4⟩

end KvAccounting

end ServingSim
