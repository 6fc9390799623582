import ServingSim.Analyzer.RequestState

/-
  Binned populations are exact time averages.

  The sweep has at every time, in each bin, the area under the deltas behind it, up to
  that time. Between two times the population stands still, so the bins an interval
  touches take its height times their overlap with it; the floor and the ceiling leave
  out only bins that have none.
-/

namespace ServingSim.RequestState

open StepFunction

/-! ## Bins -/

/-- The length a bin shares with an interval. -/
def overlap (binWidth : ℚ) (bin : Nat) (startMs endMs : ℚ) : ℚ :=
  max 0 (min endMs ((bin + 1 : Nat) * binWidth) - max startMs (bin * binWidth))

section bins

variable {bins : List ℚ} {binWidth startMs endMs active : ℚ} {bin : Nat}

theorem overlap_eq_zero (hwidth : 0 < binWidth)
    (h : bin < ⌊startMs / binWidth⌋.toNat ∨ ⌈endMs / binWidth⌉.toNat - 1 < bin) :
    overlap binWidth bin startMs endMs = 0 := by
  refine max_eq_left (sub_nonpos.mpr ?_)
  rcases h with h | h
  · -- the interval starts behind the bin
    have hfloor : ((bin + 1 : Nat) : ℤ) ≤ ⌊startMs / binWidth⌋ := by omega
    have hnext : ((bin + 1 : Nat) : ℚ) ≤ startMs / binWidth := by
      have := Int.le_floor.mp hfloor
      exact_mod_cast this
    exact (min_le_right _ _).trans (((le_div_iff₀ hwidth).mp hnext).trans (le_max_left _ _))
  · -- it ends before the bin
    have hceil : ⌈endMs / binWidth⌉ ≤ (bin : ℤ) := by omega
    have hbefore : endMs / binWidth ≤ (bin : ℚ) := by
      have := Int.ceil_le.mp hceil
      exact_mod_cast this
    exact (min_le_left _ _).trans (((div_le_iff₀ hwidth).mp hbefore).trans (le_max_right _ _))

theorem addIntervalArea_eq (hwidth : 0 < binWidth) :
    addIntervalArea bins binWidth startMs endMs active =
      bins.mapIdx fun bin area => area + active * overlap binWidth bin startMs endMs := by
  refine List.ext_getElem (by simp [addIntervalArea]) fun bin hbin _ => ?_
  have hlt : bin < bins.length := by simpa [addIntervalArea] using hbin
  simp only [addIntervalArea, List.getElem_mapIdx]
  split
  · split
    · next hpositive =>
      rw [overlap, max_eq_right (sub_nonneg.mpr hpositive.le)]
    · next hempty =>
      rw [overlap, max_eq_left (sub_nonpos.mpr (not_lt.mp hempty)), mul_zero, add_zero]
  · next hout =>
    have hzero := @overlap_eq_zero binWidth startMs endMs bin hwidth (by omega)
    rw [hzero, mul_zero, add_zero]

end bins

/-! ## The sweep -/

/-- The last instant of a bin that is not behind a time. -/
def binReached (binWidth : ℚ) (bin : Nat) (timeMs : ℚ) : ℚ :=
  max (bin * binWidth) (min timeMs ((bin + 1 : Nat) * binWidth))

theorem bin_le {binWidth : ℚ} (hwidth : 0 < binWidth) (bin : Nat) :
    bin * binWidth ≤ (bin + 1 : Nat) * binWidth := by
  refine mul_le_mul_of_nonneg_right ?_ hwidth.le
  exact_mod_cast Nat.le_succ bin

theorem binReached_sub {binWidth startMs endMs : ℚ} (hwidth : 0 < binWidth)
    (hle : startMs ≤ endMs) (bin : Nat) :
    binReached binWidth bin endMs - binReached binWidth bin startMs =
      overlap binWidth bin startMs endMs := by
  have hbin := bin_le hwidth bin
  unfold binReached overlap
  generalize (bin : ℚ) * binWidth = lo at hbin ⊢
  generalize ((bin + 1 : Nat) : ℚ) * binWidth = hi at hbin ⊢
  grind

/-- The deltas swept so far, spread over the bins up to their last time. -/
structure SweptTo (binWidth : ℚ) (nBins : Nat) (swept : List (ℚ × ℤ)) (state : Sweep) : Prop where
  binned : state.area = (List.range nBins).map fun bin : Nat =>
    area swept (bin * binWidth) (binReached binWidth bin state.previousTime)
  current : state.current = (swept.map Prod.snd).sum
  previous : ∀ jump ∈ swept, jump.1 ≤ state.previousTime
  nonneg : 0 ≤ state.previousTime

section sweep

variable {binWidth : ℚ} {nBins : Nat} {swept : List (ℚ × ℤ)} {state : Sweep} {timeMs : ℚ}

theorem SweptTo.advance (h : SweptTo binWidth nBins swept state) (hwidth : 0 < binWidth)
    (hle : state.previousTime ≤ timeMs) :
    addIntervalArea state.area binWidth state.previousTime timeMs state.current =
      (List.range nBins).map fun bin : Nat =>
        area swept (bin * binWidth) (binReached binWidth bin timeMs) := by
  rw [addIntervalArea_eq hwidth, h.binned]
  refine List.ext_getElem (by simp) fun bin hbin _ => ?_
  simp only [List.getElem_mapIdx, List.getElem_map, List.getElem_range]
  have hreached : binReached binWidth bin state.previousTime ≤ binReached binWidth bin timeMs :=
    max_le_max le_rfl (min_le_min hle le_rfl)
  rw [h.current, ← binReached_sub hwidth hle]
  by_cases hpassed : (bin + 1 : Nat) * binWidth ≤ state.previousTime
  · -- the bin was behind the sweep already
    have hsame : binReached binWidth bin timeMs = binReached binWidth bin state.previousTime := by
      rw [binReached, binReached, min_eq_right (hpassed.trans hle), min_eq_right hpassed]
    rw [hsame, sub_self, mul_zero, add_zero]
  · refine (area_flat (le_max_left _ _) hreached fun jump hmem => ?_).symm
    refine (h.previous jump hmem).trans ?_
    show state.previousTime ≤ max _ (min state.previousTime ((bin + 1 : Nat) * binWidth))
    rw [min_eq_left (not_le.mp hpassed).le]
    exact le_max_right _ _

theorem area_concat_reached (bin : Nat) (delta : ℤ) :
    area (swept ++ [(timeMs, delta)]) (bin * binWidth) (binReached binWidth bin timeMs) =
      area swept (bin * binWidth) (binReached binWidth bin timeMs) := by
  have hnone : binReached binWidth bin timeMs - max timeMs (bin * binWidth) ≤ 0 := by
    refine sub_nonpos.mpr (max_le (le_max_right _ _) ?_)
    exact (min_le_left _ _).trans (le_max_left _ _)
  rw [area_append, area_cons, area_nil, max_eq_left hnone, mul_zero, add_zero, add_zero]

theorem SweptTo.step {spanMs : ℚ} {delta : ℤ} (h : SweptTo binWidth nBins swept state)
    (hwidth : 0 < binWidth) (hle : state.previousTime ≤ timeMs) (hspan : timeMs ≤ spanMs)
    (hnonneg : 0 ≤ ((swept ++ [(timeMs, delta)]).map Prod.snd).sum) :
    ∃ state', sweepTime spanMs binWidth state (timeMs, delta) = .ok state' ∧
      state'.previousTime = timeMs ∧
          SweptTo binWidth nBins (swept ++ [(timeMs, delta)]) state' := by
  have hcurrent : state.current + delta = ((swept ++ [(timeMs, delta)]).map Prod.snd).sum := by
    rw [h.current, List.map_append, List.sum_append]
    simp
  have hadvanced : (if timeMs > state.previousTime then
      addIntervalArea state.area binWidth state.previousTime timeMs state.current
      else state.area) = (List.range nBins).map fun bin : Nat =>
        area swept (bin * binWidth) (binReached binWidth bin timeMs) := by
    split
    · exact h.advance hwidth hle
    · next hnot =>
      rw [h.binned, le_antisymm hle (not_lt.mp hnot)]
  refine ⟨_, bind_eq_ok_iff.mpr ⟨(), ensure_eq_ok_iff.mpr ⟨hle, hspan⟩, bind_eq_ok_iff.mpr
    ⟨(), ensure_eq_ok_iff.mpr (hcurrent ▸ hnonneg), rfl⟩⟩, rfl, ?_, hcurrent, ?_,
        h.nonneg.trans hle⟩
  · simp only [area_concat_reached]
    exact hadvanced
  · intro jump hmem
    rcases List.mem_append.mp hmem with hmem | hmem
    · exact (h.previous jump hmem).trans hle
    · rw [List.mem_singleton.mp hmem]

end sweep

/-! ## Binning -/

section binning

variable {events : List TimedDelta} {spanMs : ℚ} {nBins : Nat}

/-- The population of a series at an instant: what the deltas up to it add. -/
noncomputable def populationAt (events : List TimedDelta) (x : ℝ) : ℤ :=
  height (atReals (events.map TimedDelta.jump)) x

theorem populationAt_cast (events : List TimedDelta) (x : ℚ) :
    populationAt events x = height (events.map TimedDelta.jump) x := by
  rw [populationAt, height_eq_sum, height_eq_sum, atReals, List.map_map]
  simp [Function.comp_def]

/-- The deltas in time order, those of one time merged. -/
def mergedTimes (events : List TimedDelta) : List (ℚ × ℤ) :=
  merge ((events.map TimedDelta.jump).insertionSort fun left right => left.1 ≤ right.1)

theorem mergedTimes_ascending (events : List TimedDelta) :
    (mergedTimes events).Pairwise fun a b => a.1 < b.1 :=
  merge_ascending (List.pairwise_insertionSort (fun left right : ℚ × ℤ => left.1 ≤ right.1) _)

theorem mem_mergedTimes {jump : ℚ × ℤ} (h : jump ∈ mergedTimes events) :
    ∃ event ∈ events, event.timeMs = jump.1 := by
  obtain ⟨other, hother, heq⟩ := mem_merge h
  obtain ⟨event, hevent, rfl⟩ := List.mem_map.mp ((List.mem_insertionSort _).mp hother)
  exact ⟨event, hevent, heq⟩

/-- What the sweep's loop keeps: the bins, and that it stands at a time it has taken. -/
structure SweepsTo (spanMs : ℚ) (nBins : Nat) (swept : List (ℚ × ℤ)) (state : Sweep) : Prop where
  bins : SweptTo (spanMs / nBins) nBins swept state
  le : state.previousTime ≤ spanMs
  at_time : state.previousTime = 0 ∨ ∃ jump ∈ swept, jump.1 = state.previousTime

theorem sum_swept {swept rest : List (ℚ × ℤ)} {jump : ℚ × ℤ}
    (h : mergedTimes events = swept ++ jump :: rest) :
    ((swept ++ [jump]).map Prod.snd).sum = populationAt events jump.1 := by
  have hascending := mergedTimes_ascending events
  rw [h, List.pairwise_append, List.pairwise_cons] at hascending
  have hsplit : mergedTimes events = (swept ++ [jump]) ++ rest := by
    rw [h, List.append_assoc]
    rfl
  have hrest : height rest jump.1 = 0 := by
    rw [height, List.filter_eq_nil_iff.mpr fun other hother => ?_]
    · rfl
    · simpa using hascending.2.1.1 other hother
  have hmerged : height (mergedTimes events) jump.1 = populationAt events jump.1 := by
    rw [populationAt_cast, mergedTimes, height_merge, height_perm (List.perm_insertionSort _ _)]
  rw [← hmerged, hsplit, height_append, hrest, add_zero, height_of_le]
  intro other hother
  rcases List.mem_append.mp hother with hother | hother
  · exact (hascending.2.2 other hother _ List.mem_cons_self).le
  · rw [List.mem_singleton.mp hother]

theorem sweep_mergedTimes (hwidth : 0 < spanMs / nBins)
    (hin : ∀ event ∈ events, 0 ≤ event.timeMs ∧ event.timeMs ≤ spanMs)
    (hnonneg : ∀ x, 0 ≤ populationAt events x) (hspan : 0 ≤ spanMs) :
    ∃ state, (mergedTimes events).foldlM (sweepTime spanMs (spanMs / nBins))
        ⟨List.replicate nBins 0, 0, 0, 0⟩ = .ok state ∧
      SweepsTo spanMs nBins (mergedTimes events) state := by
  refine foldlM_ok_of_visited (I := SweepsTo spanMs nBins)
    (fun swept jump rest state hsplit h => ?_) ⟨⟨by simp, rfl, ?_, le_refl _⟩, hspan, .inl rfl⟩
  · obtain ⟨event, hevent, htime⟩ :=
      mem_mergedTimes (hsplit ▸ List.mem_append_right _ List.mem_cons_self : jump ∈ _)
    obtain ⟨hzero, hend⟩ := htime ▸ hin event hevent
    have hascending := mergedTimes_ascending events
    rw [hsplit, List.pairwise_append] at hascending
    have hle : state.previousTime ≤ jump.1 := by
      rcases h.at_time with hstart | ⟨other, hother, heq⟩
      · exact hstart ▸ hzero
      · exact heq ▸ (hascending.2.2 other hother _ List.mem_cons_self).le
    obtain ⟨state', hstep, hat, hswept⟩ :=
      h.bins.step hwidth hle hend (sum_swept hsplit ▸ hnonneg _)
    exact ⟨state', hstep, hswept, hat ▸ hend,
      .inr ⟨jump, List.mem_append_right _ (List.mem_singleton_self _), hat.symm⟩⟩
  · exact fun _ hmem => (List.not_mem_nil hmem).elim

theorem sum_bin_areas (jumps : List (ℚ × ℤ)) {binWidth : ℚ} (hwidth : 0 < binWidth) (nBins : Nat) :
    ((List.range nBins).map fun bin : Nat =>
      area jumps (bin * binWidth) ((bin + 1 : Nat) * binWidth)).sum =
        area jumps 0 (nBins * binWidth) := by
  induction nBins with
  | zero => simp [area_self]
  | succ nBins ih =>
    rw [List.range_succ, List.map_append, List.sum_append, ih, List.map_singleton,
      List.sum_singleton, area_add (by positivity) (bin_le hwidth nBins)]

theorem binDeltas_exact (hspan : 0 < spanMs) (hbins : 0 < nBins)
    (hin : ∀ event ∈ events, 0 ≤ event.timeMs ∧ event.timeMs ≤ spanMs)
    (hnonneg : ∀ x, 0 ≤ populationAt events x) :
    ∃ series, binDeltas events spanMs nBins = .ok series ∧
      series.values = (List.range nBins).map (fun bin : Nat =>
        area (events.map TimedDelta.jump) (bin * (spanMs / nBins))
          ((bin + 1 : Nat) * (spanMs / nBins)) / (spanMs / nBins)) ∧
      (series.values.map fun value => value * (spanMs / nBins)).sum =
        area (events.map TimedDelta.jump) 0 spanMs := by
  have hbins' : (0 : ℚ) < nBins := by exact_mod_cast hbins
  have hwidth : 0 < spanMs / nBins := div_pos hspan hbins'
  have hall : (nBins : ℚ) * (spanMs / nBins) = spanMs := mul_div_cancel₀ _ hbins'.ne'
  obtain ⟨state, hstate, hswept, hle, -⟩ := sweep_mergedTimes hwidth hin hnonneg hspan.le
  have harea : (if state.previousTime < spanMs then addIntervalArea state.area (spanMs / nBins)
      state.previousTime spanMs state.current else state.area) =
        (List.range nBins).map fun bin : Nat => area (events.map TimedDelta.jump)
          (bin * (spanMs / nBins)) ((bin + 1 : Nat) * (spanMs / nBins)) := by
    have hspanned : (if state.previousTime < spanMs then addIntervalArea state.area
        (spanMs / nBins) state.previousTime spanMs state.current else state.area) =
          (List.range nBins).map fun bin : Nat => area (mergedTimes events)
            (bin * (spanMs / nBins)) (binReached (spanMs / nBins) bin spanMs) := by
      split
      · exact hswept.advance hwidth hle
      · next hnot => rw [hswept.binned, le_antisymm (not_lt.mp hnot) hle]
    rw [hspanned]
    refine List.map_congr_left fun bin hbin => ?_
    have hend : ((bin + 1 : Nat) : ℚ) * (spanMs / nBins) ≤ spanMs := by
      have hlt : ((bin + 1 : Nat) : ℚ) ≤ nBins := by
        exact_mod_cast List.mem_range.mp hbin
      exact (mul_le_mul_of_nonneg_right hlt hwidth.le).trans hall.le
    rw [binReached, min_eq_right hend, max_eq_right (bin_le hwidth bin), mergedTimes, area_merge]
    exact area_perm (List.perm_insertionSort _ _)
  refine ⟨_, bind_eq_ok_iff.mpr ⟨(), ensure_eq_ok_iff.mpr ⟨hspan, hbins.ne'⟩,
    bind_eq_ok_iff.mpr ⟨state, hstate, rfl⟩⟩, ?_, ?_⟩
  · show List.map _ (if _ then _ else _) = _
    rw [harea, List.map_map]
    rfl
  · show (List.map _ (List.map _ (if _ then _ else _))).sum = _
    rw [harea, List.map_map, List.map_map, ← hall, ← sum_bin_areas _ hwidth, hall]
    refine congrArg List.sum (List.map_congr_left fun bin _ => ?_)
    exact div_mul_cancel₀ _ hwidth.ne'

end binning

end ServingSim.RequestState
