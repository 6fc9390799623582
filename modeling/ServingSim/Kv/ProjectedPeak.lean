import Mathlib.Tactic
import Mathlib.Data.List.Sort

/-
  The projected peak of a partition's decodes (`peak_over_exits`,
  `sample_indices` in `resident_partition`).

  While every decode of a partition advances by one token a step, its resident
  charge rises between two decode exits and drops at an exit, so the highest
  charge from now on is reached at an exit step. The source sorts the decodes by
  exit step and looks at the exits of a sample of positions: all of them below
  eight decodes, a dense front and eighths above. `peakOverExitsAt` takes the
  sampled positions as an argument, so that the sampled peak of the code and the
  peak over all exits are one definition.
-/

namespace ServingSim

/-- Exit-step positions the projected peak looks at. -/
def sampleIndices (numDecodes : Nat) : List Nat :=
  if numDecodes = 0 then []
  else if numDecodes < 8 then List.range numDecodes
  else
    ((List.range 8 ++ (List.range' 1 7).map (fun sample => sample * numDecodes / 8) ++
      [numDecodes - 1]).insertionSort (· ≤ ·)).destutter (· ≠ ·)

section peak

variable {E : Type*} (key : E → Nat × Nat) (growth : List E → Nat → Nat)

/-- Entries by exit step, soonest first. -/
def byExit (entries : List E) : List E :=
  entries.insertionSort fun a b => (key a).1 ≤ (key b).1

/-- How many of the sorted entries are gone by an exit step. -/
def departedBy (sorted : List E) (exitStep : Nat) : Nat :=
  (sorted.takeWhile fun entry => (key entry).1 < exitStep).length

/-- The resident charge of the `count` soonest-finishing entries. -/
def chargePrefix (sorted : List E) (count : Nat) : Nat :=
  ((sorted.take count).map fun entry => (key entry).2).sum

/-- Resident charge at an exit step: the entries still running have grown, the
departed ones have released their charge. -/
def demandAt (residentUnits : Nat) (sorted : List E) (exitStep : Nat) : Nat :=
  let departed := departedBy key sorted exitStep
  residentUnits + growth (sorted.drop departed) exitStep - chargePrefix key sorted departed

/-- One probe: skip an exit step equal to the last one looked at. -/
def probeExit (residentUnits : Nat) (sorted : List E) (state : Nat × Option Nat) (index : Nat) :
    Nat × Option Nat :=
  match sorted[index]? with
  | none => state
  | some entry =>
    let exitStep := (key entry).1
    if state.2 = some exitStep then state
    else (max state.1 (demandAt key growth residentUnits sorted exitStep), some exitStep)

/-- The highest resident charge at the probed exits. -/
def peakOverExitsAt (indices : List Nat) (residentUnits : Nat) (entries : List E) : Nat :=
  let sorted := byExit key entries
  (indices.foldl (probeExit key growth residentUnits sorted) (residentUnits, none)).1

/-- The highest resident charge at the sampled exits. -/
def peakOverExits (residentUnits : Nat) (entries : List E) : Nat :=
  peakOverExitsAt key growth (sampleIndices entries.length) residentUnits entries

/-! ## Demand -/

section demand

variable {key growth} {sorted : List E}

theorem drop_departedBy (h : sorted.Pairwise fun a b => (key a).1 ≤ (key b).1) (exitStep : Nat) :
    sorted.drop (departedBy key sorted exitStep) =
      sorted.filter fun entry => exitStep ≤ (key entry).1 := by
  induction sorted with
  | nil => rfl
  | cons a sorted ih =>
    obtain ⟨ha, h⟩ := List.pairwise_cons.mp h
    by_cases hlt : (key a).1 < exitStep
    · have hstep := ih h
      simp only [departedBy] at hstep
      simp [departedBy, hlt, Nat.not_le.mpr hlt, hstep]
    · -- nothing departed: every later entry exits no sooner than the first
      have hall : ∀ b ∈ a :: sorted, exitStep ≤ (key b).1 := by
        intro b hb
        rcases List.mem_cons.mp hb with rfl | hb
        · omega
        · have := ha b hb
          omega
      rw [List.filter_eq_self.mpr (by simpa using hall)]
      simp [departedBy, hlt]

theorem byExit_sorted (entries : List E) :
    (byExit key entries).Pairwise fun a b => (key a).1 ≤ (key b).1 :=
  List.pairwise_insertionSort (fun a b : E => (key a).1 ≤ (key b).1) entries

theorem demandAt_eq (entries : List E) (exitStep : Nat) :
    demandAt key growth (entries.map fun entry => (key entry).2).sum (byExit key entries)
        exitStep =
      (((byExit key entries).filter fun entry => exitStep ≤ (key entry).1).map
        fun entry => (key entry).2).sum +
        growth ((byExit key entries).filter fun entry => exitStep ≤ (key entry).1) exitStep := by
  have hperm : (byExit key entries).Perm entries := List.perm_insertionSort _ _
  have hsum : (entries.map fun entry => (key entry).2).sum =
      chargePrefix key (byExit key entries) (departedBy key (byExit key entries) exitStep) +
        (((byExit key entries).drop (departedBy key (byExit key entries) exitStep)).map
          fun entry => (key entry).2).sum := by
    rw [chargePrefix, ← List.sum_append, ← List.map_append, List.take_append_drop]
    exact ((hperm.map _).sum_eq).symm
  rw [demandAt, hsum, drop_departedBy (byExit_sorted entries)]
  omega

end demand

/-! ## Probing -/

variable {key growth} {residentUnits : Nat} {sorted : List E}

/-- Along a fold of probes the peak never drops and always covers the last exit
step looked at. -/
def CoversLast (key : E → Nat × Nat) (growth : List E → Nat → Nat) (residentUnits : Nat)
    (sorted : List E) (state : Nat × Option Nat) : Prop :=
  ∀ exitStep ∈ state.2, demandAt key growth residentUnits sorted exitStep ≤ state.1

theorem probeExit_mono (state : Nat × Option Nat) (index : Nat) :
    state.1 ≤ (probeExit key growth residentUnits sorted state index).1 := by
  simp only [probeExit]
  split
  · exact Nat.le_refl _
  · split
    · exact Nat.le_refl _
    · exact le_max_left _ _

theorem probeExit_covers {state : Nat × Option Nat}
    (h : CoversLast key growth residentUnits sorted state) (index : Nat) :
    CoversLast key growth residentUnits sorted
      (probeExit key growth residentUnits sorted state index) := by
  simp only [probeExit]
  split
  · exact h
  · split
    · exact h
    · intro exitStep hs
      cases hs
      exact le_max_right _ _

theorem demandAt_le_probeExit {state : Nat × Option Nat}
    (h : CoversLast key growth residentUnits sorted state) {index : Nat} {entry : E}
    (he : sorted[index]? = some entry) :
    demandAt key growth residentUnits sorted (key entry).1 ≤
      (probeExit key growth residentUnits sorted state index).1 := by
  simp only [probeExit, he]
  split
  · rename_i hs
    exact h _ hs
  · exact le_max_right _ _

theorem foldl_probe_mono (indices : List Nat) (state : Nat × Option Nat) :
    state.1 ≤ (indices.foldl (probeExit key growth residentUnits sorted) state).1 := by
  induction indices generalizing state with
  | nil => exact Nat.le_refl _
  | cons i indices ih => exact (probeExit_mono state i).trans (ih _)

theorem demandAt_le_foldl {indices : List Nat} {state : Nat × Option Nat}
    (h : CoversLast key growth residentUnits sorted state) {index : Nat} (hi : index ∈ indices)
    {entry : E} (he : sorted[index]? = some entry) :
    demandAt key growth residentUnits sorted (key entry).1 ≤
      (indices.foldl (probeExit key growth residentUnits sorted) state).1 := by
  induction indices generalizing state with
  | nil => cases hi
  | cons i indices ih =>
    rw [List.foldl_cons]
    rcases List.mem_cons.mp hi with rfl | hi
    · exact (demandAt_le_probeExit h he).trans (foldl_probe_mono _ _)
    · exact ih (probeExit_covers h i) hi

theorem demandAt_le_peak {indices : List Nat} {entries : List E} {index : Nat}
    (hi : index ∈ indices) {entry : E} (he : (byExit key entries)[index]? = some entry) :
    demandAt key growth residentUnits (byExit key entries) (key entry).1 ≤
      peakOverExitsAt key growth indices residentUnits entries :=
  demandAt_le_foldl (by simp [CoversLast]) hi he

theorem resident_le_peak (indices : List Nat) (entries : List E) :
    residentUnits ≤ peakOverExitsAt key growth indices residentUnits entries :=
  foldl_probe_mono indices (residentUnits, none)

theorem peak_attained (indices : List Nat) (entries : List E) :
    peakOverExitsAt key growth indices residentUnits entries = residentUnits ∨
      ∃ entry ∈ entries, peakOverExitsAt key growth indices residentUnits entries =
        demandAt key growth residentUnits (byExit key entries) (key entry).1 := by
  suffices h : ∀ state : Nat × Option Nat, (state.1 = residentUnits ∨ ∃ entry ∈ entries, state.1 =
        demandAt key growth residentUnits (byExit key entries) (key entry).1) →
      (indices.foldl (probeExit key growth residentUnits (byExit key entries)) state).1 =
          residentUnits ∨ ∃ entry ∈ entries,
        (indices.foldl (probeExit key growth residentUnits (byExit key entries)) state).1 =
          demandAt key growth residentUnits (byExit key entries) (key entry).1 from
    h (residentUnits, none) (.inl rfl)
  induction indices with
  | nil => exact fun _ h => h
  | cons i indices ih =>
    intro state hs
    apply ih
    simp only [probeExit]
    split
    · exact hs
    · next entry he =>
      have hmem : entry ∈ entries :=
        (List.perm_insertionSort _ entries).mem_iff.mp (List.mem_of_getElem? he)
      split
      · exact hs
      · -- a probe keeps the peak so far or takes the demand it looked at
        rcases max_choice state.1
          (demandAt key growth residentUnits (byExit key entries) (key entry).1) with hmax | hmax
        · rw [hmax]
          exact hs
        · rw [hmax]
          exact .inr ⟨entry, hmem, rfl⟩

end peak

end ServingSim
