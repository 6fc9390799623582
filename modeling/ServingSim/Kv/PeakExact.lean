import Mathlib.Order.Bounds.Basic
import ServingSim.Kv.ResidentPartition

/-
  How far the projected peak is from the highest charge there will be
  (`projected_peak` in `resident_partition`).

  From now on every decode advances by one token a step until its output is done. The
  highest charge of the decodes still running is a maximum over an unbounded future; the
  source looks at the exits of a sample of the decodes instead. The sample may leave the
  highest exit out, and then the projected peak is too low, but never too high.

  What is proved:
    1. `projected_peak_exact` — the bounds, the equality and the missing underflow together,
       for the decodes of a partition and for those with one candidate more.
-/

namespace ServingSim

variable {acc : KvAccounting}

/-! ## The future, step by step -/

/-- A decode after `steps` more tokens. -/
def ResidentDecodeState.afterSteps (state : ResidentDecodeState acc) : Nat → ResidentDecodeState acc
  | 0 => state
  | steps + 1 => (state.afterSteps steps).advance.1

theorem ResidentDecodeState.currentKv_afterSteps (state : ResidentDecodeState acc)
    (steps : Nat) : (state.afterSteps steps).currentKv = state.currentKv + steps := by
  induction steps with
  | zero => rfl
  | succ steps ih =>
    rw [afterSteps, currentKv_advance, ih]
    omega

theorem ResidentDecodeState.charge_afterSteps (state : ResidentDecodeState acc) (steps : Nat) :
    (state.afterSteps steps).charge = state.heldAfter steps := by
  rw [(state.afterSteps steps).charge_eq, currentKv_afterSteps, heldAfter]

/-- The summed charge, `step` tokens from now, of the decodes that run until then. -/
def chargeOfRunning (decodes : List (ResidentDecodeState acc)) (step : Nat) : Nat :=
  ((decodes.filter fun state => step ≤ state.remainingDecode).map
    fun state => (state.afterSteps step).charge).sum

theorem chargeOfRunning_eq_demand (decodes : List (ResidentDecodeState acc)) :
    chargeOfRunning decodes = demand decodes := by
  funext step
  simp only [chargeOfRunning, demand, ResidentDecodeState.charge_afterSteps]

theorem demand_now (decodes : List (ResidentDecodeState acc)) :
    demand decodes 0 = (decodes.map fun state => state.charge).sum := by
  simp [demand]

/-! ## Sampled exits -/

/-- The probed positions see the exit step of every decode. -/
def EveryExitSampled (indices : List Nat) (decodes : List (ResidentDecodeState acc)) : Prop :=
  ∀ state ∈ decodes, ∃ index ∈ indices, ∃ probed,
    (byExit ResidentDecodeState.exitKey decodes)[index]? = some probed ∧
      probed.remainingDecode = state.remainingDecode

instance (indices : List Nat) (decodes : List (ResidentDecodeState acc)) :
    Decidable (EveryExitSampled indices decodes) :=
  inferInstanceAs (Decidable (∀ state ∈ decodes, ∃ index ∈ indices,
    ∃ probed ∈ (byExit ResidentDecodeState.exitKey decodes)[index]?,
      probed.remainingDecode = state.remainingDecode))

theorem demand_le_of_sampled {indices : List Nat} {decodes : List (ResidentDecodeState acc)}
    (h : EveryExitSampled indices decodes) (step : Nat) :
    demand decodes step ≤
      projectedPeakAt indices (decodes.map fun state => state.charge).sum decodes := by
  rcases demand_le_next_exit decodes step with hnone | ⟨state, hs, hexit⟩
  · exact hnone.le.trans (Nat.zero_le _)
  · obtain ⟨index, hindex, probed, hprobed, hsame⟩ := h state hs
    calc demand decodes step
        ≤ demand decodes state.remainingDecode := hexit
      _ = demand decodes probed.remainingDecode := by rw [hsame]
      _ = demandAt ResidentDecodeState.exitKey (growthOfRunning acc)
            (decodes.map fun state => state.charge).sum
            (byExit ResidentDecodeState.exitKey decodes) probed.remainingDecode :=
          (demandAt_eq_demand decodes _).symm
      _ ≤ projectedPeakAt indices (decodes.map fun state => state.charge).sum decodes :=
          demandAt_le_peak hindex hprobed

theorem projectedPeakAt_attained (indices : List Nat)
    (decodes : List (ResidentDecodeState acc)) :
    ∃ step, projectedPeakAt indices (decodes.map fun state => state.charge).sum decodes =
      demand decodes step := by
  have hattained : projectedPeakAt indices (decodes.map fun state => state.charge).sum decodes =
      (decodes.map fun state => state.charge).sum ∨ _ := peak_attained indices decodes
  rcases hattained with h | h
  · refine ⟨0, ?_⟩
    rw [demand_now]
    exact h
  · obtain ⟨entry, -, hexit⟩ := h
    refine ⟨entry.remainingDecode, ?_⟩
    rw [← demandAt_eq_demand]
    exact hexit

/-! ## Departed charges -/

theorem departed_le_resident (decodes : List (ResidentDecodeState acc)) (count : Nat) :
    chargePrefix ResidentDecodeState.exitKey (byExit ResidentDecodeState.exitKey decodes) count ≤
      (decodes.map fun state => state.charge).sum := by
  have hperm : (byExit ResidentDecodeState.exitKey decodes).Perm decodes :=
    List.perm_insertionSort _ _
  calc chargePrefix ResidentDecodeState.exitKey (byExit ResidentDecodeState.exitKey decodes) count
      ≤ ((byExit ResidentDecodeState.exitKey decodes).map fun state => state.charge).sum :=
        ((List.take_sublist _ _).map _).sum_le_sum fun _ _ => Nat.zero_le _
    _ = (decodes.map fun state => state.charge).sum := (hperm.map _).sum_eq

/-! ## The projected peak against the true one -/

/-- What `peak` is to decodes that hold `residentUnits` now. -/
structure PeakExact (decodes : List (ResidentDecodeState acc)) (residentUnits peak : Nat) :
    Prop where
  resident_le : residentUnits ≤ peak
  /-- There is a highest future charge, the peak is no higher, and it is that charge where the
  exits of all decodes are sampled. -/
  truePeak : ∃ highest, IsGreatest (Set.range (chargeOfRunning decodes)) highest ∧ peak ≤ highest ∧
    (EveryExitSampled (sampleIndices decodes.length) decodes → peak = highest)
  /-- At no exit is more taken off than there is. -/
  departed_le : ∀ exitStep,
    chargePrefix ResidentDecodeState.exitKey (byExit ResidentDecodeState.exitKey decodes)
        (departedBy ResidentDecodeState.exitKey (byExit ResidentDecodeState.exitKey decodes)
          exitStep) ≤
      residentUnits + growthOfRunning acc
        ((byExit ResidentDecodeState.exitKey decodes).drop
          (departedBy ResidentDecodeState.exitKey (byExit ResidentDecodeState.exitKey decodes)
            exitStep)) exitStep
  /-- Nor does any decode's growth come out of a charge that shrank. -/
  growth_le : ∀ state ∈ decodes, ∀ tokens,
    acc.heldWhileRunning state.currentKv 1 ≤ acc.heldWhileRunning (state.currentKv + tokens) 1

theorem peakExact_projectedPeak (decodes : List (ResidentDecodeState acc)) :
    PeakExact decodes (decodes.map fun state => state.charge).sum
      (projectedPeak (decodes.map fun state => state.charge).sum decodes) where
  resident_le := resident_le_peak _ _
  truePeak := by
    obtain ⟨highest, hhighest⟩ := projectedPeakAt_attained (List.range decodes.length) decodes
    obtain ⟨step, hstep⟩ := projectedPeakAt_attained (sampleIndices decodes.length) decodes
    have hcovers := @projectedPeakAt_covers acc decodes (List.range decodes.length)
      fun index hi => List.mem_range.mpr hi
    rw [hhighest] at hcovers
    refine ⟨demand decodes highest, ⟨?_, ?_⟩, ?_, ?_⟩
    · rw [chargeOfRunning_eq_demand]
      exact Set.mem_range_self highest
    · rw [chargeOfRunning_eq_demand]
      intro x hx
      obtain ⟨other, rfl⟩ := hx
      exact hcovers other
    · exact hstep.le.trans (hcovers step)
    · intro hsampled
      apply Nat.le_antisymm
      · exact hstep.le.trans (hcovers step)
      · exact demand_le_of_sampled hsampled highest
  departed_le := fun exitStep =>
    (departed_le_resident decodes _).trans (Nat.le_add_right _ _)
  growth_le := fun _ _ _ => acc.held_mono 1 (Nat.le_add_right _ _)

/-! ## On a partition -/

namespace ResidentPartitionState

variable (partition : ResidentPartitionState acc) (candidate : RequestId)

theorem peakExact_states : PeakExact partition.states partition.residentUnits
      (projectedPeak partition.residentUnits partition.states) := by
  rw [partition.residentUnits_eq_states]
  exact peakExact_projectedPeak partition.states

theorem cachedPeak_beginDecode (contextTokens decodeBudget promptTokens : Nat)
    (h : candidate ∉ partition.decodes.keys) :
    (partition.beginDecode candidate contextTokens decodeBudget promptTokens).cachedPeak =
      projectedPeak
        (partition.beginDecode candidate contextTokens decodeBudget promptTokens).residentUnits
        (partition.beginDecode candidate contextTokens decodeBudget promptTokens).states := by
  have hi : candidate ∉ partition.decodes.index := by
    intro hm
    exact h ((partition.decodes.mem_index_iff candidate).mp hm)
  unfold beginDecode
  rw [dif_neg hi]
  rfl

theorem states_beginDecode (contextTokens decodeBudget promptTokens : Nat)
    (h : candidate ∉ partition.decodes.keys) :
    ∃ state : ResidentDecodeState acc,
      state.currentKv = contextTokens ∧ state.remainingDecode = decodeBudget ∧
      (partition.beginDecode candidate contextTokens decodeBudget promptTokens).states =
        partition.states ++ [state] := by
  obtain ⟨state, hslots, hkv, hbudget⟩ :=
    partition.slots_beginDecode candidate contextTokens decodeBudget promptTokens h
  refine ⟨state, hkv, hbudget, ?_⟩
  rw [states, hslots, List.map_append]
  rfl

end ResidentPartitionState

/-- The projected peak of a partition, and of one with a candidate more, is at least what is
resident, at most the highest charge of any future step, that charge where every exit is sampled,
and computed without underflow. -/
theorem projected_peak_exact (partition : ResidentPartitionState acc) :
    PeakExact partition.states partition.residentUnits
        (projectedPeak partition.residentUnits partition.states) ∧
      ∀ (candidate : RequestId) (contextTokens decodeBudget promptTokens : Nat),
        candidate ∉ partition.decodes.keys →
        ∃ state : ResidentDecodeState acc,
          state.currentKv = contextTokens ∧ state.remainingDecode = decodeBudget ∧
          PeakExact (partition.states ++ [state]) (partition.residentUnits + state.charge)
            (partition.beginDecode candidate contextTokens decodeBudget
              promptTokens).cachedPeak := by
  refine ⟨partition.peakExact_states, ?_⟩
  intro candidate contextTokens decodeBudget promptTokens hnew
  obtain ⟨state, hkv, hbudget, hstates⟩ :=
    partition.states_beginDecode candidate contextTokens decodeBudget promptTokens hnew
  refine ⟨state, hkv, hbudget, ?_⟩
  have hresident : partition.residentUnits + state.charge =
      (partition.beginDecode candidate contextTokens decodeBudget promptTokens).residentUnits := by
    rw [partition.residentUnits_eq_states,
      (partition.beginDecode candidate contextTokens decodeBudget
        promptTokens).residentUnits_eq_states, hstates]
    simp
  rw [hresident, ← hstates, partition.cachedPeak_beginDecode candidate contextTokens
    decodeBudget promptTokens hnew]
  exact ResidentPartitionState.peakExact_states _

/-- Twelve decodes of one to twelve context tokens that exit after two steps or after five. -/
def twelveDecodes : ResidentPartitionState (KvAccounting.tokensForTest 200 (by decide)) :=
  (List.range 12).foldl (fun partition request =>
    partition.beginDecode request (request + 1) (if request < 5 then 2 else 5) 1) (.new _)

theorem projected_peak_exact_thirteen :
    (∃ state : ResidentDecodeState _, state.currentKv = 13 ∧ state.remainingDecode = 5 ∧
      PeakExact (twelveDecodes.states ++ [state]) (twelveDecodes.residentUnits + state.charge)
        (twelveDecodes.beginDecode 12 13 5 1).cachedPeak) ∧
    10 ∉ sampleIndices 13 ∧
    EveryExitSampled (sampleIndices 13) (twelveDecodes.beginDecode 12 13 5 1).states ∧
    (twelveDecodes.beginDecode 12 13 5 1).cachedPeak = 117 :=
  ⟨(projected_peak_exact twelveDecodes).2 12 13 5 1 (by decide +kernel), by decide +kernel,
    by decide +kernel, by decide +kernel⟩

end ServingSim
