import ServingSim.Kv.ResidentPartition

/-
  The linear path of the accounting (`linear_units_per_token`).

  A layout without windows whose blocks and entries are one token each charges every
  token the same. `resolve` decides that once, and six places then use a closed form
  instead of looking at every part. For each of them the closed form and the general
  branch stand here side by side, as the source has them.

  What is proved:
    1. `linear_path_eq_general` — all six closed forms agree with their general branches.

  Renamed (Rust ↔ Lean):
    the branch `Some(units_per_token)` of a function ↔ its `…Linear`
    the branch `None` of the same function ↔ its `…General`
-/

namespace ServingSim

namespace KvAccounting

variable (acc : KvAccounting)

/-! ## One request -/

section request

variable (unitsPerToken : Nat)

/-- `held_while_running`, the linear branch. -/
def heldLinear (len : Nat) : Nat := len * unitsPerToken + acc.stateUnits

/-- `held_while_running`, the general branch. -/
def heldGeneral (len stepTokens : Nat) : Nat :=
  let window :=
    match acc.overhead with
    | .vllm => acc.windowUnits len fun w => w - 1 + max stepTokens 1
    | .none => acc.windowUnits len fun w => w
  acc.perTokenUnits len + window + acc.stateUnits

/-- `needed_to_admit`, the linear branch. -/
def neededLinear (promptTokens : Nat) : Nat := promptTokens * unitsPerToken + acc.stateUnits

/-- `needed_to_admit`, the general branch. -/
def neededGeneral (promptTokens : Nat) : Nat :=
  let window :=
    match acc.overhead with
    | .vllm =>
      let inFlight := acc.options.maxInFlightTokens.getD promptTokens
      acc.windowUnits promptTokens fun w => w - 1 + inFlight
    | .none => acc.windowUnits promptTokens fun w => w
  acc.perTokenUnits promptTokens + window + acc.stateUnits

/-- `growth_over`, the linear branch. -/
def growthLinear (unitsPerToken tokens : Nat) : Nat := tokens * unitsPerToken

/-- `growth_over`, the general branch. -/
def growthGeneral (len tokens : Nat) : Nat :=
  acc.heldGeneral (len + tokens) 1 - acc.heldGeneral len 1

theorem linearUnitsPerToken_eq_some {unitsPerToken : Nat} :
    acc.linearUnitsPerToken = some unitsPerToken ↔ (acc.windows = [] ∧ acc.blockTokens = 1 ∧
        ∀ part ∈ acc.perToken, part.tokensPerEntry = 1) ∧
      (acc.perToken.map fun part => part.unitsPerEntry).sum = unitsPerToken := by
  unfold linearUnitsPerToken
  simp only [List.isEmpty_iff]
  split
  · next h => rw [Option.some.injEq, and_iff_right h]
  · next h => simp [h]

variable {acc unitsPerToken}

section

variable (h : acc.linearUnitsPerToken = some unitsPerToken)

include h

theorem windowUnits_linear (len : Nat)
    (kept : Nat → Nat) : acc.windowUnits len kept = 0 := by
  obtain ⟨⟨hwindows, -, -⟩, -⟩ := acc.linearUnitsPerToken_eq_some.mp h
  simp [windowUnits, hwindows]

theorem perTokenUnits_linear (len : Nat) :
    acc.perTokenUnits len = len * unitsPerToken := by
  obtain ⟨⟨-, hblock, hentries⟩, hrate⟩ := acc.linearUnitsPerToken_eq_some.mp h
  by_cases hlen : len = 0
  · simp [hlen]
  · have hparts :
        (acc.perToken.map fun part => part.unitsPerEntry * (len ⌈/⌉ part.tokensPerEntry)) =
          acc.perToken.map fun part => len * part.unitsPerEntry := by
      apply List.map_congr_left
      intro part hpart
      rw [hentries part hpart, ceilDiv_one, Nat.mul_comm]
    calc acc.perTokenUnits len
        = (acc.perToken.map fun part =>
            part.unitsPerEntry * (len ⌈/⌉ part.tokensPerEntry)).sum := by
          simp [perTokenUnits, hlen, hblock]
      _ = len * (acc.perToken.map fun part => part.unitsPerEntry).sum := by
          rw [hparts, List.sum_map_mul_left]
      _ = len * unitsPerToken := by rw [hrate]

theorem heldLinear_eq_general (len stepTokens : Nat) :
    acc.heldLinear unitsPerToken len = acc.heldGeneral len stepTokens := by
  unfold heldLinear heldGeneral
  rw [perTokenUnits_linear h]
  cases acc.overhead <;> simp [windowUnits_linear h]

theorem neededLinear_eq_general (promptTokens : Nat) :
    acc.neededLinear unitsPerToken promptTokens = acc.neededGeneral promptTokens := by
  unfold neededLinear neededGeneral
  rw [perTokenUnits_linear h]
  cases acc.overhead <;> simp [windowUnits_linear h]

theorem growthLinear_eq_general
    (len tokens : Nat) : growthLinear unitsPerToken tokens = acc.growthGeneral len tokens := by
  unfold growthLinear growthGeneral
  rw [← heldLinear_eq_general h, ← heldLinear_eq_general h, heldLinear, heldLinear, Nat.add_mul]
  omega

end

end request

/-! The functions are the branch their layout selects. -/

theorem held_eq_general (len stepTokens : Nat) :
    acc.heldWhileRunning len stepTokens = acc.heldGeneral len stepTokens := by
  unfold heldWhileRunning
  split
  · next h => exact heldLinear_eq_general h len stepTokens
  · rfl

theorem needed_eq_general (promptTokens : Nat) :
    acc.neededToAdmit promptTokens = acc.neededGeneral promptTokens := by
  unfold neededToAdmit
  split
  · next h => exact neededLinear_eq_general h promptTokens
  · rfl

theorem growth_eq_general (len tokens : Nat) :
    acc.growthOver len tokens = acc.growthGeneral len tokens := by
  unfold growthOver
  split
  · next h => exact growthLinear_eq_general h len tokens
  · rw [held_eq_general, held_eq_general, growthGeneral]

end KvAccounting

/-! ## The projected peak -/

section peak

variable {E F : Type*} {key : F → Nat × Nat} {growth : List F → Nat → Nat} {f : E → F}

theorem byExit_map (entries : List E) :
    byExit key (entries.map f) = (byExit (key ∘ f) entries).map f := by
  symm
  apply List.map_insertionSort
  intro a _ b _
  exact Iff.rfl

theorem departedBy_map (sorted : List E) (exitStep : Nat) :
    departedBy key (sorted.map f) exitStep = departedBy (key ∘ f) sorted exitStep := by
  unfold departedBy
  rw [List.takeWhile_map, List.length_map]
  rfl

theorem demandAt_map (residentUnits : Nat) (sorted : List E) (exitStep : Nat) :
    demandAt key growth residentUnits (sorted.map f) exitStep =
      demandAt (key ∘ f) (fun running => growth (running.map f)) residentUnits sorted
        exitStep := by
  simp only [demandAt, chargePrefix, departedBy_map, ← List.map_drop, ← List.map_take, List.map_map]
  rfl

theorem probeExit_map (residentUnits : Nat) (sorted : List E) :
    probeExit key growth residentUnits (sorted.map f) =
      probeExit (key ∘ f) (fun running => growth (running.map f)) residentUnits sorted := by
  funext state index
  simp only [probeExit, List.getElem?_map, demandAt_map]
  cases sorted[index]? with
  | none => rfl
  | some entry => rfl

theorem peak_of_mapped (residentUnits : Nat) (entries : List E) :
    peakOverExits key growth residentUnits (entries.map f) =
      peakOverExits (key ∘ f) (fun running => growth (running.map f)) residentUnits entries := by
  simp only [peakOverExits, peakOverExitsAt, byExit_map, probeExit_map, List.length_map]

end peak

section decodes

variable {acc : KvAccounting}

/-- `projected_peak`, the linear branch: exit steps and charges only. -/
def projectedPeakLinear (unitsPerToken residentUnits : Nat)
    (decodes : List (ResidentDecodeState acc)) : Nat :=
  peakOverExits (fun entry : Nat × Nat => entry)
    (fun remaining exitStep => remaining.length * exitStep * unitsPerToken) residentUnits
    (decodes.map fun state => (state.remainingDecode, state.charge))

/-- `projected_peak`, the general branch: with the context each entry grows from. -/
def projectedPeakGeneral (residentUnits : Nat) (decodes : List (ResidentDecodeState acc)) : Nat :=
  peakOverExits (fun entry : Nat × Nat × Nat => (entry.1, entry.2.1))
    (fun remaining exitStep =>
      (remaining.map fun entry => acc.growthGeneral entry.2.2 exitStep).sum) residentUnits
    (decodes.map fun state => (state.remainingDecode, state.charge, state.currentKv))

theorem growthOfRunning_eq_general : growthOfRunning acc = fun running exitStep =>
      (running.map fun state => acc.growthGeneral state.currentKv exitStep).sum := by
  funext running exitStep
  rw [growthOfRunning_eq]
  simp only [KvAccounting.growth_eq_general]

theorem projectedPeak_eq_general (residentUnits : Nat) (decodes : List (ResidentDecodeState acc)) :
    projectedPeak residentUnits decodes = projectedPeakGeneral residentUnits decodes := by
  rw [projectedPeakGeneral, peak_of_mapped, projectedPeak, growthOfRunning_eq_general]
  simp only [List.map_map]
  rfl

theorem projectedPeak_eq_linear {unitsPerToken : Nat}
    (h : acc.linearUnitsPerToken = some unitsPerToken) (residentUnits : Nat)
    (decodes : List (ResidentDecodeState acc)) :
    projectedPeak residentUnits decodes =
      projectedPeakLinear unitsPerToken residentUnits decodes := by
  have hgrowth : growthOfRunning acc = fun running exitStep =>
      running.length * exitStep * unitsPerToken := by
    funext running exitStep
    simp only [growthOfRunning, h]
  rw [projectedPeakLinear, peak_of_mapped, projectedPeak, hgrowth]
  simp only [List.length_map]
  rfl

end decodes

/-! ## The partition's sums -/

namespace ResidentPartitionState

variable {acc : KvAccounting} (partition : ResidentPartitionState acc)

/-- `bounded_future_decode_units` before the ratio, the linear branch: a number for each live
decode. -/
def futureUnitsLinear (unitsPerToken maxFutureTokens : Nat) : List Nat :=
  partition.iterDecoding.map fun e => min e.2.remainingDecode maxFutureTokens * unitsPerToken

/-- The same, the general branch. -/
def futureUnitsGeneral (maxFutureTokens : Nat) : List Nat :=
  partition.iterDecoding.map fun e =>
    acc.growthGeneral e.2.currentKv (min e.2.remainingDecode maxFutureTokens)

/-- `next_decode_allocation_units` with pages of one token, the linear branch. -/
def nextAllocationLinear (unitsPerToken stepTokens : Nat) : Nat :=
  (partition.iterDecoding.map fun e => min e.2.remainingDecode stepTokens * unitsPerToken).sum

/-- The same, the general branch. -/
def nextAllocationGeneral (stepTokens : Nat) : Nat :=
  (partition.iterDecoding.map fun e =>
    acc.growthGeneral e.2.currentKv (min e.2.remainingDecode stepTokens)).sum

theorem futureUnitsLinear_eq_general {unitsPerToken : Nat}
    (h : acc.linearUnitsPerToken = some unitsPerToken) (maxFutureTokens : Nat) :
    partition.futureUnitsLinear unitsPerToken maxFutureTokens =
      partition.futureUnitsGeneral maxFutureTokens := by
  apply List.map_congr_left
  intro e _
  exact KvAccounting.growthLinear_eq_general h e.2.currentKv _

end ResidentPartitionState

/-! ## Both paths -/

/-- On a layout that selects a linear rate the six closed forms give what the general branches
would. -/
theorem linear_path_eq_general (acc : KvAccounting) (unitsPerToken : Nat)
    (h : acc.linearUnitsPerToken = some unitsPerToken) :
    (∀ len stepTokens, acc.heldLinear unitsPerToken len = acc.heldGeneral len stepTokens) ∧
    (∀ promptTokens, acc.neededLinear unitsPerToken promptTokens = acc.neededGeneral promptTokens) ∧
    (∀ len tokens, KvAccounting.growthLinear unitsPerToken tokens = acc.growthGeneral len tokens) ∧
    (∀ (residentUnits : Nat) (decodes : List (ResidentDecodeState acc)),
      projectedPeakLinear unitsPerToken residentUnits decodes =
        projectedPeakGeneral residentUnits decodes) ∧
    (∀ (partition : ResidentPartitionState acc) (maxFutureTokens : Nat),
      partition.futureUnitsLinear unitsPerToken maxFutureTokens =
        partition.futureUnitsGeneral maxFutureTokens) ∧
    ∀ (partition : ResidentPartitionState acc) (stepTokens : Nat),
      partition.nextAllocationLinear unitsPerToken stepTokens =
        partition.nextAllocationGeneral stepTokens := by
  refine ⟨KvAccounting.heldLinear_eq_general h, KvAccounting.neededLinear_eq_general h,
    KvAccounting.growthLinear_eq_general h, ?_, ?_, ?_⟩
  · intro residentUnits decodes
    rw [← projectedPeak_eq_linear h, projectedPeak_eq_general]
  · intro partition maxFutureTokens
    exact partition.futureUnitsLinear_eq_general h maxFutureTokens
  · intro partition stepTokens
    exact congrArg List.sum (partition.futureUnitsLinear_eq_general h stepTokens)

/-- Two units a token and a state of three for every request. -/
def statefulLayout : KvCacheLayout where
  parts := [KvCachePart.perToken "kv" 2, KvCachePart.perRequest "state" 3]

theorem statefulLayout_wellFormed : statefulLayout.WellFormed :=
  (KvCacheLayout.validate_ok_iff _).mp rfl

theorem statefulLayout_interval : ResumeIntervalFits statefulLayout {} :=
  fun _ h => absurd h (Option.not_mem_none _)

def statefulTokens : KvAccounting where
  layout := statefulLayout
  options := {}
  capacityUnits := 90
  layout_wellFormed := statefulLayout_wellFormed
  interval_fits := statefulLayout_interval
  capacity_pos := Nat.succ_pos 89

/-- Two decodes, of four tokens with two to come and of six with five to come. -/
def statefulDecodes : ResidentPartitionState statefulTokens :=
  ((ResidentPartitionState.new _).beginDecode 0 4 2 4).beginDecode 1 6 5 6

theorem linear_path_of_stateful :
    statefulTokens.heldGeneral 5 1 = 13 ∧ statefulTokens.neededGeneral 5 = 13 ∧
    statefulTokens.growthGeneral 5 4 = 8 ∧
    projectedPeakGeneral statefulDecodes.residentUnits statefulDecodes.states = 34 ∧
    statefulDecodes.futureUnitsGeneral 3 = statefulDecodes.futureUnitsLinear 2 3 ∧
    statefulDecodes.nextAllocationGeneral 1 = 4 := by
  obtain ⟨hheld, hneeded, hgrowth, hpeak, hfuture, hnext⟩ :=
    linear_path_eq_general statefulTokens 2 (by decide)
  refine ⟨?_, ?_, ?_, ?_, (hfuture statefulDecodes 3).symm, ?_⟩
  · rw [← hheld]
    decide +kernel
  · rw [← hneeded]
    decide +kernel
  · rw [← hgrowth]
    decide +kernel
  · rw [← hpeak]
    decide +kernel
  · rw [← hnext]
    decide +kernel

end ServingSim
