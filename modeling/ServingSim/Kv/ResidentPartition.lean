import Mathlib.Data.Rat.Floor
import Mathlib.Data.List.MinMax
import ServingSim.Kv.PrefixCache
import ServingSim.Kv.ProjectedPeak
import ServingSim.Lib.SlotList

/-
  One KV partition's resident set (`resident_partition`).

  A resident request occupies its running charge; each decode caches its own,
  and a step adds the difference the extra token makes. The invariants are
  carried by the types: a `ResidentDecodeState` is charged exactly what the
  accounting says its context holds, and a `ResidentPartitionState` counts
  exactly the charges of its decodes.

  Renamed (Rust ↔ Lean):
    `decodes` and `decode_index` ↔ one `SlotList`
  The accounting a partition shares with its store is the type's parameter.
  Checkpoint units are soft and their per-token change may be negative; the
  source's unsigned arithmetic wraps there in a release build, and so does the
  model's (`wrappingAdd`, `wrappingSub`).
-/

namespace ServingSim

def wrappingAdd (a b : Nat) : Nat := (a + b) % 2 ^ 64

def wrappingSub (a b : Nat) : Nat := (((a : Int) - b) % 2 ^ 64).toNat

theorem wrappingSub_cast (a b : Nat) : ((wrappingSub a b : Nat) : Int) = ((a : Int) - b) % 2 ^ 64 :=
  Int.toNat_of_nonneg (Int.emod_nonneg _ (by norm_num))

structure ResidentDecodeState (acc : KvAccounting) where
  currentKv : Nat
  remainingDecode : Nat
  /-- Prompt length, which places the request's resume positions. -/
  promptTokens : Nat
  /-- Units held at `currentKv`. -/
  charge : Nat
  /-- Soft units of checkpoints already passed at `currentKv`. -/
  checkpoint : Nat
  charge_eq : charge = acc.heldWhileRunning currentKv 1

namespace ResidentDecodeState

variable {acc : KvAccounting}

/-- Grow by one token and return the added hard and soft units. -/
def advance (state : ResidentDecodeState acc) : ResidentDecodeState acc × Nat × Nat :=
  let currentKv := state.currentKv + 1
  let charge := acc.heldWhileRunning currentKv 1
  let checkpoint :=
    if acc.keepsCheckpoints then acc.checkpointUnits state.promptTokens currentKv
    else state.checkpoint
  ({ state with
      currentKv := currentKv
      remainingDecode := state.remainingDecode - 1
      charge := charge
      checkpoint := checkpoint
      charge_eq := rfl },
    charge - state.charge,
    if acc.keepsCheckpoints then wrappingSub checkpoint state.checkpoint else 0)

/-- `advance` for a decode with output left, nothing for a finished one. -/
def advanceIfLive (state : ResidentDecodeState acc) : ResidentDecodeState acc × Nat × Nat :=
  if state.remainingDecode > 0 then state.advance else (state, 0, 0)

@[simp] theorem currentKv_advance (state : ResidentDecodeState acc) :
    state.advance.1.currentKv = state.currentKv + 1 := rfl

@[simp] theorem remainingDecode_advance (state : ResidentDecodeState acc) :
    state.advance.1.remainingDecode = state.remainingDecode - 1 := rfl

section

variable (state : ResidentDecodeState acc)

include state

theorem advance_charge :
    state.advance.1.charge = state.charge + state.advance.2.1 := by
  have h : state.charge ≤ acc.heldWhileRunning (state.currentKv + 1) 1 := by
    rw [state.charge_eq]
    exact acc.held_mono 1 (Nat.le_succ _)
  exact (Nat.add_sub_of_le h).symm

theorem advance_checkpoint : state.advance.1.checkpoint % 2 ^ 64 =
      (state.checkpoint + state.advance.2.2) % 2 ^ 64 := by
  simp only [advance]
  split
  · have hc := wrappingSub_cast (acc.checkpointUnits state.promptTokens (state.currentKv + 1))
      state.checkpoint
    omega
  · rfl

theorem advanceIfLive_checkpoint :
    state.advanceIfLive.1.checkpoint % 2 ^ 64 =
      (state.checkpoint + state.advanceIfLive.2.2) % 2 ^ 64 := by
  unfold advanceIfLive
  split
  · exact state.advance_checkpoint
  · rfl

theorem advanceIfLive_charge :
    state.advanceIfLive.1.charge = state.charge + state.advanceIfLive.2.1 := by
  unfold advanceIfLive
  split
  · exact state.advance_charge
  · rfl

theorem advanceIfLive_progress :
    state.advanceIfLive.1.currentKv + state.advanceIfLive.1.remainingDecode =
      state.currentKv + state.remainingDecode := by
  unfold advanceIfLive
  split
  · simp only [currentKv_advance, remainingDecode_advance]
    omega
  · rfl

end

/-- Exit step and charge, as the projected peak reads a decode. -/
def exitKey (state : ResidentDecodeState acc) : Nat × Nat := (state.remainingDecode, state.charge)

/-- Units held `steps` tokens from now. -/
def heldAfter (state : ResidentDecodeState acc) (steps : Nat) : Nat :=
  acc.heldWhileRunning (state.currentKv + steps) 1

theorem charge_add_growth (state : ResidentDecodeState acc) (steps : Nat) :
    state.charge + acc.growthOver state.currentKv steps = state.heldAfter steps := by
  rw [state.charge_eq]
  exact acc.held_add_growth _ _

theorem heldAfter_mono (state : ResidentDecodeState acc) : Monotone state.heldAfter :=
  fun _ _ h => acc.held_mono 1 (Nat.add_le_add_left h _)

@[simp] theorem heldAfter_zero (state : ResidentDecodeState acc) :
    state.heldAfter 0 = state.charge := state.charge_eq.symm

end ResidentDecodeState

/-! ## Projected peak -/

section projectedPeak

variable {acc : KvAccounting}

/-- What the decodes still running at an exit step have grown by then. -/
def growthOfRunning (acc : KvAccounting) (running : List (ResidentDecodeState acc))
    (exitStep : Nat) : Nat :=
  match acc.linearUnitsPerToken with
  | some unitsPerToken => running.length * exitStep * unitsPerToken
  | none => (running.map fun state => acc.growthOver state.currentKv exitStep).sum

/-- Peak resident units from now until every decode drains, probing the exits at
`indices`. -/
def projectedPeakAt (indices : List Nat) (residentUnits : Nat)
    (decodes : List (ResidentDecodeState acc)) : Nat :=
  peakOverExitsAt ResidentDecodeState.exitKey (growthOfRunning acc) indices residentUnits decodes

def projectedPeak (residentUnits : Nat) (decodes : List (ResidentDecodeState acc)) : Nat :=
  peakOverExits ResidentDecodeState.exitKey (growthOfRunning acc) residentUnits decodes

theorem growthOfRunning_eq (running : List (ResidentDecodeState acc)) (exitStep : Nat) :
    growthOfRunning acc running exitStep =
      (running.map fun state => acc.growthOver state.currentKv exitStep).sum := by
  unfold growthOfRunning
  split
  · rename_i u hu
    simp only [KvAccounting.growthOver, hu, List.map_const', List.sum_replicate, smul_eq_mul]
    ring
  · rfl

/-- Units held at `step` by the decodes that run until then. -/
def demand (decodes : List (ResidentDecodeState acc)) (step : Nat) : Nat :=
  ((decodes.filter fun state => step ≤ state.remainingDecode).map
    fun state => state.heldAfter step).sum

theorem demand_perm {a b : List (ResidentDecodeState acc)} (h : a.Perm b) (step : Nat) :
    demand a step = demand b step :=
  ((h.filter _).map _).sum_eq

theorem demandAt_eq_demand (decodes : List (ResidentDecodeState acc)) (step : Nat) :
    demandAt ResidentDecodeState.exitKey (growthOfRunning acc)
        (decodes.map fun state => state.charge).sum
        (byExit ResidentDecodeState.exitKey decodes) step = demand decodes step := by
  have hperm : (byExit ResidentDecodeState.exitKey decodes).Perm decodes :=
    List.perm_insertionSort _ _
  rw [← demand_perm hperm step]
  refine Eq.trans (demandAt_eq decodes step) ?_
  rw [growthOfRunning_eq, ← List.sum_map_add]
  exact congrArg List.sum (List.map_congr_left fun state _ => state.charge_add_growth step)

theorem demand_le_next_exit (decodes : List (ResidentDecodeState acc)) (step : Nat) :
    demand decodes step = 0 ∨
      ∃ state ∈ decodes, demand decodes step ≤ demand decodes state.remainingDecode := by
  set running := decodes.filter fun state => step ≤ state.remainingDecode with hrun
  cases hfirst : running.argmin ResidentDecodeState.remainingDecode with
  | none =>
    rw [List.argmin_eq_none] at hfirst
    exact .inl (by simp [demand, ← hrun, hfirst])
  | some first =>
    have hmem : first ∈ running := List.argmin_mem hfirst
    have hstep : step ≤ first.remainingDecode := by
      simpa using (List.mem_filter.mp hmem).2
    refine .inr ⟨first, (List.mem_filter.mp hmem).1, ?_⟩
    -- nobody leaves between `step` and the next exit
    have hsame : decodes.filter (fun state => first.remainingDecode ≤ state.remainingDecode) =
        running := by
      refine List.filter_congr fun state hs => decide_eq_decide.mpr ⟨fun h => hstep.trans h, ?_⟩
      intro h
      exact List.le_of_mem_argmin (List.mem_filter.mpr ⟨hs, by simpa using h⟩) hfirst
    rw [demand, demand, hsame]
    exact List.sum_le_sum fun state _ => state.heldAfter_mono hstep

theorem projectedPeakAt_covers {decodes : List (ResidentDecodeState acc)} {indices : List Nat}
    (hall : ∀ index < decodes.length, index ∈ indices) (step : Nat) :
    demand decodes step ≤
      projectedPeakAt indices (decodes.map fun state => state.charge).sum decodes := by
  rcases demand_le_next_exit decodes step with h | ⟨state, hs, h⟩
  · exact h.le.trans (Nat.zero_le _)
  · refine h.trans ?_
    have hperm : (byExit ResidentDecodeState.exitKey decodes).Perm decodes :=
      List.perm_insertionSort _ _
    obtain ⟨index, hi⟩ := List.mem_iff_getElem?.mp (hperm.mem_iff.mpr hs)
    have hlt : index < decodes.length := by
      rw [← hperm.length_eq]
      exact (List.getElem?_eq_some_iff.mp hi).1
    rw [← demandAt_eq_demand]
    exact demandAt_le_peak (hall index hlt) hi

end projectedPeak

/-! ## The partition -/

structure ResidentPartitionState (acc : KvAccounting) where
  residentUnits : Nat
  /-- Checkpoints live decodes have passed: soft, never part of `residentUnits`. -/
  checkpointUnits : Nat
  /-- Decodes in insertion order. -/
  decodes : SlotList RequestId (ResidentDecodeState acc)
  /-- Requests realized as prefill for the current iteration. -/
  prefillAdmits : List RequestId
  /-- Projected peak as of the last decode entry or exit. -/
  cachedPeak : Nat
  residentUnits_eq : residentUnits = decodes.sum fun state => state.charge
  checkpointUnits_eq : checkpointUnits = (decodes.sum fun state => state.checkpoint) % 2 ^ 64

namespace ResidentPartitionState

variable {acc : KvAccounting}

theorem checkpoints_empty (acc : KvAccounting) :
    0 = ((SlotList.empty : SlotList RequestId (ResidentDecodeState acc)).sum
      fun state => state.checkpoint) % 2 ^ 64 := by
  rw [SlotList.sum_empty]
  rfl

def new (acc : KvAccounting) : ResidentPartitionState acc where
  residentUnits := 0
  checkpointUnits := 0
  decodes := .empty
  prefillAdmits := []
  cachedPeak := 0
  residentUnits_eq := (SlotList.sum_empty fun state : ResidentDecodeState acc => state.charge).symm
  checkpointUnits_eq := checkpoints_empty acc

def decodeCurrentKv (partition : ResidentPartitionState acc) (request : RequestId) : Option Nat :=
  (partition.decodes.get? request).map fun state => state.currentKv

/-- The decodes' states in insertion order. -/
def states (partition : ResidentPartitionState acc) : List (ResidentDecodeState acc) :=
  partition.decodes.slots.map Prod.snd

theorem residentUnits_eq_states (partition : ResidentPartitionState acc) :
    partition.residentUnits = (partition.states.map fun state => state.charge).sum := by
  rw [partition.residentUnits_eq, SlotList.sum, states, List.map_map]
  rfl

/-- Live decodes in insertion order. -/
def iterDecoding (partition : ResidentPartitionState acc) :
    List (RequestId × ResidentDecodeState acc) :=
  partition.decodes.slots.filter fun e => e.2.remainingDecode > 0

def decodeMembers (partition : ResidentPartitionState acc) : List (RequestId × Nat) :=
  partition.iterDecoding.map fun e => (e.1, e.2.currentKv)

def decodeStates (partition : ResidentPartitionState acc) : List (RequestId × Nat × Nat) :=
  partition.iterDecoding.map fun e => (e.1, e.2.currentKv, e.2.remainingDecode)

/-- Units the live decodes' next `maxFutureTokens` (or fewer) tokens add, scaled
by `ratio`. -/
def boundedFutureDecodeUnits (partition : ResidentPartitionState acc) (maxFutureTokens : Nat)
    (ratio : ℚ) : ℚ :=
  let future := fun state : ResidentDecodeState acc => min state.remainingDecode maxFutureTokens
  match acc.linearUnitsPerToken with
  | some unitsPerToken =>
    (partition.iterDecoding.map fun e => ((future e.2 * unitsPerToken : Nat) : ℚ) * ratio).sum
  | none =>
    (partition.iterDecoding.map fun e =>
      (acc.growthOver e.2.currentKv (future e.2) : ℚ) * ratio).sum

/-- Units the next decode step may allocate, each decode advancing `stepTokens`
capped by its remaining output. -/
def nextDecodeAllocationUnits (partition : ResidentPartitionState acc)
    (pageSize stepTokens : Nat) : Nat :=
  let step := fun state : ResidentDecodeState acc => min state.remainingDecode stepTokens
  match acc.linearUnitsPerToken with
  | none =>
    (partition.iterDecoding.map fun e => acc.growthOver e.2.currentKv (step e.2)).sum
  | some unitsPerToken =>
    if pageSize = 1 then
      (partition.iterDecoding.map fun e => step e.2 * unitsPerToken).sum
    else
      -- whole pages, predicted from single-token steps
      (partition.iterDecoding.filter fun e => e.2.currentKv % pageSize = 0).length *
        pageSize * unitsPerToken

def hasLiveDecode (partition : ResidentPartitionState acc) : Bool :=
  !partition.iterDecoding.isEmpty

def liveDecodeCount (partition : ResidentPartitionState acc) : Nat :=
  partition.iterDecoding.length

def addPrefillAdmit (partition : ResidentPartitionState acc) (request : RequestId) :
    ResidentPartitionState acc :=
  { partition with prefillAdmits := partition.prefillAdmits ++ [request] }

def clearPrefillAdmits (partition : ResidentPartitionState acc) : ResidentPartitionState acc :=
  { partition with prefillAdmits := [] }

/-- Drop the element at a position, the last one taking its place. -/
def swapRemove (admits : List RequestId) (position : Nat) : List RequestId :=
  match admits.getLast? with
  | none => []
  | some last => (admits.set position last).dropLast

def removePrefillAdmit (partition : ResidentPartitionState acc) (request : RequestId) :
    ResidentPartitionState acc :=
  match partition.prefillAdmits.idxOf? request with
  | none => partition
  | some position =>
    { partition with prefillAdmits := swapRemove partition.prefillAdmits position }

def recomputePeak (partition : ResidentPartitionState acc) : ResidentPartitionState acc :=
  { partition with cachedPeak := projectedPeak partition.residentUnits partition.states }

/-- Advance every resident decode by one token. -/
def advanceDecodes (partition : ResidentPartitionState acc) : ResidentPartitionState acc :=
  { partition with
    decodes := partition.decodes.mapValues fun state => state.advanceIfLive.1
    residentUnits :=
      partition.residentUnits + partition.decodes.sum fun state => state.advanceIfLive.2.1
    checkpointUnits := wrappingAdd partition.checkpointUnits
      (partition.decodes.sum fun state => state.advanceIfLive.2.2)
    residentUnits_eq := by
      rw [SlotList.sum_mapValues, partition.residentUnits_eq, ← SlotList.sum_add]
      simp only [ResidentDecodeState.advanceIfLive_charge]
    checkpointUnits_eq := by
      rw [SlotList.sum_mapValues, partition.checkpointUnits_eq, wrappingAdd, Nat.mod_add_mod,
        ← SlotList.sum_add]
      exact (SlotList.sum_mod_congr (fun e _ => e.2.advanceIfLive_checkpoint)).symm }

/-- Advance one named decode, if it is resident. -/
def advanceRequest (partition : ResidentPartitionState acc) (request : RequestId) :
    ResidentPartitionState acc :=
  match h : partition.decodes.get? request with
  | none => partition
  | some state =>
    { partition with
      decodes := partition.decodes.modify request fun state => state.advanceIfLive.1
      residentUnits := partition.residentUnits + state.advanceIfLive.2.1
      checkpointUnits := wrappingAdd partition.checkpointUnits state.advanceIfLive.2.2
      residentUnits_eq := by
        have hm := SlotList.sum_modify (fun state => state.charge)
          (fun state : ResidentDecodeState acc => state.advanceIfLive.1) h
        have hc := state.advanceIfLive_charge
        rw [partition.residentUnits_eq]
        omega
      checkpointUnits_eq := by
        have hm := SlotList.sum_modify (fun state => state.checkpoint)
          (fun state : ResidentDecodeState acc => state.advanceIfLive.1) h
        have hc := state.advanceIfLive_checkpoint
        rw [partition.checkpointUnits_eq, wrappingAdd]
        omega }

/-- Advance only a named slot micro-batch. -/
def advanceSubset (partition : ResidentPartitionState acc) (requests : List RequestId) :
    ResidentPartitionState acc :=
  requests.foldl advanceRequest partition

/-- A realized prefill enters resident decode state. Decode ids are unique: the
source asserts that the request is not resident yet. -/
def beginDecode (partition : ResidentPartitionState acc) (request : RequestId)
    (postPrefillContextTokens decodeBudget promptTokens : Nat) : ResidentPartitionState acc :=
  if h : request ∈ partition.decodes.index then partition
  else
    let state : ResidentDecodeState acc :=
      { currentKv := postPrefillContextTokens
        remainingDecode := decodeBudget
        promptTokens := promptTokens
        charge := acc.heldWhileRunning postPrefillContextTokens 1
        checkpoint :=
          if acc.keepsCheckpoints then acc.checkpointUnits promptTokens postPrefillContextTokens
          else 0
        charge_eq := rfl }
    recomputePeak
      { partition with
        decodes := partition.decodes.push request state h
        residentUnits := partition.residentUnits + state.charge
        checkpointUnits := wrappingAdd partition.checkpointUnits state.checkpoint
        residentUnits_eq := by rw [SlotList.sum_push, partition.residentUnits_eq]
        checkpointUnits_eq := by
          rw [SlotList.sum_push, partition.checkpointUnits_eq, wrappingAdd, Nat.mod_add_mod] }

/-- Remove one resident decode while preserving the order of all survivors. -/
def releaseDecode (partition : ResidentPartitionState acc) (request : RequestId) :
    ResidentPartitionState acc :=
  match h : partition.decodes.get? request with
  | none => partition
  | some state =>
    recomputePeak
      { partition with
        decodes := partition.decodes.remove request
        residentUnits := partition.residentUnits - state.charge
        checkpointUnits := wrappingSub partition.checkpointUnits state.checkpoint
        residentUnits_eq := by
          rw [partition.residentUnits_eq, ← SlotList.sum_remove _ h, Nat.add_sub_cancel]
        checkpointUnits_eq := by
          have hr := SlotList.sum_remove (fun state => state.checkpoint) h
          have hc := wrappingSub_cast partition.checkpointUnits state.checkpoint
          rw [partition.checkpointUnits_eq] at hc ⊢
          omega }

/-! ## What the operations do -/

section frame

variable (partition : ResidentPartitionState acc) (request : RequestId)

@[simp] theorem decodes_recomputePeak : partition.recomputePeak.decodes = partition.decodes := rfl

@[simp] theorem decodes_addPrefillAdmit :
    (partition.addPrefillAdmit request).decodes = partition.decodes := rfl

@[simp] theorem decodes_clearPrefillAdmits :
    partition.clearPrefillAdmits.decodes = partition.decodes := rfl

@[simp] theorem decodes_removePrefillAdmit :
    (partition.removePrefillAdmit request).decodes = partition.decodes := by
  unfold removePrefillAdmit
  split <;> rfl

@[simp] theorem decodes_advanceDecodes : partition.advanceDecodes.decodes =
      partition.decodes.mapValues fun state => state.advanceIfLive.1 := rfl

theorem decodes_advanceRequest : (partition.advanceRequest request).decodes =
      partition.decodes.modify request fun state => state.advanceIfLive.1 := by
  unfold advanceRequest
  split
  · rename_i h
    exact (SlotList.modify_of_notMem _ ((SlotList.get?_eq_none_iff _ _).mp h)).symm
  · rfl

@[simp] theorem keys_advanceSubset (requests : List RequestId) :
    (partition.advanceSubset requests).decodes.keys = partition.decodes.keys := by
  induction requests generalizing partition with
  | nil => rfl
  | cons r requests ih =>
    have h := ih (partition.advanceRequest r)
    rw [decodes_advanceRequest, SlotList.keys_modify] at h
    exact h

theorem decodes_releaseDecode :
    (partition.releaseDecode request).decodes = partition.decodes.remove request := by
  unfold releaseDecode
  split
  · rename_i h
    exact (SlotList.remove_of_notMem ((SlotList.get?_eq_none_iff _ _).mp h)).symm
  · rfl

theorem mem_keys_releaseDecode (other : RequestId) :
    other ∈ (partition.releaseDecode request).decodes.keys ↔
      other ∈ partition.decodes.keys ∧ other ≠ request := by
  rw [decodes_releaseDecode, SlotList.mem_keys_remove_iff]

theorem slots_beginDecode (postPrefillContextTokens decodeBudget promptTokens : Nat)
    (h : request ∉ partition.decodes.keys) :
    ∃ state : ResidentDecodeState acc,
      (partition.beginDecode request postPrefillContextTokens decodeBudget
          promptTokens).decodes.slots
        = partition.decodes.slots ++ [(request, state)] ∧
      state.currentKv = postPrefillContextTokens ∧ state.remainingDecode = decodeBudget := by
  have hi : request ∉ partition.decodes.index := fun hm =>
    h ((partition.decodes.mem_index_iff request).mp hm)
  unfold beginDecode
  rw [dif_neg hi]
  exact ⟨_, rfl, rfl, rfl⟩

theorem mem_keys_beginDecode (postPrefillContextTokens decodeBudget promptTokens : Nat)
    (other : RequestId) :
    other ∈ (partition.beginDecode request postPrefillContextTokens decodeBudget
        promptTokens).decodes.keys ↔ other ∈ partition.decodes.keys ∨ other = request := by
  by_cases h : request ∈ partition.decodes.keys
  · have hi := (partition.decodes.mem_index_iff request).mpr h
    rw [beginDecode, dif_pos hi]
    exact ⟨.inl, fun ho => ho.elim id fun heq => heq ▸ h⟩
  · obtain ⟨state, hs, -⟩ := partition.slots_beginDecode request postPrefillContextTokens
      decodeBudget promptTokens h
    simp [SlotList.keys, hs]

/-! Prefills of the iteration. -/

@[simp] theorem prefillAdmits_advanceSubset (requests : List RequestId) :
    (partition.advanceSubset requests).prefillAdmits = partition.prefillAdmits := by
  induction requests generalizing partition with
  | nil => rfl
  | cons r requests ih =>
    refine (ih (partition.advanceRequest r)).trans ?_
    unfold advanceRequest
    split <;> rfl

@[simp] theorem prefillAdmits_beginDecode
    (postPrefillContextTokens decodeBudget promptTokens : Nat) :
    (partition.beginDecode request postPrefillContextTokens decodeBudget
      promptTokens).prefillAdmits = partition.prefillAdmits := by
  unfold beginDecode
  split <;> rfl

@[simp] theorem prefillAdmits_releaseDecode :
    (partition.releaseDecode request).prefillAdmits = partition.prefillAdmits := by
  unfold releaseDecode
  split <;> rfl

theorem perm_swapRemove {admits : List RequestId} {position : Nat}
    (h : position < admits.length) :
    (swapRemove admits position).Perm (admits.eraseIdx position) := by
  obtain ⟨init, last, rfl⟩ : ∃ init last, admits = init ++ [last] :=
    ⟨_, _, (List.dropLast_concat_getLast (List.ne_nil_of_length_pos (by omega))).symm⟩
  have hlast : (init ++ [last]).getLast? = some last := List.getLast?_concat ..
  rw [List.length_append, List.length_singleton] at h
  simp only [swapRemove, hlast]
  by_cases hinit : position < init.length
  · -- the last element takes the place of the dropped one
    rw [List.set_append_left _ _ hinit, List.dropLast_concat,
      List.eraseIdx_append_of_lt_length hinit, List.set_eq_take_append_cons_drop, if_pos hinit,
      List.eraseIdx_eq_take_drop_succ]
    refine List.perm_middle.trans ?_
    exact (List.perm_append_singleton _ _).symm
  · obtain rfl : position = init.length := by omega
    rw [List.set_append_right _ _ (Nat.le_refl _), Nat.sub_self, List.set_cons_zero,
      List.dropLast_concat, List.eraseIdx_append_of_length_le (Nat.le_refl _), Nat.sub_self,
      List.eraseIdx_cons_zero, List.append_nil]

theorem admits_removePrefillAdmit : (partition.removePrefillAdmit request).prefillAdmits.Perm
      (partition.prefillAdmits.erase request) := by
  rw [removePrefillAdmit, List.erase_eq_eraseIdx]
  cases hposition : partition.prefillAdmits.idxOf? request with
  | none => exact .refl _
  | some position =>
    obtain ⟨hlt, -⟩ := List.idxOf?_eq_some_iff.mp hposition
    exact perm_swapRemove hlt

theorem removePrefillAdmit_nil (h : partition.prefillAdmits = []) :
    (partition.removePrefillAdmit request).prefillAdmits = [] := by
  simp [removePrefillAdmit, h]

end frame

end ResidentPartitionState

end ServingSim
