import ServingSim.Kv.HardRoom

/-
  Full-footprint admission: does a true `fits` keep a partition from overfilling?

  `fits` adds a new footprint to the projected peak of the decodes already
  resident. Two things decide whether that is enough. How the decodes advance:
  the projection assumes that all of them grow by one token a step, and a
  microbatch, a slot or a speculative step does not. And what the projection
  sees: from twelve decodes on it looks at a sample of their exits only, and a
  request between its drain and its commit is charged nowhere.

  What is proved:
    1. `lockstep_decode_fits` — with whole-partition decode, reservations that
       leave room beside the peak over every exit (and beside the prefills of
       the iteration) never let a partition overfill; `lockstep_decode_overfills`
       — a true `fits` alone does: the sampled exits can miss the peak.
    2. `unequal_decode_fits` — with subset and multi-token advances,
       reservations that leave room beside what the decodes hold at their last
       tokens never let a partition overfill; `unequal_decode_overfills` — a
       true `fits` alone does: a decode that runs ahead meets one that has not
       left yet.
-/

namespace ServingSim

namespace KvCacheStore

variable {acc : KvAccounting} {n : Nat}

/-! ## The gate -/

/-- Every reservation is the request's full footprint and passed `fits`. -/
def PassedFits (work : AdmittedWork) (store : KvCacheStore acc n) (op : StoreOp n) : Prop :=
  ∀ e ∈ op.reservation, e.2.2 = footprint acc (work.contextTokens e.1) (work.outputTokens e.1) ∧
      store.fits e.2.1 e.2.2 = true

/-- An operation of a full-footprint run: issued in an order a worker can issue
it, on work as it was admitted, every reservation gated by `fits`. -/
def FullFootprintIssued (work : AdmittedWork) (store : KvCacheStore acc n) (op : StoreOp n) :
    Prop :=
  op.Issuable store ∧ op.FollowsWork work ∧ PassedFits work store op

/-- Every reservation leaves room beside `demand` of the decodes resident on its
partition, the other reservations, the prefills of the iteration and the held
units. -/
def RoomBeside (demand : ResidentPartitionState acc → Nat) (work : AdmittedWork)
    (store : KvCacheStore acc n) (op : StoreOp n) : Prop :=
  ∀ e ∈ op.reservation, demand (store.partitions e.2.1) + store.ledger.partitionPromised e.2.1 +
      store.drainedUnits work e.2.1 + store.ledger.partitionHeld e.2.1 + e.2.2.reservedUnits ≤
        acc.capacityUnits

instance (work : AdmittedWork) (store : KvCacheStore acc n) (op : StoreOp n) :
    Decidable (FullFootprintIssued work store op) :=
  inferInstanceAs (Decidable (_ ∧ _ ∧ ∀ e ∈ op.reservation, _))

instance (demand : ResidentPartitionState acc → Nat) (work : AdmittedWork)
    (store : KvCacheStore acc n) (op : StoreOp n) : Decidable (RoomBeside demand work store op) :=
  inferInstanceAs (Decidable (∀ e ∈ op.reservation, _))

theorem protected_le_of_allowed {work : AdmittedWork} {budget : PrefixCacheBudget}
    (need : NeedBound acc) (demand : ResidentPartitionState acc → Nat)
    {guard : KvCacheStore acc n → StoreOp n → Prop} {ops : List (StoreOp n)}
    (hdemand : ∀ partition, need.Within partition.states (demand partition))
    (hkeep : ∀ store op, guard store op → KeepsNeed need store op)
    (hissued : ∀ store op, guard store op → FullFootprintIssued work store op)
    (hroom : ∀ store op, guard store op → RoomBeside demand work store op)
    (h : Run.Allowed StoreOp.apply guard (new acc n budget) ops) (p : Fin n) :
    ((new acc n budget).runOps ops).protectedUnits p ≤ acc.capacityUnits := by
  have hinv : Room need work ((new acc n budget).runOps ops) := by
    refine Run.invariant (Room need work) (fun store op hs hg => ?_) (room_new need work budget) h
    obtain ⟨hop, hfollow, hfits⟩ := hissued store op hg
    have hcharge : ReservesFootprint work acc op := fun q p f hres =>
      congrArg KvFootprint.reservedUnits (hfits (q, p, f) hres).1
    have hleave : LeavesRoom need work store op := fun q p f hres =>
      ⟨demand (store.partitions p), hdemand _, hroom store op hg (q, p, f) hres⟩
    exact room_apply hs hop hfollow hcharge hleave (hkeep store op hg)
  exact protected_le_of_room hinv p

/-! ## Whole-partition decode -/

/-- Whole-partition decode: one token a step for every resident decode, none of
them finished. -/
def AdvancesTogether (store : KvCacheStore acc n) : StoreOp n → Prop
  | .advance (.wholePartition p) steps =>
    steps = 1 ∧ ∀ state ∈ store.statesOf p, 0 < state.remainingDecode
  | .advance (.requestSubset _ _) _ => False
  | _ => True

instance (store : KvCacheStore acc n) (op : StoreOp n) : Decidable (AdvancesTogether store op) := by
  unfold AdvancesTogether
  split <;> infer_instance

/-- Peak of the resident decodes over every exit. -/
def peakOverAllExits (partition : ResidentPartitionState acc) : Nat :=
  projectedPeakAt (List.range partition.states.length) partition.residentUnits partition.states

theorem demand_append (states : List (ResidentDecodeState acc)) (state : ResidentDecodeState acc)
    (step : Nat) :
    demand (states ++ [state]) step =
      demand states step + if step ≤ state.remainingDecode then state.heldAfter step else 0 := by
  by_cases h : step ≤ state.remainingDecode <;> simp [demand, List.filter_append, h]

theorem demand_leave_le (s t : List (ResidentDecodeState acc)) (state : ResidentDecodeState acc)
    (step : Nat) : demand (s ++ t) step ≤ demand (s ++ state :: t) step := by
  have hsub : (s ++ t).Sublist (s ++ state :: t) := (List.sublist_cons_self state t).append_left s
  exact ((hsub.filter _).map _).sum_le_sum fun _ _ => Nat.zero_le _

theorem demand_enter_le {states : List (ResidentDecodeState acc)} {state : ResidentDecodeState acc}
    {x y step : Nat} (hstep : demand states step ≤ x)
    (hy : state.heldAfter state.remainingDecode ≤ y) :
    demand (states ++ [state]) step ≤ x + y := by
  rw [demand_append]
  split
  · have hheld := state.heldAfter_mono ‹_›
    omega
  · omega

theorem charge_le_of_demand {states : List (ResidentDecodeState acc)} {x : Nat}
    (h : ∀ step, demand states step ≤ x) : (states.map fun state => state.charge).sum ≤ x := by
  have hnow := h 0
  simpa [demand] using hnow

/-- The decodes' need in lockstep: what they hold at each future step. -/
def lockstepNeed (acc : KvAccounting) : NeedBound acc where
  Within := fun states x => ∀ step, demand states step ≤ x
  nil := fun _ => Nat.le_refl 0
  mono := fun hxy h step => (h step).trans hxy
  charge_le := charge_le_of_demand
  enter := fun h hy step => demand_enter_le (h step) hy
  leave := fun {s t _ state} h step => (demand_leave_le s t state step).trans (h step)

theorem demand_advance {states : List (ResidentDecodeState acc)}
    (h : ∀ state ∈ states, 0 < state.remainingDecode) (step : Nat) :
    demand (states.map fun state => state.advanceIfLive.1) step = demand states (step + 1) := by
  induction states with
  | nil => rfl
  | cons state states ih =>
    have hlive : 0 < state.remainingDecode := h state List.mem_cons_self
    have hrest := ih fun other ho => h other (List.mem_cons_of_mem _ ho)
    have hexit : step ≤ state.remainingDecode - 1 ↔ step + 1 ≤ state.remainingDecode := by omega
    have hheld : state.advance.1.heldAfter step = state.heldAfter (step + 1) := by
      simp only [ResidentDecodeState.heldAfter, ResidentDecodeState.currentKv_advance]
      congr 1
      omega
    simp only [demand, List.map_cons, List.filter_cons, ResidentDecodeState.advanceIfLive, hlive,
      if_true, ResidentDecodeState.remainingDecode_advance, hexit] at hrest ⊢
    split <;> simp_all

theorem keepsNeed_lockstep {store : KvCacheStore acc n} {op : StoreOp n}
    (h : AdvancesTogether store op) : KeepsNeed (lockstepNeed acc) store op := by
  cases op with
  | advance scope steps =>
    cases scope with
    | requestSubset => exact h.elim
    | wholePartition pq =>
      obtain ⟨rfl, hlive⟩ := h
      intro p x hw step
      by_cases hp : p = pq
      · subst hp
        have hstates : (store.advance (.wholePartition p) 1).statesOf p =
            (store.statesOf p).map fun state => state.advanceIfLive.1 := by
          simp [advance, advanceOnce, statesOf, ResidentPartitionState.states, SlotList.mapValues]
        rw [hstates, demand_advance hlive]
        exact hw _
      · have hstates : (store.advance (.wholePartition pq) 1).statesOf p = store.statesOf p := by
          simp only [advance, advanceOnce, statesOf, modifyPartition_of_ne _ _ hp]
        rw [hstates]
        exact hw step
  | _ => trivial

/-- Full-footprint safety with whole-partition decode: reservations that leave
room beside the peak over every exit never let a partition overfill, so no
advance does. -/
theorem lockstep_decode_fits (acc : KvAccounting) (n : Nat) (budget : PrefixCacheBudget)
    (work : AdmittedWork) (ops : List (StoreOp n))
    (h : Run.Allowed StoreOp.apply
      (fun store op => FullFootprintIssued work store op ∧ AdvancesTogether store op ∧
        RoomBeside peakOverAllExits work store op) (new acc n budget) ops) (p : Fin n) :
    ((new acc n budget).runOps ops).protectedUnits p ≤ acc.capacityUnits ∧
      (((new acc n budget).runOps ops).partitions p).residentUnits ≤ acc.capacityUnits := by
  have hfits : ((new acc n budget).runOps ops).protectedUnits p ≤ acc.capacityUnits := by
    refine protected_le_of_allowed (lockstepNeed acc) peakOverAllExits
      (fun partition step => ?_) (fun _ _ hg => keepsNeed_lockstep hg.2.1) (fun _ _ hg => hg.1)
      (fun _ _ hg => hg.2.2) h p
    rw [peakOverAllExits, partition.residentUnits_eq_states]
    exact projectedPeakAt_covers (fun index hi => List.mem_range.mpr hi) step
  refine ⟨hfits, hfits.trans' ?_⟩
  rw [protectedUnits]
  omega

/-- Three requests, the third reserved while the first two decode. -/
theorem lockstep_decode_fits_three :
    ((new (KvAccounting.tokensForTest 20 (by decide)) 1 .disabled).runOps
      [.reserve 1 0 ⟨6, .fullFootprint⟩, .reserve 2 0 ⟨6, .fullFootprint⟩, .drainReady,
        .commitResident 1 0 4 2, .commitResident 2 0 4 2, .advance (.wholePartition 0) 1,
        .reserve 3 0 ⟨6, .fullFootprint⟩, .advance (.wholePartition 0) 1, .release 1 0,
        .release 2 0, .drainReady, .commitResident 3 0 4 2]).protectedUnits 0 ≤ 20 ∧
    (((new (KvAccounting.tokensForTest 20 (by decide)) 1 .disabled).runOps
      [.reserve 1 0 ⟨6, .fullFootprint⟩, .reserve 2 0 ⟨6, .fullFootprint⟩, .drainReady,
        .commitResident 1 0 4 2, .commitResident 2 0 4 2, .advance (.wholePartition 0) 1,
        .reserve 3 0 ⟨6, .fullFootprint⟩, .advance (.wholePartition 0) 1, .release 1 0,
        .release 2 0, .drainReady, .commitResident 3 0 4 2]).partitions 0).residentUnits ≤ 20 :=
  lockstep_decode_fits _ 1 .disabled ⟨fun _ => 4, fun _ => 2⟩ _ (by decide +kernel) 0

/-- Twelve requests of one context token: eight with one output token, one with
six, three with seven; and a late one of twenty-two context tokens. -/
def sampledExitsWork : AdmittedWork where
  contextTokens := fun r => if r = 12 then 22 else 1
  outputTokens := fun r => if r < 8 then 1 else if r = 8 then 6 else if r = 12 then 1 else 7

/-- The late request is reserved beside the twelve decodes and committed just
before the ninth exit, which the sample leaves out. -/
def sampledExitsRun (acc : KvAccounting) : List (StoreOp 1) :=
  let claim := fun r =>
    footprint acc (sampledExitsWork.contextTokens r) (sampledExitsWork.outputTokens r)
  let p := Fin.last 0
  let commit := fun r =>
    .commitResident r p (sampledExitsWork.contextTokens r) (sampledExitsWork.outputTokens r)
  (List.range 12).map (fun r => .reserve r p (claim r)) ++ [.drainReady] ++
    (List.range 12).map commit ++
    [.clearPrefillAdmits p, .reserve 12 p (claim 12), .advance (.wholePartition p) 1] ++
    (List.range 8).map (fun r => .release r p) ++
    List.replicate 4 (.advance (.wholePartition p) 1) ++
    [.drainReady, commit 12, .advance (.wholePartition p) 1]

/-- A true `fits` before every reservation does not keep twelve decodes from
overfilling: the sample of exits leaves the peak out. -/
theorem lockstep_decode_overfills :
    ¬ ∀ (acc : KvAccounting) (n : Nat) (budget : PrefixCacheBudget) (work : AdmittedWork)
      (ops : List (StoreOp n)),
      Run.Allowed StoreOp.apply
        (fun store op => FullFootprintIssued work store op ∧ AdvancesTogether store op)
        (new acc n budget) ops →
      ∀ p, ((new acc n budget).runOps ops).protectedUnits p ≤ acc.capacityUnits := by
  intro h
  have hover := h (KvAccounting.tokensForTest 47 (by decide)) 1 .disabled sampledExitsWork
    (sampledExitsRun (KvAccounting.tokensForTest 47 (by decide))) (by decide +kernel) 0
  revert hover
  decide +kernel

/-! ## Subset and multi-token advances -/

/-- What the resident decodes hold together at their last tokens. -/
def heldAtLastTokens (partition : ResidentPartitionState acc) : Nat :=
  (partition.states.map fun state => state.heldAfter state.remainingDecode).sum

/-- The decodes' need whatever the order of their steps. -/
def unorderedNeed (acc : KvAccounting) : NeedBound acc where
  Within := fun states x => (states.map fun state => state.heldAfter state.remainingDecode).sum ≤ x
  nil := Nat.le_refl 0
  mono := fun hxy h => h.trans hxy
  charge_le := fun {states x} h => by
    refine (List.sum_le_sum fun state _ => ?_).trans h
    rw [← state.heldAfter_zero]
    exact state.heldAfter_mono (Nat.zero_le _)
  enter := fun {states x y state} h hy => by
    rw [List.map_append, List.sum_append]
    simpa using Nat.add_le_add h hy
  leave := fun {s t x state} h => by
    simp only [List.map_append, List.map_cons, List.sum_append, List.sum_cons] at h ⊢
    omega

theorem heldAfter_advanceIfLive (state : ResidentDecodeState acc) :
    state.advanceIfLive.1.heldAfter state.advanceIfLive.1.remainingDecode =
      state.heldAfter state.remainingDecode := by
  rw [ResidentDecodeState.heldAfter, state.advanceIfLive_progress, ResidentDecodeState.heldAfter]

theorem heldAtLastTokens_eq (partition : ResidentPartitionState acc) : heldAtLastTokens partition =
      partition.decodes.sum fun state => state.heldAfter state.remainingDecode := by
  rw [heldAtLastTokens, ResidentPartitionState.states, List.map_map]
  rfl

theorem heldAtLastTokens_advanceDecodes (partition : ResidentPartitionState acc) :
    heldAtLastTokens partition.advanceDecodes = heldAtLastTokens partition := by
  rw [heldAtLastTokens_eq, heldAtLastTokens_eq, ResidentPartitionState.decodes_advanceDecodes,
    SlotList.sum_mapValues]
  simp only [heldAfter_advanceIfLive]

theorem heldAtLastTokens_advanceRequest (partition : ResidentPartitionState acc)
    (request : RequestId) :
    heldAtLastTokens (partition.advanceRequest request) = heldAtLastTokens partition := by
  rw [heldAtLastTokens_eq, heldAtLastTokens_eq, ResidentPartitionState.decodes_advanceRequest]
  cases h : partition.decodes.get? request with
  | none => rw [SlotList.modify_of_notMem _ ((SlotList.get?_eq_none_iff _ _).mp h)]
  | some state =>
    have hsum := SlotList.sum_modify (fun state => state.heldAfter state.remainingDecode)
      (fun state : ResidentDecodeState acc => state.advanceIfLive.1) h
    rw [heldAfter_advanceIfLive] at hsum
    omega

theorem heldAtLastTokens_advanceSubset (partition : ResidentPartitionState acc)
    (requests : List RequestId) :
    heldAtLastTokens (partition.advanceSubset requests) = heldAtLastTokens partition := by
  induction requests generalizing partition with
  | nil => rfl
  | cons r requests ih =>
    exact (ih (partition.advanceRequest r)).trans (heldAtLastTokens_advanceRequest partition r)

theorem heldAtLastTokens_advance (store : KvCacheStore acc n) (scope : AdvanceScope n)
    (steps : Nat) (p : Fin n) :
    heldAtLastTokens ((store.advance scope steps).partitions p) =
      heldAtLastTokens (store.partitions p) := by
  refine advance_induction (P := fun s => heldAtLastTokens (s.partitions p) =
    heldAtLastTokens (store.partitions p)) (fun s hs => ?_) rfl steps
  rw [← hs]
  cases scope with
  | wholePartition q =>
    by_cases hp : p = q
    · subst hp
      rw [advanceOnce, modifyPartition_self, heldAtLastTokens_advanceDecodes]
    · rw [advanceOnce, modifyPartition_of_ne _ _ hp]
  | requestSubset q requests =>
    by_cases hp : p = q
    · subst hp
      rw [advanceOnce, modifyPartition_self, heldAtLastTokens_advanceSubset]
    · rw [advanceOnce, modifyPartition_of_ne _ _ hp]

theorem keepsNeed_unordered (store : KvCacheStore acc n) (op : StoreOp n) :
    KeepsNeed (unorderedNeed acc) store op := by
  cases op with
  | advance scope steps =>
    intro p x hw
    exact (store.heldAtLastTokens_advance scope steps p).le.trans hw
  | _ => trivial

/-- Full-footprint safety whatever the order of the decode steps: reservations
that leave room beside what the decodes hold at their last tokens never let a
partition overfill. -/
theorem unequal_decode_fits (acc : KvAccounting) (n : Nat) (budget : PrefixCacheBudget)
    (work : AdmittedWork) (ops : List (StoreOp n))
    (h : Run.Allowed StoreOp.apply
      (fun store op => FullFootprintIssued work store op ∧
          RoomBeside heldAtLastTokens work store op)
      (new acc n budget) ops) (p : Fin n) :
    ((new acc n budget).runOps ops).protectedUnits p ≤ acc.capacityUnits :=
  protected_le_of_allowed (unorderedNeed acc) heldAtLastTokens (fun _ => Nat.le_refl _)
    (fun store op _ => keepsNeed_unordered store op) (fun _ _ hg => hg.1) (fun _ _ hg => hg.2) h p

/-- A long decode that runs ahead of a short one, and a third request reserved
in time. -/
theorem unequal_decode_fits_three :
    ((new (KvAccounting.tokensForTest 31 (by decide)) 1 .disabled).runOps
      [.reserve 1 0 ⟨11, .fullFootprint⟩, .reserve 2 0 ⟨11, .fullFootprint⟩, .drainReady,
        .commitResident 1 0 10 1, .commitResident 2 0 10 1, .reserve 3 0 ⟨9, .fullFootprint⟩,
        .advance (.requestSubset 0 [2]) 1]).protectedUnits 0 ≤ 31 :=
  unequal_decode_fits (KvAccounting.tokensForTest 31 (by decide)) 1 .disabled
    ⟨fun r => if r = 3 then 8 else 10, fun _ => 1⟩ _ (by decide +kernel) 0

/-- A short decode of ten context tokens, a long one of one, and a late request. -/
def runAheadWork : AdmittedWork where
  contextTokens := fun r => if r = 1 then 10 else if r = 2 then 1 else 8
  outputTokens := fun r => if r = 2 then 10 else 1

/-- A true `fits` before every reservation does not keep decodes that advance
apart from overfilling: the long decode grows before the short one leaves. -/
theorem unequal_decode_overfills :
    ¬ ∀ (acc : KvAccounting) (n : Nat) (budget : PrefixCacheBudget) (work : AdmittedWork)
      (ops : List (StoreOp n)),
      Run.Allowed StoreOp.apply (FullFootprintIssued work) (new acc n budget) ops →
      ∀ p, ((new acc n budget).runOps ops).protectedUnits p ≤ acc.capacityUnits := by
  intro h
  have hover := h (KvAccounting.tokensForTest 22 (by decide)) 1 .disabled runAheadWork
    [.reserve 1 0 ⟨11, .fullFootprint⟩, .reserve 2 0 ⟨11, .fullFootprint⟩, .drainReady,
      .commitResident 1 0 10 1, .commitResident 2 0 1 10, .reserve 3 0 ⟨9, .fullFootprint⟩,
      .advance (.requestSubset 0 [2]) 9] (by decide +kernel) 0
  revert hover
  decide +kernel

end KvCacheStore

end ServingSim
