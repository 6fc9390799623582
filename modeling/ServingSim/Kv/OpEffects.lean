import ServingSim.Kv.StoreRuns

/-
  What the store's operations do, request by request and in total.

  An operation is about at most one request (`subject`); what the ledger and the
  decode lists say about every other one stays. Most operations only give units
  back: they leave every promised and held total no higher and every decode list
  a sublist of what it was (`Shrinks`). The rest are the reservations, the
  commits, the hold and the advances.
-/

namespace ServingSim

open KeyedTotal

namespace KvCacheStore

variable {acc : KvAccounting} {n : Nat}

/-- The states of a partition's decodes. -/
def statesOf (store : KvCacheStore acc n) (p : Fin n) : List (ResidentDecodeState acc) :=
  (store.partitions p).states

/-! ## Held units -/

section held

variable (store : KvCacheStore acc n) (p : Fin n)

theorem partitionHeld_takeHeld_le (ledger : RequestLedger n) (q : RequestId) :
    (ledger.takeHeld q).1.partitionHeld p ≤ ledger.partitionHeld p := by
  have h := total_erase (heldUnits p) q ledger.held
  rw [RequestLedger.partitionHeld, RequestLedger.partitionHeld, RequestLedger.held_eq,
    ledger.held_eq]
  exact Nat.le.intro h

theorem partitionHeld_hold {ledger : RequestLedger n} {q : RequestId} (pq : Fin n)
    (units kvTokens : Nat) (h : q ∉ ledger.held) :
    (ledger.hold q pq units kvTokens).partitionHeld p =
      (if pq = p then units else 0) + ledger.partitionHeld p := by
  rw [RequestLedger.partitionHeld, RequestLedger.partitionHeld, RequestLedger.held_eq,
    ledger.held_eq]
  exact total_insert_of_notMem _ _ h

@[simp] theorem partitionHeld_promote (ledger : RequestLedger n) (q : RequestId) :
    (ledger.promotePromiseToChunkedPrefill q).partitionHeld p = ledger.partitionHeld p := by
  unfold RequestLedger.promotePromiseToChunkedPrefill
  split <;> rfl

@[simp] theorem partitionHeld_updatePrefillContext (ledger : RequestLedger n) (q : RequestId)
    (f : ResolvedPrefillContext → ResolvedPrefillContext) :
    (ledger.updatePrefillContext q f).partitionHeld p = ledger.partitionHeld p := by
  unfold RequestLedger.updatePrefillContext
  split <;> rfl

theorem partitionHeld_reserve (q : RequestId) (pq : Fin n) (f : KvFootprint) :
    (store.reserve q pq f).ledger.partitionHeld p = store.ledger.partitionHeld p := by
  rw [ledger_reserve]
  rfl

theorem partitionHeld_reservePrefillContext (q : RequestId) (pq : Fin n)
    (resolved : ResolvedPrefillContext) (f : KvFootprint) :
    (store.reservePrefillContext q pq resolved f).ledger.partitionHeld p =
      store.ledger.partitionHeld p := by
  rw [ledger_reservePrefillContext]
  rfl

theorem partitionHeld_reserveChunkedPrefillContext (q : RequestId) (pq : Fin n)
    (resolved : ResolvedPrefillContext) (f : KvFootprint) :
    (store.reserveChunkedPrefillContext q pq resolved f).ledger.partitionHeld p =
      store.ledger.partitionHeld p := by
  rw [reserveChunkedPrefillContext, ledger_modifyLedger, partitionHeld_promote,
    partitionHeld_reservePrefillContext]

end held

/-! ## Decode lists -/

section states

variable (store : KvCacheStore acc n) (p : Fin n)

theorem statesOf_congr {store store' : KvCacheStore acc n} {p : Fin n}
    (h : store'.partitions = store.partitions) : store'.statesOf p = store.statesOf p := by
  rw [statesOf, h, statesOf]

theorem statesOf_drainReady : store.drainReady.statesOf p = store.statesOf p := by
  obtain ⟨admits, h⟩ := store.partitions_drainReady p
  rw [statesOf, h]
  rfl

theorem statesOf_modifyPartition_of_decodes {q : Fin n}
    {f : ResidentPartitionState acc → ResidentPartitionState acc}
    (hf : ∀ state, (f state).decodes = state.decodes) :
    (store.modifyPartition q f).statesOf p = store.statesOf p := by
  by_cases hp : p = q
  · subst hp
    rw [statesOf, modifyPartition_self, ResidentPartitionState.states, hf]
    rfl
  · rw [statesOf, modifyPartition_of_ne store f hp]
    rfl

theorem statesOf_commitResident {q : RequestId} {pq : Fin n} (context remaining : Nat)
    (h : ¬ store.Resident pq q) :
    ∃ state : ResidentDecodeState acc, state.currentKv = context ∧
      state.remainingDecode = remaining ∧
      (store.commitResident q pq context remaining).statesOf pq = store.statesOf pq ++ [state] ∧
      ∀ p, p ≠ pq →
        (store.commitResident q pq context remaining).statesOf p = store.statesOf p := by
  obtain ⟨state, hs, hc, hr⟩ := (store.partitions pq).slots_beginDecode q context remaining
    (store.promptTokensOf q context) h
  refine ⟨state, hc, hr, ?_, fun p hp => ?_⟩
  · rw [statesOf, commitResident, modifyPartition_self, partitions_modifyLedger,
      ResidentPartitionState.states, hs]
    simp [statesOf, ResidentPartitionState.states]
  · rw [statesOf, commitResident, modifyPartition_of_ne _ _ hp]
    rfl

theorem states_releaseDecode (state : ResidentPartitionState acc) (q : RequestId) :
    (state.releaseDecode q).states = state.states ∨
      ∃ s a t, state.states = s ++ a :: t ∧ (state.releaseDecode q).states = s ++ t := by
  rw [ResidentPartitionState.states, ResidentPartitionState.decodes_releaseDecode]
  cases h : state.decodes.get? q with
  | none =>
    rw [SlotList.remove_of_notMem ((SlotList.get?_eq_none_iff _ _).mp h)]
    exact .inl rfl
  | some a =>
    obtain ⟨s, t, hl, hr⟩ := SlotList.remove_split h
    refine .inr ⟨s.map Prod.snd, a, t.map Prod.snd, ?_, ?_⟩
    · rw [ResidentPartitionState.states, hl]
      simp
    · rw [hr]
      simp

theorem statesOf_modifyPartition_leave {q : Fin n} {r : RequestId}
    {f : ResidentPartitionState acc → ResidentPartitionState acc}
    (hf : ∀ state, (f state).decodes = (state.releaseDecode r).decodes) :
    (store.modifyPartition q f).statesOf p = store.statesOf p ∨
      ∃ s a t, store.statesOf p = s ++ a :: t ∧
          (store.modifyPartition q f).statesOf p = s ++ t := by
  by_cases hp : p = q
  · subst hp
    have h := states_releaseDecode (store.partitions p) r
    rw [ResidentPartitionState.states, ← hf] at h
    rw [statesOf, modifyPartition_self]
    exact h
  · exact .inl (by rw [statesOf, modifyPartition_of_ne store f hp]; rfl)

end states

end KvCacheStore

/-! ## Advances -/

namespace ResidentDecodeState

variable {acc : KvAccounting}

/-- A decode `steps` tokens on, or at its last token. -/
def advanceBy (steps : Nat) (state : ResidentDecodeState acc) : ResidentDecodeState acc :=
  (fun state : ResidentDecodeState acc => state.advanceIfLive.1)^[steps] state

@[simp] theorem advanceBy_zero (state : ResidentDecodeState acc) : state.advanceBy 0 = state := rfl

theorem advanceBy_succ (steps : Nat) (state : ResidentDecodeState acc) :
    state.advanceBy (steps + 1) = state.advanceIfLive.1.advanceBy steps := rfl

theorem advanceBy_add (a b : Nat) (state : ResidentDecodeState acc) :
    (state.advanceBy a).advanceBy b = state.advanceBy (a + b) := by
  rw [advanceBy, advanceBy, advanceBy, ← Function.iterate_add_apply, Nat.add_comm]

theorem advanceBy_spec (steps : Nat) (state : ResidentDecodeState acc) :
    (state.advanceBy steps).currentKv = state.currentKv + min state.remainingDecode steps ∧
      (state.advanceBy steps).remainingDecode = state.remainingDecode - steps := by
  induction steps generalizing state with
  | zero => simp
  | succ steps ih =>
    rw [advanceBy_succ, (ih _).1, (ih _).2]
    unfold advanceIfLive
    split
    · simp only [currentKv_advance, remainingDecode_advance]
      omega
    · dsimp only
      omega

end ResidentDecodeState

namespace AdvanceScope

variable {n : Nat}

/-- The requests of one partition an advance grows. -/
def Covers (p : Fin n) (r : RequestId) : AdvanceScope n → Prop
  | wholePartition q => q = p
  | requestSubset q requests => q = p ∧ r ∈ requests

instance (p : Fin n) (r : RequestId) : (scope : AdvanceScope n) → Decidable (scope.Covers p r)
  | wholePartition _ => inferInstanceAs (Decidable (_ = _))
  | requestSubset _ _ => inferInstanceAs (Decidable (_ ∧ _))

/-- A subset names no request twice. -/
def Simple : AdvanceScope n → Prop
  | wholePartition _ => True
  | requestSubset _ requests => requests.Nodup

end AdvanceScope

namespace ResidentPartitionState

variable {acc : KvAccounting}

theorem slots_advanceRequest (partition : ResidentPartitionState acc) (r : RequestId) :
    (partition.advanceRequest r).decodes.slots = partition.decodes.slots.map fun e =>
      (e.1, if e.1 = r then e.2.advanceIfLive.1 else e.2) := by
  rw [decodes_advanceRequest, SlotList.slots_modify_eq_map]

theorem slots_advanceSubset (partition : ResidentPartitionState acc) {requests : List RequestId}
    (h : requests.Nodup) :
    (partition.advanceSubset requests).decodes.slots = partition.decodes.slots.map fun e =>
      (e.1, if e.1 ∈ requests then e.2.advanceIfLive.1 else e.2) := by
  induction requests generalizing partition with
  | nil => simp [advanceSubset]
  | cons r requests ih =>
    have hstep := ih (partition.advanceRequest r) (List.nodup_cons.mp h).2
    refine hstep.trans ?_
    rw [slots_advanceRequest, List.map_map]
    refine List.map_congr_left fun e _ => ?_
    by_cases he : e.1 = r
    · have hnot : r ∉ requests := (List.nodup_cons.mp h).1
      simp [he, hnot]
    · simp [he]

end ResidentPartitionState

namespace KvCacheStore

variable {acc : KvAccounting} {n : Nat}

theorem slots_advanceOnce (store : KvCacheStore acc n) {scope : AdvanceScope n} (h : scope.Simple)
    (p : Fin n) :
    ((store.advanceOnce scope).partitions p).decodes.slots =
      (store.partitions p).decodes.slots.map fun e =>
        (e.1, if scope.Covers p e.1 then e.2.advanceIfLive.1 else e.2) := by
  cases scope with
  | wholePartition q =>
    by_cases hq : p = q
    · subst hq
      simp [advanceOnce, AdvanceScope.Covers]
    · simp [advanceOnce, modifyPartition_of_ne _ _ hq, AdvanceScope.Covers, Ne.symm hq]
  | requestSubset q requests =>
    by_cases hq : p = q
    · subst hq
      simp [advanceOnce, AdvanceScope.Covers, ResidentPartitionState.slots_advanceSubset _ h]
    · simp [advanceOnce, modifyPartition_of_ne _ _ hq, AdvanceScope.Covers, Ne.symm hq]

theorem slots_advance (store : KvCacheStore acc n) {scope : AdvanceScope n} (h : scope.Simple)
    (steps : Nat) (p : Fin n) :
    ((store.advance scope steps).partitions p).decodes.slots =
      (store.partitions p).decodes.slots.map fun e =>
        (e.1, if scope.Covers p e.1 then e.2.advanceBy steps else e.2) := by
  induction steps generalizing store with
  | zero => simp [advance]
  | succ steps ih =>
    rw [advance, ih, slots_advanceOnce store h, List.map_map]
    refine List.map_congr_left fun e _ => ?_
    by_cases he : scope.Covers p e.1
    · simp [he, ResidentDecodeState.advanceBy_succ]
    · simp [he]

/-! ## Requests an operation is not about -/

/-- The decode of a request on a partition. -/
def decodeOf (store : KvCacheStore acc n) (p : Fin n) (r : RequestId) :
    Option (ResidentDecodeState acc) :=
  (store.partitions p).decodes.get? r

theorem resident_iff_decodeOf (store : KvCacheStore acc n) (p : Fin n) (r : RequestId) :
    store.Resident p r ↔ (store.decodeOf p r).isSome :=
  ((store.partitions p).decodes.get?_isSome_iff r).symm

theorem decodeOf_advance (store : KvCacheStore acc n) {scope : AdvanceScope n} (h : scope.Simple)
    (steps : Nat) (p : Fin n) (r : RequestId) :
    (store.advance scope steps).decodeOf p r = (store.decodeOf p r).map fun state =>
        if scope.Covers p r then state.advanceBy steps else state :=
  SlotList.get?_of_slots_map (f := fun r (state : ResidentDecodeState acc) =>
    if scope.Covers p r then state.advanceBy steps else state) (store.slots_advance h steps p) r

end KvCacheStore

namespace StoreOp

variable {n : Nat}

/-- The request an operation is about. -/
def subject : StoreOp n → Option RequestId
  | reserve r _ _ | reservePrefillContext r _ _ _ | reserveChunkedPrefillContext r _ _ _
  | schedulePrefillChunk r _ _ | completePrefillChunk r | finishChunkedPrefill r _ _
  | commitResident r _ _ _ | hold _ r _ | release r _ | releaseRetainingPrefix r _
  | releaseExternal r | completeHandoff r => some r
  | prepareNextDecode _ _ _ | drainReady | advance _ _ | clearPrefillAdmits _ => none

/-- The operation reserves, commits, holds and advances nothing. -/
def Quiet : StoreOp n → Prop
  | schedulePrefillChunk _ _ _ | completePrefillChunk _ | prepareNextDecode _ _ _ | drainReady
  | clearPrefillAdmits _ | release _ _ | releaseRetainingPrefix _ _ | releaseExternal _
  | completeHandoff _ => True
  | _ => False

end StoreOp

namespace KvCacheStore

variable {acc : KvAccounting} {n : Nat}

section frame

variable (store : KvCacheStore acc n) {r q : RequestId} (p : Fin n)

theorem decodeOf_modifyPartition_of_get? (pq : Fin n)
    {f : ResidentPartitionState acc → ResidentPartitionState acc}
    (hf : ∀ state, (f state).decodes.get? r = state.decodes.get? r) :
    (store.modifyPartition pq f).decodeOf p r = store.decodeOf p r := by
  by_cases hp : p = pq
  · subst hp
    rw [decodeOf, modifyPartition_self, hf]
    rfl
  · rw [decodeOf, modifyPartition_of_ne _ _ hp]
    rfl

theorem decodeOf_commitResident_of_ne (h : r ≠ q) (pq : Fin n) (context remaining : Nat) :
    (store.commitResident q pq context remaining).decodeOf p r = store.decodeOf p r := by
  refine decodeOf_modifyPartition_of_get? _ p _ fun state => ?_
  unfold ResidentPartitionState.beginDecode
  split
  · rfl
  · simp only [ResidentPartitionState.decodes_recomputePeak, SlotList.get?_push_ne h]

theorem decodeOf_release_of_ne (h : r ≠ q) (pq : Fin n) :
    (store.release q pq).decodeOf p r = store.decodeOf p r :=
  decodeOf_modifyPartition_of_get? _ p _ fun state => by
    rw [ResidentPartitionState.decodes_releaseDecode, SlotList.get?_remove_ne h]

theorem decodeOf_apply_of_ne {op : StoreOp n} (h : op.subject ≠ some r)
    (hadvance : ∀ scope steps, op ≠ .advance scope steps) :
    (op.apply store).decodeOf p r = store.decodeOf p r := by
  cases op with
  | advance scope steps => exact absurd rfl (hadvance scope steps)
  | drainReady =>
    obtain ⟨admits, ha⟩ := store.partitions_drainReady p
    simp [StoreOp.apply, decodeOf, ha]
  | commitResident q pq context remaining =>
    exact store.decodeOf_commitResident_of_ne p (fun hr => h (congrArg some hr.symm)) pq _ _
  | finishChunkedPrefill q pq remaining =>
    simp only [StoreOp.apply, finishChunkedPrefill]
    split
    · rfl
    · exact decodeOf_commitResident_of_ne _ p (fun hr => h (congrArg some hr.symm)) pq _ _
  | release q pq => exact store.decodeOf_release_of_ne p (fun hr => h (congrArg some hr.symm)) pq
  | releaseRetainingPrefix q pq =>
    rw [decodeOf, StoreOp.apply, partitions_releaseRetainingPrefix]
    exact store.decodeOf_release_of_ne p (fun hr => h (congrArg some hr.symm)) pq
  | releaseExternal q =>
    simp only [StoreOp.apply, releaseExternal]
    split
    · rfl
    · dsimp only
      refine (decodeOf_modifyPartition_of_get? _ p _ fun state => ?_).trans rfl
      rw [ResidentPartitionState.decodes_removePrefillAdmit,
        ResidentPartitionState.decodes_releaseDecode,
        SlotList.get?_remove_ne fun hr => h (congrArg some hr.symm)]
  | schedulePrefillChunk q pq chunk =>
    exact (decodeOf_modifyPartition_of_get? _ p pq
      fun state => congrArg (SlotList.get? · r) (state.decodes_addPrefillAdmit q)).trans rfl
  | clearPrefillAdmits pq =>
    exact decodeOf_modifyPartition_of_get? _ p pq
      fun state => congrArg (SlotList.get? · r) state.decodes_clearPrefillAdmits
  | _ => simp [StoreOp.apply, decodeOf, completePrefillChunk, hold]

theorem view_apply_of_ne {op : StoreOp n} (h : op.subject ≠ some r) (hdrain : op ≠ .drainReady) :
    (op.apply store).ledger.viewOf r = store.ledger.viewOf r := by
  cases op with
  | drainReady => exact absurd rfl hdrain
  | reserve q pq f =>
    rw [StoreOp.apply, ledger_reserve, RequestLedger.view_promise,
      if_neg fun hr => h (congrArg some hr.symm)]
  | reservePrefillContext q pq resolved f =>
    rw [StoreOp.apply, view_reservePrefillContext, if_neg fun hr => h (congrArg some hr.symm)]
  | reserveChunkedPrefillContext q pq resolved f =>
    rw [StoreOp.apply, view_reserveChunkedPrefillContext,
      if_neg fun hr => h (congrArg some hr.symm)]
  | schedulePrefillChunk q pq chunk =>
    simp only [StoreOp.apply, schedulePrefillChunk, ledger_modifyPartition, ledger_modifyLedger,
      RequestLedger.schedulePrefillChunk, RequestLedger.view_updatePrefillContext]
    exact if_neg fun hr => h (congrArg some hr.symm)
  | completePrefillChunk q =>
    simp only [StoreOp.apply, completePrefillChunk, ledger_modifyLedger,
      RequestLedger.completePrefillChunk, RequestLedger.view_updatePrefillContext]
    exact if_neg fun hr => h (congrArg some hr.symm)
  | finishChunkedPrefill q pq remaining =>
    simp only [StoreOp.apply, finishChunkedPrefill]
    split
    · rfl
    · rw [view_commitResident, if_neg fun hr => h (congrArg some hr.symm), ledger_modifyLedger,
        RequestLedger.view_forgetChunkedPrefill, if_neg fun hr => h (congrArg some hr.symm)]
  | commitResident q pq context remaining =>
    rw [StoreOp.apply, view_commitResident, if_neg fun hr => h (congrArg some hr.symm)]
  | hold pq q kvTokens =>
    simp only [StoreOp.apply, hold, ledger_modifyLedger, RequestLedger.view_hold]
    exact if_neg fun hr => h (congrArg some hr.symm)
  | release q pq =>
    simp only [StoreOp.apply, release, ledger_modifyPartition, ledger_modifyLedger,
      view_forgetRequest]
    exact if_neg fun hr => h (congrArg some hr.symm)
  | releaseRetainingPrefix q pq =>
    simp only [StoreOp.apply, ledger_releaseRetainingPrefix, release, ledger_modifyPartition,
      ledger_modifyLedger, view_forgetRequest]
    exact if_neg fun hr => h (congrArg some hr.symm)
  | releaseExternal q =>
    have hne : r ≠ q := fun hr => h (congrArg some hr.symm)
    simp only [StoreOp.apply, releaseExternal]
    split
    · simp only [ledger_modifyLedger, RequestLedger.view_takePrefillContext,
        RequestLedger.view_forgetChunkedPrefill, RequestLedger.view_takeHeld, hne, if_false]
    · simp only [ledger_modifyPartition, ledger_modifyLedger,
        RequestLedger.view_takePrefillContext, RequestLedger.view_forgetChunkedPrefill,
        RequestLedger.view_forgetPromise, RequestLedger.view_forgetPlacement, hne, if_false]
  | completeHandoff q =>
    have hne : r ≠ q := fun hr => h (congrArg some hr.symm)
    simp only [StoreOp.apply]
    cases hl : store.ledger.held.lookup q with
    | none => rw [completeHandoff_of_notMem store hl]
    | some entry =>
      rw [ledger_completeHandoff store hl, RequestLedger.view_takePrefillContext,
        RequestLedger.view_takeHeld, if_neg hne, if_neg hne]
  | _ => simp [StoreOp.apply, clearPrefillAdmits]

end frame

end KvCacheStore

/-! ## Promised units -/

namespace RequestLedger

variable {n : Nat} (ledger : RequestLedger n) (r : RequestId) (p : Fin n)

theorem partitionPromised_eq : ledger.partitionPromised p =
    total (promiseUnits p) ledger.promised + total (chunkedUnits p) ledger.chunkedPrefill :=
  congrArg Prod.fst (ledger.reserved_eq p)

theorem partitionPromised_forgetPromise :
    (ledger.forgetPromise r).partitionPromised p + weightAt (promiseUnits p) r ledger.promised =
      ledger.partitionPromised p := by
  have h := total_erase (promiseUnits p) r ledger.promised
  rw [partitionPromised_eq, partitionPromised_eq, ← h]
  exact Nat.add_right_comm _ _ _

theorem partitionPromised_forgetChunkedPrefill :
    (ledger.forgetChunkedPrefill r).partitionPromised p +
      weightAt (chunkedUnits p) r ledger.chunkedPrefill = ledger.partitionPromised p := by
  have h := total_erase (chunkedUnits p) r ledger.chunkedPrefill
  rw [partitionPromised_eq, partitionPromised_eq, ← h]
  exact Nat.add_assoc _ _ _

theorem partitionPromised_drainPromised_le :
    ledger.drainPromised.1.partitionPromised p ≤ ledger.partitionPromised p := by
  rw [partitionPromised_eq, partitionPromised_eq]
  exact Nat.add_le_add_right (Nat.zero_le _) _

@[simp] theorem partitionPromised_updatePrefillContext
    (f : ResolvedPrefillContext → ResolvedPrefillContext) :
    (ledger.updatePrefillContext r f).partitionPromised p = ledger.partitionPromised p := by
  unfold updatePrefillContext
  split <;> rfl

end RequestLedger

namespace KvCacheStore

variable {acc : KvAccounting} {n : Nat} (store : KvCacheStore acc n)

theorem partitionPromised_forgetRequest_le (ledger : RequestLedger n) (r : RequestId) (p : Fin n) :
    (forgetRequest ledger r).partitionPromised p ≤ ledger.partitionPromised p := by
  have hc := ((ledger.takeHeld r).1.forgetPromise r).partitionPromised_forgetChunkedPrefill r p
  have hp := (ledger.takeHeld r).1.partitionPromised_forgetPromise r p
  exact (Nat.le.intro hc).trans (Nat.le.intro hp)

/-! ## Operations that only give units back -/

/-- Every promised and held total is no higher, every decode list a sublist. -/
structure Shrinks (store store' : KvCacheStore acc n) : Prop where
  promised : ∀ p, store'.ledger.partitionPromised p ≤ store.ledger.partitionPromised p
  held : ∀ p, store'.ledger.partitionHeld p ≤ store.ledger.partitionHeld p
  states : ∀ p, (store'.statesOf p).Sublist (store.statesOf p)

theorem Shrinks.of_eq {store store' : KvCacheStore acc n} (hledger : store'.ledger = store.ledger)
    (hpartitions : store'.partitions = store.partitions) : Shrinks store store' where
  promised := fun p => by rw [hledger]
  held := fun p => by rw [hledger]
  states := fun p => by rw [statesOf_congr hpartitions]

theorem statesOf_sublist_of_leave {store store' : KvCacheStore acc n} {p : Fin n}
    (h : store'.statesOf p = store.statesOf p ∨
      ∃ s a t, store.statesOf p = s ++ a :: t ∧ store'.statesOf p = s ++ t) :
    (store'.statesOf p).Sublist (store.statesOf p) := by
  rcases h with h | ⟨s, a, t, hs, hs'⟩
  · rw [h]
  · rw [hs, hs']
    exact (List.Sublist.refl s).append (List.sublist_cons_self a t)

theorem shrinks_release (r : RequestId) (pq : Fin n) : Shrinks store (store.release r pq) where
  promised := partitionPromised_forgetRequest_le store.ledger r
  held := fun p => partitionHeld_takeHeld_le p _ r
  states := fun p => statesOf_sublist_of_leave
    ((store.modifyLedger fun ledger => forgetRequest ledger r).statesOf_modifyPartition_leave p
      fun _ => rfl)

theorem shrinks_apply {op : StoreOp n} (h : op.Quiet) : Shrinks store (op.apply store) := by
  -- reservations, commits, steps and holds are not quiet; the last case closes them
  cases op with
  | schedulePrefillChunk q pq chunk =>
    refine ⟨fun p => ?_, fun p => ?_, fun p => ?_⟩
    · simp [StoreOp.apply, schedulePrefillChunk, RequestLedger.schedulePrefillChunk]
    · simp [StoreOp.apply, schedulePrefillChunk, RequestLedger.schedulePrefillChunk]
    · have hs := (store.modifyLedger fun ledger =>
        ledger.schedulePrefillChunk q chunk).statesOf_modifyPartition_of_decodes p (q := pq)
        (fun state => state.decodes_addPrefillAdmit q)
      rw [StoreOp.apply, schedulePrefillChunk, hs]
      rfl
  | completePrefillChunk q =>
    refine ⟨fun p => ?_, fun p => ?_, fun p => .refl _⟩
    · simp [StoreOp.apply, completePrefillChunk, RequestLedger.completePrefillChunk]
    · simp [StoreOp.apply, completePrefillChunk, RequestLedger.completePrefillChunk]
  | prepareNextDecode p pageSize steps =>
    exact .of_eq (store.ledger_prepareNextDecode ..) (store.partitions_prepareNextDecode ..)
  | drainReady =>
    refine ⟨fun p => ?_, fun p => ?_, fun p => ?_⟩
    · rw [StoreOp.apply, ledger_drainReady]
      exact store.ledger.partitionPromised_drainPromised_le p
    · rw [StoreOp.apply, ledger_drainReady]
      exact Nat.le_refl _
    · rw [StoreOp.apply, statesOf_drainReady]
  | clearPrefillAdmits pq =>
    refine ⟨fun p => Nat.le_refl _, fun p => Nat.le_refl _, fun p => ?_⟩
    rw [StoreOp.apply, clearPrefillAdmits, store.statesOf_modifyPartition_of_decodes p (q := pq)
      fun state => state.decodes_clearPrefillAdmits]
  | release q pq => exact store.shrinks_release q pq
  | releaseRetainingPrefix q pq =>
    have hs := store.shrinks_release q pq
    refine ⟨fun p => ?_, fun p => ?_, fun p => ?_⟩
    · rw [StoreOp.apply, ledger_releaseRetainingPrefix]
      exact hs.promised p
    · rw [StoreOp.apply, ledger_releaseRetainingPrefix]
      exact hs.held p
    · rw [StoreOp.apply, statesOf_congr (store.partitions_releaseRetainingPrefix q pq)]
      exact hs.states p
  | releaseExternal q =>
    simp only [StoreOp.apply, releaseExternal]
    split
    · refine ⟨fun p => ?_, fun p => partitionHeld_takeHeld_le p _ q, fun p => .refl _⟩
      exact Nat.le.intro ((store.ledger.takeHeld q).1.partitionPromised_forgetChunkedPrefill q p)
    · refine ⟨fun p => ?_, fun p => Nat.le_refl _, fun p => ?_⟩
      · have hc := (store.ledger.forgetPlacement q |>.forgetPromise
          q).partitionPromised_forgetChunkedPrefill q p
        have hp := (store.ledger.forgetPlacement q).partitionPromised_forgetPromise q p
        exact (Nat.le.intro hc).trans (Nat.le.intro hp)
      · exact statesOf_sublist_of_leave ((store.modifyLedger _).statesOf_modifyPartition_leave p
          fun state => (state.releaseDecode q).decodes_removePrefillAdmit q)
  | completeHandoff q =>
    rw [StoreOp.apply]
    cases hl : store.ledger.held.lookup q with
    | none =>
      rw [completeHandoff_of_notMem store hl]
      exact .of_eq rfl rfl
    | some entry =>
      refine ⟨fun p => ?_, fun p => ?_, fun p => ?_⟩
      · rw [ledger_completeHandoff store hl]
        exact Nat.le_refl _
      · rw [ledger_completeHandoff store hl]
        exact partitionHeld_takeHeld_le p _ q
      · rw [statesOf_congr (store.partitions_completeHandoff q)]
  | _ => cases h

end KvCacheStore

end ServingSim
