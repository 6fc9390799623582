import ServingSim.Kv.OpEffects

/-
  What one decode step takes.

  The step advances each decode at most once, by at most its width, in one piece
  or bucket by bucket (`Advanced`), and touches nothing else.
-/

namespace ServingSim

open KeyedTotal

variable {acc : KvAccounting} {n : Nat}

namespace KvCacheStore

theorem Shrinks.protected_le {store store' : KvCacheStore acc n} (hs : Shrinks store store')
    (p : Fin n) : store'.protectedUnits p ≤ store.protectedUnits p := by
  have hstates : ((store'.statesOf p).map fun state => state.charge).sum ≤
      ((store.statesOf p).map fun state => state.charge).sum :=
    ((hs.states p).map _).sum_le_sum fun _ _ => Nat.zero_le _
  have hpromised := hs.promised p
  have hheld := hs.held p
  rw [protectedUnits, protectedUnits, ResidentPartitionState.residentUnits_eq_states,
    ResidentPartitionState.residentUnits_eq_states]
  simp only [statesOf] at hstates
  omega

/-! ## The step -/

/-- `store` is `start` after every decode of `p` grew by its own number of
tokens; nothing else changed. -/
structure Advanced (start store : KvCacheStore acc n) (p : Fin n) (tokens : RequestId → Nat) :
    Prop where
  slots : (store.partitions p).decodes.slots =
    (start.partitions p).decodes.slots.map fun e => (e.1, e.2.advanceBy (tokens e.1))
  other : ∀ q, q ≠ p → store.partitions q = start.partitions q
  admits : (store.partitions p).prefillAdmits = (start.partitions p).prefillAdmits
  ledger : store.ledger = start.ledger
  prefixCaches : store.prefixCaches = start.prefixCaches

section advanced

variable {start store : KvCacheStore acc n} {p : Fin n} {tokens : RequestId → Nat}

theorem advanced_refl (start : KvCacheStore acc n) (p : Fin n) :
    Advanced start start p fun _ => 0 where
  slots := (List.map_id _).symm
  other := fun _ _ => rfl
  admits := rfl
  ledger := rfl
  prefixCaches := rfl

theorem advance_other (store : KvCacheStore acc n) {scope : AdvanceScope n} (steps : Nat)
    {q : Fin n} (h : q ≠ scope.partition) :
    (store.advance scope steps).partitions q = store.partitions q :=
  advance_induction (P := fun s => s.partitions q = store.partitions q)
    (fun s hs => by
      rw [← hs]
      cases scope with
      | wholePartition p => rw [advanceOnce, modifyPartition_of_ne (p := p) _ _ h]
      | requestSubset p requests => rw [advanceOnce, modifyPartition_of_ne (p := p) _ _ h])
    rfl steps

theorem admits_advance_eq (store : KvCacheStore acc n) (scope : AdvanceScope n) (steps : Nat)
    (q : Fin n) :
    ((store.advance scope steps).partitions q).prefillAdmits = (store.partitions q).prefillAdmits :=
  advance_induction
    (P := fun s => (s.partitions q).prefillAdmits = (store.partitions q).prefillAdmits)
    (fun s hs => by
      rw [← hs]
      cases scope with
      | wholePartition p =>
        by_cases h : q = p
        · subst h
          rw [advanceOnce, modifyPartition_self]
          rfl
        · rw [advanceOnce, modifyPartition_of_ne _ _ h]
      | requestSubset p requests =>
        by_cases h : q = p
        · subst h
          rw [advanceOnce, modifyPartition_self, ResidentPartitionState.prefillAdmits_advanceSubset]
        · rw [advanceOnce, modifyPartition_of_ne _ _ h]) rfl steps

theorem Advanced.advance (h : Advanced start store p tokens) {scope : AdvanceScope n}
    (hscope : scope.Simple) (hp : scope.partition = p) (steps : Nat) :
    Advanced start (store.advance scope steps) p
      fun r => tokens r + if scope.Covers p r then steps else 0 where
  slots := by
    rw [slots_advance store hscope, h.slots, List.map_map]
    refine List.map_congr_left fun e _ => ?_
    by_cases he : scope.Covers p e.1
    · simp [he, ResidentDecodeState.advanceBy_add]
    · simp [he]
  other := fun q hq => (store.advance_other steps (hp ▸ hq)).trans (h.other q hq)
  admits := (store.admits_advance_eq scope steps p).trans h.admits
  ledger := (store.ledger_advance scope steps).trans h.ledger
  prefixCaches := (store.prefixCaches_advance scope steps).trans h.prefixCaches

theorem Advanced.decodeOf (h : Advanced start store p tokens) (r : RequestId) :
    store.decodeOf p r = (start.decodeOf p r).map fun state => state.advanceBy (tokens r) :=
  SlotList.get?_of_slots_map
    (f := fun r (state : ResidentDecodeState acc) => state.advanceBy (tokens r)) h.slots r

end advanced

/-! ## Starting a decode -/

theorem residentUnits_beginDecode_le (partition : ResidentPartitionState acc) (r : RequestId)
    (context remaining promptTokens : Nat) :
    (partition.beginDecode r context remaining promptTokens).residentUnits ≤
      partition.residentUnits + acc.heldWhileRunning context 1 := by
  unfold ResidentPartitionState.beginDecode
  split
  · exact Nat.le_add_right _ _
  · exact Nat.le_refl _

theorem protected_finish_le (store : KvCacheStore acc n) {r : RequestId} {pr : Fin n}
    {context : ResolvedPrefillContext} {charge : Nat} (remaining : Nat)
    (hcontext : (store.ledger.viewOf r).context = some context)
    (hchunked : (store.ledger.viewOf r).chunked = some (pr, charge))
    (hcharge : acc.heldWhileRunning context.postPrefillContextTokens 1 ≤ charge) (p : Fin n) :
    (store.finishChunkedPrefill r pr remaining).protectedUnits p ≤ store.protectedUnits p := by
  rw [store.finishChunkedPrefill_eq r pr remaining hcontext]
  have hc := store.ledger.partitionPromised_forgetChunkedPrefill r p
  have hp := (store.ledger.forgetChunkedPrefill r).partitionPromised_forgetPromise r p
  rw [weightAt_of_lookup hchunked, chunkedUnits] at hc
  have hpromised : (((store.modifyLedger fun ledger =>
      ledger.forgetChunkedPrefill r).commitResident r pr context.postPrefillContextTokens
        remaining).ledger.partitionPromised p) + (if pr = p then charge else 0) ≤
      store.ledger.partitionPromised p := by
    rw [← hc]
    exact Nat.add_le_add_right (Nat.le.intro hp) _
  have hheld : (((store.modifyLedger fun ledger =>
      ledger.forgetChunkedPrefill r).commitResident r pr context.postPrefillContextTokens
        remaining).ledger.partitionHeld p) = store.ledger.partitionHeld p := rfl
  have hresident : ((((store.modifyLedger fun ledger =>
      ledger.forgetChunkedPrefill r).commitResident r pr context.postPrefillContextTokens
        remaining).partitions p).residentUnits) ≤
      (store.partitions p).residentUnits + if pr = p then charge else 0 := by
    by_cases h : pr = p
    · subst h
      rw [commitResident, modifyPartition_self, if_pos rfl]
      refine (residentUnits_beginDecode_le _ _ _ _ _).trans ?_
      exact Nat.add_le_add_left hcharge _
    · rw [commitResident, modifyPartition_of_ne _ _ (Ne.symm h), if_neg h]
      exact Nat.le_refl _
  rw [protectedUnits, protectedUnits, hheld]
  omega

end KvCacheStore

end ServingSim
