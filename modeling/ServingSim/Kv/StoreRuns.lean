import ServingSim.Kv.Lifecycle
import ServingSim.Lib.Run

/-
  Runs of the KV store.

  A run is a list of store operations, each issued in an order a worker can
  issue it: a reservation for a request the store does not know, a commit for
  one that is promised or in the iteration, a hold for one in the iteration, a
  release for one that is placed, a pull acknowledgement for one that is held or
  gone, and cancellation at any time. `Issuable` says so, phase by phase.

  What is proved:
    1. `ledger_conserved` — over every run the reserved and held totals and the
       resident units are the sums over the individual requests, no request is
       at once promised, held and resident, and once every request has been
       released or handed off every table is empty and every total is zero.
-/

namespace ServingSim

open KeyedTotal

inductive StoreOp (n : Nat) where
  | reserve (request : RequestId) (partition : Fin n) (footprint : KvFootprint)
  | reservePrefillContext (request : RequestId) (partition : Fin n)
      (resolvedPrefill : ResolvedPrefillContext) (footprint : KvFootprint)
  | reserveChunkedPrefillContext (request : RequestId) (partition : Fin n)
      (resolvedPrefill : ResolvedPrefillContext) (footprint : KvFootprint)
  | schedulePrefillChunk (request : RequestId) (partition : Fin n) (chunkTokens : Nat)
  | completePrefillChunk (request : RequestId)
  | finishChunkedPrefill (request : RequestId) (partition : Fin n) (remainingOutputTokens : Nat)
  | prepareNextDecode (partition : Fin n) (pageSize stepTokens : Nat)
  | drainReady
  | commitResident (request : RequestId) (partition : Fin n)
      (postPrefillContextTokens remainingOutputTokens : Nat)
  | advance (scope : AdvanceScope n) (steps : Nat)
  | clearPrefillAdmits (partition : Fin n)
  | hold (partition : Fin n) (request : RequestId) (kvTokens : Nat)
  | release (request : RequestId) (partition : Fin n)
  | releaseRetainingPrefix (request : RequestId) (partition : Fin n)
  | releaseExternal (request : RequestId)
  | completeHandoff (request : RequestId)
  deriving DecidableEq, Repr

namespace StoreOp

variable {acc : KvAccounting} {n : Nat}

/-- What an operation does to the store. -/
def apply (store : KvCacheStore acc n) : StoreOp n → KvCacheStore acc n
  | reserve r p f => store.reserve r p f
  | reservePrefillContext r p resolved f => store.reservePrefillContext r p resolved f
  | reserveChunkedPrefillContext r p resolved f => store.reserveChunkedPrefillContext r p resolved f
  | schedulePrefillChunk r p chunk => store.schedulePrefillChunk r p chunk
  | completePrefillChunk r => store.completePrefillChunk r
  | finishChunkedPrefill r p remaining => store.finishChunkedPrefill r p remaining
  | prepareNextDecode p pageSize steps => (store.prepareNextDecode p pageSize steps).1
  | drainReady => store.drainReady
  | commitResident r p context remaining => store.commitResident r p context remaining
  | advance scope steps => store.advance scope steps
  | clearPrefillAdmits p => store.clearPrefillAdmits p
  | hold p r kvTokens => store.hold p r kvTokens
  | release r p => store.release r p
  | releaseRetainingPrefix r p => store.releaseRetainingPrefix r p
  | releaseExternal r => (store.releaseExternal r).1
  | completeHandoff r => store.completeHandoff r

/-- The phase an operation moves a request to. -/
def phaseAfter (r : RequestId) (phase : Phase n) : StoreOp n → Phase n
  | reserve q p _ => if r = q then .promised p else phase
  | reservePrefillContext q p _ _ => if r = q then .promised p else phase
  | reserveChunkedPrefillContext q p _ _ => if r = q then .chunked p else phase
  | finishChunkedPrefill q p _ => if r = q then .resident p else phase
  | drainReady =>
    match phase with
    | .promised p => .drained p
    | _ => phase
  | commitResident q p _ _ => if r = q then .resident p else phase
  | hold p q _ => if r = q then .held p else phase
  | release q _ => if r = q then .absent else phase
  | releaseRetainingPrefix q _ => if r = q then .absent else phase
  | releaseExternal q => if r = q then .absent else phase
  | completeHandoff q => if r = q then .absent else phase
  | schedulePrefillChunk _ _ _ | completePrefillChunk _ | prepareNextDecode _ _ _ | advance _ _
  | clearPrefillAdmits _ => phase

/-- The orders the workers can issue operations in. -/
def Issuable (store : KvCacheStore acc n) : StoreOp n → Prop
  | reserve r _ _ | reservePrefillContext r _ _ _ | reserveChunkedPrefillContext r _ _ _ =>
    store.phaseOf r = .absent
  | schedulePrefillChunk r p _ => store.phaseOf r = .chunked p
  | completePrefillChunk r => (store.phaseOf r).chunkedOn.isSome
  | finishChunkedPrefill r p _ => store.phaseOf r = .chunked p
  | prepareNextDecode _ _ _ | drainReady | clearPrefillAdmits _ | releaseExternal _ => True
  | commitResident r p _ _ => store.phaseOf r = .promised p ∨ store.phaseOf r = .drained p
  | advance (.wholePartition _) _ => True
  | advance (.requestSubset p requests) _ =>
    ∀ r ∈ requests, store.ledger.placement.lookup r = some p
  | hold p r _ => store.phaseOf r = .drained p
  | release r p | releaseRetainingPrefix r p => (store.phaseOf r).placedOn = some p
  | completeHandoff r => (store.phaseOf r).heldOn.isSome ∨ store.phaseOf r = .absent

instance decidableIssuable (store : KvCacheStore acc n) :
    (op : StoreOp n) → Decidable (Issuable store op)
  | reserve _ _ _ | reservePrefillContext _ _ _ _ | reserveChunkedPrefillContext _ _ _ _ =>
    inferInstanceAs (Decidable (_ = _))
  | schedulePrefillChunk _ _ _ | finishChunkedPrefill _ _ _ | hold _ _ _ | release _ _
  | releaseRetainingPrefix _ _ => inferInstanceAs (Decidable (_ = _))
  | completePrefillChunk _ => inferInstanceAs (Decidable (_ = true))
  | prepareNextDecode _ _ _ | drainReady | clearPrefillAdmits _ | releaseExternal _
  | advance (.wholePartition _) _ => inferInstanceAs (Decidable True)
  | commitResident _ _ _ _ | completeHandoff _ => inferInstanceAs (Decidable (_ ∨ _))
  | advance (.requestSubset p requests) _ =>
    inferInstanceAs (Decidable (∀ r ∈ requests, store.ledger.placement.lookup r = some p))

end StoreOp

namespace KvCacheStore

variable {acc : KvAccounting} {n : Nat}

/-- Every request is in the phase the tables put it in. -/
def Tracked (store : KvCacheStore acc n) : Prop := ∀ r, store.Tracks r (store.phaseOf r)

/-! ## Residents under the operations -/

section resident

variable (store : KvCacheStore acc n) (r : RequestId) (p : Fin n)

theorem resident_advance (scope : AdvanceScope n) (steps : Nat) :
    (store.advance scope steps).Resident p r ↔ store.Resident p r := by
  refine advance_induction (P := fun s => s.Resident p r ↔ store.Resident p r) (fun s h => ?_)
    Iff.rfl steps
  rw [← h]
  cases scope with
  | wholePartition q =>
    by_cases hq : p = q
    · subst hq; simp [Resident, advanceOnce]
    · simp only [Resident, advanceOnce, modifyPartition_of_ne s _ hq]
  | requestSubset q requests =>
    by_cases hq : p = q
    · subst hq; simp [Resident, advanceOnce]
    · simp only [Resident, advanceOnce, modifyPartition_of_ne s _ hq]

theorem resident_drainReady : store.drainReady.Resident p r ↔ store.Resident p r := by
  obtain ⟨admits, h⟩ := store.partitions_drainReady p
  simp [Resident, h]

theorem resident_commitResident (q : RequestId) (pq : Fin n) (context remaining : Nat) :
    (store.commitResident q pq context remaining).Resident p r ↔
      store.Resident p r ∨ (p = pq ∧ r = q) := by
  by_cases hp : p = pq
  · subst hp
    simp [Resident, commitResident, ResidentPartitionState.mem_keys_beginDecode]
  · simp only [Resident, commitResident, modifyPartition_of_ne _ _ hp, hp, false_and, or_false,
      partitions_modifyLedger]

theorem resident_release (q : RequestId) (pq : Fin n) :
    (store.release q pq).Resident p r ↔ store.Resident p r ∧ ¬ (p = pq ∧ r = q) := by
  by_cases hp : p = pq
  · subst hp
    simp [Resident, release, ResidentPartitionState.mem_keys_releaseDecode]
  · simp only [Resident, release, modifyPartition_of_ne _ _ hp, hp, false_and, not_false_eq_true,
      and_true, partitions_modifyLedger]

end resident

/-! ## Phases under the operations -/

section tracks

variable {store store' : KvCacheStore acc n} {r q : RequestId} {p : Fin n}

theorem tracks_promised (h : store.Tracks r .absent) {charge : Nat}
    {context : Option ResolvedPrefillContext}
    (hview : store'.ledger.viewOf r =
      { store.ledger.viewOf r with
        promised := some (p, charge), placement := some p, context := context })
    (hres : ∀ p', store'.Resident p' r ↔ store.Resident p' r) :
    store'.Tracks r (.promised p) where
  promised := by rw [hview]; rfl
  chunked := by rw [hview]; exact h.chunked
  held := by rw [hview]; exact h.held
  placement := by rw [hview]; rfl
  resident := fun p' => by rw [hres, h.resident]; simp
  context_absent := fun h => by cases h
  context_chunked := fun h => by cases h

theorem tracks_chunked (h : store.Tracks r .absent) {charge : Nat}
    {context : ResolvedPrefillContext}
    (hview : store'.ledger.viewOf r =
      { store.ledger.viewOf r with
        promised := none, chunked := some (p, charge), placement := some p
        context := some context })
    (hres : ∀ p', store'.Resident p' r ↔ store.Resident p' r) :
    store'.Tracks r (.chunked p) where
  promised := by rw [hview]; rfl
  chunked := by rw [hview]; rfl
  held := by rw [hview]; exact h.held
  placement := by rw [hview]; rfl
  resident := fun p' => by rw [hres, h.resident]; simp
  context_absent := fun h => by cases h
  context_chunked := fun _ => by rw [hview]; rfl

theorem tracks_resident {phase : Phase n} (h : store.Tracks r phase)
    (hplaced : phase.placedOn = some p)
    (hpromised : (store'.ledger.viewOf r).promised = none)
    (hchunked : (store'.ledger.viewOf r).chunked = none)
    (hheld : (store'.ledger.viewOf r).held = (store.ledger.viewOf r).held)
    (hplacement : (store'.ledger.viewOf r).placement = (store.ledger.viewOf r).placement)
    (hres : ∀ p', store'.Resident p' r ↔ store.Resident p' r ∨ p' = p) :
    store'.Tracks r (.resident p) where
  promised := by rw [hpromised]; rfl
  chunked := by rw [hchunked]; rfl
  held := by
    rw [hheld, h.held]
    cases phase <;> simp_all [Phase.placedOn, Phase.heldOn]
  placement := by rw [hplacement]; exact h.placement.trans hplaced
  resident := fun p' => by
    rw [hres, h.resident]
    cases phase <;> simp_all [Phase.placedOn, eq_comm]
  context_absent := fun h => by cases h
  context_chunked := fun h => by cases h

theorem tracks_drained (h : store.Tracks r (.promised p))
    (hview : store'.ledger.viewOf r = { store.ledger.viewOf r with promised := none })
    (hres : ∀ p', store'.Resident p' r ↔ store.Resident p' r) :
    store'.Tracks r (.drained p) where
  promised := by rw [hview]; rfl
  chunked := by rw [hview]; exact h.chunked
  held := by rw [hview]; exact h.held
  placement := by rw [hview]; exact h.placement
  resident := fun p' => by rw [hres, h.resident]; simp
  context_absent := fun h => by cases h
  context_chunked := fun h => by cases h

theorem tracks_held (h : store.Tracks r (.drained p)) {units kvTokens : Nat}
    (hview : store'.ledger.viewOf r =
      { store.ledger.viewOf r with held := some (p, units, kvTokens), placement := none })
    (hres : ∀ p', store'.Resident p' r ↔ store.Resident p' r) :
    store'.Tracks r (.held p) where
  promised := by rw [hview]; exact h.promised
  chunked := by rw [hview]; exact h.chunked
  held := by rw [hview]; rfl
  placement := by rw [hview]; rfl
  resident := fun p' => by rw [hres, h.resident]; simp
  context_absent := fun h => by cases h
  context_chunked := fun h => by cases h

theorem not_resident_release {phase : Phase n} (h : store.Tracks r phase)
    (hplaced : phase.placedOn = some p) (p' : Fin n) :
    ¬ (store.release r p).Resident p' r := by
  rw [resident_release, h.resident]
  rintro ⟨rfl, hne⟩
  exact hne ⟨Option.some.inj hplaced, rfl⟩

end tracks

/-! ## One operation -/

section view

variable (store : KvCacheStore acc n) (q r : RequestId) (p : Fin n)

theorem view_reservePrefillContext (resolved : ResolvedPrefillContext) (f : KvFootprint) :
    (store.reservePrefillContext q p resolved f).ledger.viewOf r =
      if r = q then
        { store.ledger.viewOf r with
          promised := some (p, f.reservedUnits)
          placement := some p
          context := some (store.takePrefix p resolved).2 }
      else store.ledger.viewOf r := by
  rw [ledger_reservePrefillContext, RequestLedger.view_promise,
    RequestLedger.view_setPrefillContext]
  split <;> rfl

theorem view_reserveChunkedPrefillContext (resolved : ResolvedPrefillContext) (f : KvFootprint) :
    (store.reserveChunkedPrefillContext q p resolved f).ledger.viewOf r =
      if r = q then
        { store.ledger.viewOf r with
          promised := none
          chunked := some (p, f.reservedUnits)
          placement := some p
          context := some (store.takePrefix p resolved).2 }
      else store.ledger.viewOf r := by
  have hview := store.view_reservePrefillContext q r p resolved f
  rw [reserveChunkedPrefillContext, ledger_modifyLedger, RequestLedger.view_promote]
  by_cases h : r = q
  · rw [if_pos h, if_pos h]
    rw [if_pos h] at hview
    have hentry : (store.reservePrefillContext q p resolved f).ledger.promisedEntry r =
        some (p, f.reservedUnits) := congrArg RequestView.promised hview
    rw [hentry, hview]
  · rw [if_neg h, if_neg h]
    rwa [if_neg h] at hview

theorem view_commitResident (context remaining : Nat) :
    (store.commitResident q p context remaining).ledger.viewOf r =
      if r = q then { store.ledger.viewOf r with promised := none } else store.ledger.viewOf r :=
  store.ledger.view_forgetPromise q r

theorem view_drainReady :
    store.drainReady.ledger.viewOf r = { store.ledger.viewOf r with promised := none } := by
  rw [ledger_drainReady, RequestLedger.view_drainPromised]

theorem finishChunkedPrefill_eq {context : ResolvedPrefillContext} (remaining : Nat)
    (h : (store.ledger.viewOf q).context = some context) :
    store.finishChunkedPrefill q p remaining =
      (store.modifyLedger fun ledger => ledger.forgetChunkedPrefill q).commitResident q p
        context.postPrefillContextTokens remaining := by
  have hc : store.ledger.prefillContext q = some context := h
  simp only [finishChunkedPrefill, hc]

end view

section apply

variable {store : KvCacheStore acc n} {r : RequestId}

theorem Tracks.updateContext {store' : KvCacheStore acc n} {q : RequestId} {phase : Phase n}
    {f : ResolvedPrefillContext → ResolvedPrefillContext} (h : store.Tracks r phase)
    (hledger : store'.ledger = store.ledger.updatePrefillContext q f)
    (hres : ∀ p', store'.Resident p' r ↔ store.Resident p' r) : store'.Tracks r phase := by
  have hview := store.ledger.view_updatePrefillContext q r f
  rw [← hledger] at hview
  split at hview
  · refine ⟨?_, ?_, ?_, ?_, fun p => (hres p).trans (h.resident p), fun hp => ?_, fun hp => ?_⟩
    · rw [hview]; exact h.promised
    · rw [hview]; exact h.chunked
    · rw [hview]; exact h.held
    · rw [hview]; exact h.placement
    · rw [hview]
      simp only [h.context_absent hp, Option.map_none]
    · rw [hview]
      simpa using h.context_chunked hp
  · exact h.congr hview hres

theorem tracks_releaseLike {store' : KvCacheStore acc n} {q : RequestId} {p : Fin n}
    (ht : store.Tracks r (store.phaseOf r))
    (hledger : store'.ledger = (store.release q p).ledger)
    (hpart : store'.partitions = (store.release q p).partitions)
    (hop : (store.phaseOf q).placedOn = some p) :
    store'.Tracks r (if r = q then .absent else store.phaseOf r) := by
  have hres : ∀ p', store'.Resident p' r ↔ (store.release q p).Resident p' r := fun p' => by
    simp only [Resident, hpart]
  have hview : store'.ledger.viewOf r = if r = q then .blank else store.ledger.viewOf r := by
    rw [hledger]
    exact view_forgetRequest _ _ _
  by_cases h : r = q
  · subst h
    rw [if_pos rfl] at hview ⊢
    exact tracks_absent hview fun p' hp' =>
      not_resident_release ht hop p' ((hres p').mp hp')
  · rw [if_neg h] at hview ⊢
    refine ht.congr hview fun p' => ?_
    rw [hres, resident_release]
    simp [h]

theorem tracks_dropped {store' : KvCacheStore acc n} {q : RequestId}
    (ht : store.Tracks r (store.phaseOf r))
    (hblank : store'.ledger.viewOf q = .blank) (hgone : ∀ p', ¬ store'.Resident p' q)
    (hview : r ≠ q → store'.ledger.viewOf r = store.ledger.viewOf r)
    (hres : r ≠ q → ∀ p', store'.Resident p' r ↔ store.Resident p' r) :
    store'.Tracks r (if r = q then .absent else store.phaseOf r) := by
  by_cases h : r = q
  · subst h
    rw [if_pos rfl]
    exact tracks_absent hblank hgone
  · rw [if_neg h]
    exact ht.congr (hview h) (hres h)

theorem tracks_releaseExternal {q : RequestId} (ht : store.Tracks r (store.phaseOf r))
    (hq : store.Tracks q (store.phaseOf q)) :
    (store.releaseExternal q).1.Tracks r (if r = q then .absent else store.phaseOf r) := by
  have hplacement := hq.placement
  simp only [RequestLedger.viewOf] at hplacement
  -- without a placement only what was held back is left to give up
  cases hpl : store.ledger.placement.lookup q with
  | none =>
    have hview : ∀ r', (store.releaseExternal q).1.ledger.viewOf r' =
        if r' = q then
          { store.ledger.viewOf r' with held := none, chunked := none, context := none }
        else store.ledger.viewOf r' := by
      intro r'
      simp only [releaseExternal, hpl, ledger_modifyLedger, RequestLedger.view_takePrefillContext,
        RequestLedger.view_forgetChunkedPrefill, RequestLedger.view_takeHeld]
      split <;> rfl
    have hres : ∀ p' r', (store.releaseExternal q).1.Resident p' r' ↔ store.Resident p' r' := by
      intro p' r'
      simp only [releaseExternal, hpl, Resident, partitions_modifyLedger]
    rw [hpl] at hplacement
    refine tracks_dropped ht ?_ (fun p' hp' => ?_) (fun hr => ?_) (fun _ p' => hres p' r)
    · have hpromised := hq.promised
      rw [hview, if_pos rfl]
      cases hphase : store.phaseOf q <;> simp_all [Phase.placedOn, Phase.promisedOn,
        RequestView.blank, RequestLedger.viewOf]
    · have hr := (hq.resident p').mp ((hres p' q).mp hp')
      rw [hr] at hplacement
      cases hplacement
    · rw [hview, if_neg hr]
  | some p =>
    have hview : ∀ r', (store.releaseExternal q).1.ledger.viewOf r' =
        if r' = q then
          { store.ledger.viewOf r' with
            placement := none, promised := none, chunked := none, context := none }
        else store.ledger.viewOf r' := by
      intro r'
      simp only [releaseExternal, hpl, ledger_modifyLedger, ledger_modifyPartition,
        RequestLedger.view_takePrefillContext, RequestLedger.view_forgetChunkedPrefill,
        RequestLedger.view_forgetPromise, RequestLedger.view_forgetPlacement]
      split <;> rfl
    have hres : ∀ p' r', (store.releaseExternal q).1.Resident p' r' ↔
        store.Resident p' r' ∧ ¬ (p' = p ∧ r' = q) := by
      intro p' r'
      rw [← resident_release]
      simp only [releaseExternal, hpl, release, Resident]
      by_cases hp : p' = p
      · subst hp; simp
      · simp [modifyPartition_of_ne _ _ hp]
    rw [hpl] at hplacement
    refine tracks_dropped ht ?_ (fun p' hp' => ?_) (fun hr => ?_) (fun hr p' => ?_)
    · have hheld := hq.held
      rw [hview, if_pos rfl]
      cases hphase : store.phaseOf q <;> simp_all [Phase.placedOn, Phase.heldOn,
        RequestView.blank, RequestLedger.viewOf]
    · obtain ⟨hp', hne⟩ := (hres p' q).mp hp'
      have hphase := (hq.resident p').mp hp'
      rw [hphase] at hplacement
      exact hne ⟨(Option.some.inj hplacement).symm, rfl⟩
    · rw [hview, if_neg hr]
    · rw [hres]
      simp [hr]

theorem tracks_completeHandoff {q : RequestId} (ht : store.Tracks r (store.phaseOf r))
    (hq : store.Tracks q (store.phaseOf q))
    (hop : (store.phaseOf q).heldOn.isSome ∨ store.phaseOf q = .absent) :
    (store.completeHandoff q).Tracks r (if r = q then .absent else store.phaseOf r) := by
  have hres : ∀ p' r', (store.completeHandoff q).Resident p' r' ↔ store.Resident p' r' :=
    fun p' r' => by simp [Resident]
  have hheld := hq.held
  simp only [RequestLedger.viewOf] at hheld
  cases hl : store.ledger.held.lookup q with
  | none =>
    rw [hl] at hheld
    have habsent : store.phaseOf q = .absent := by
      rcases hop with hop | hop
      · rw [← hheld] at hop
        cases hop
      · exact hop
    rw [completeHandoff_of_notMem store hl]
    by_cases hr : r = q
    · subst hr
      rw [if_pos rfl, ← habsent]
      exact ht
    · rwa [if_neg hr]
  | some entry =>
    have hview : ∀ r', (store.completeHandoff q).ledger.viewOf r' =
        if r' = q then { store.ledger.viewOf r' with held := none, context := none }
        else store.ledger.viewOf r' := by
      intro r'
      simp only [ledger_completeHandoff store hl, RequestLedger.view_takePrefillContext,
        RequestLedger.view_takeHeld]
      split <;> rfl
    rw [hl] at hheld
    refine tracks_dropped ht ?_ (fun p' hp' => ?_) (fun hr => ?_) (fun _ p' => hres p' r)
    · have hpromised := hq.promised
      have hchunked := hq.chunked
      have hplacement := hq.placement
      rw [hview, if_pos rfl]
      cases hphase : store.phaseOf q <;> simp_all [Phase.placedOn, Phase.promisedOn,
        Phase.chunkedOn, Phase.heldOn, RequestView.blank, RequestLedger.viewOf]
    · have hr := (hq.resident p').mp ((hres p' q).mp hp')
      rw [hr] at hheld
      cases hheld
    · rw [hview, if_neg hr]

theorem tracks_apply (h : store.Tracked) {op : StoreOp n} (hop : op.Issuable store) :
    (op.apply store).Tracks r (op.phaseAfter r (store.phaseOf r)) := by
  have ht := h r
  -- the request an operation names changes phase; every other keeps its view and its place
  cases op with
  | reserve q p f =>
    have hview := store.ledger.view_promise q r p f.reservedUnits
    simp only [StoreOp.phaseAfter, StoreOp.apply]
    split
    · rename_i hr
      subst hr
      rw [hop] at ht
      rw [if_pos rfl] at hview
      exact tracks_promised ht (by rw [ledger_reserve]; exact hview) fun p' => by
        simp [Resident]
    · rename_i hr
      rw [if_neg hr] at hview
      exact ht.congr (by rw [ledger_reserve]; exact hview) fun p' => by simp [Resident]
  | reservePrefillContext q p resolved f =>
    have hview := store.view_reservePrefillContext q r p resolved f
    simp only [StoreOp.phaseAfter, StoreOp.apply]
    split
    · rename_i hr
      subst hr
      rw [hop] at ht
      rw [if_pos rfl] at hview
      exact tracks_promised ht hview fun p' => by simp [Resident]
    · rename_i hr
      rw [if_neg hr] at hview
      exact ht.congr hview fun p' => by simp [Resident]
  | reserveChunkedPrefillContext q p resolved f =>
    have hview := store.view_reserveChunkedPrefillContext q r p resolved f
    simp only [StoreOp.phaseAfter, StoreOp.apply]
    split
    · rename_i hr
      subst hr
      rw [hop] at ht
      rw [if_pos rfl] at hview
      exact tracks_chunked ht hview fun p' => by simp [Resident]
    · rename_i hr
      rw [if_neg hr] at hview
      exact ht.congr hview fun p' => by simp [Resident]
  | schedulePrefillChunk q p chunk =>
    exact ht.updateContext rfl fun p' => by
      by_cases hp : p' = p
      · subst hp; simp [Resident, StoreOp.apply, schedulePrefillChunk]
      · simp [Resident, StoreOp.apply, schedulePrefillChunk, modifyPartition_of_ne _ _ hp]
  | completePrefillChunk q => exact ht.updateContext rfl fun p' => Iff.rfl
  | finishChunkedPrefill q p remaining =>
    have hq := h q
    rw [hop] at hq
    obtain ⟨context, hc⟩ := Option.isSome_iff_exists.mp (hq.context_chunked rfl)
    have hview := view_commitResident
      (store.modifyLedger fun ledger => ledger.forgetChunkedPrefill q) q r p
      context.postPrefillContextTokens remaining
    rw [ledger_modifyLedger, RequestLedger.view_forgetChunkedPrefill] at hview
    have hres := fun p' => resident_commitResident
      (store.modifyLedger fun ledger => ledger.forgetChunkedPrefill q) r p' q p
      context.postPrefillContextTokens remaining
    simp only [StoreOp.phaseAfter, StoreOp.apply]
    rw [store.finishChunkedPrefill_eq q p remaining hc]
    split
    · rename_i hr
      subst hr
      rw [if_pos rfl, if_pos rfl] at hview
      refine tracks_resident hq rfl ?_ ?_ ?_ ?_ fun p' => (hres p').trans (by simp [Resident])
      all_goals rw [hview]
    · rename_i hr
      rw [if_neg hr, if_neg hr] at hview
      exact ht.congr hview fun p' => (hres p').trans (by simp [Resident, hr])
  | prepareNextDecode p pageSize steps =>
    exact ht.congr (by simp [StoreOp.apply]) fun p' => by simp [Resident, StoreOp.apply]
  | drainReady =>
    have hview := store.view_drainReady r
    have hres := fun p' => store.resident_drainReady r p'
    simp only [StoreOp.phaseAfter, StoreOp.apply]
    split
    · rename_i p hp
      rw [hp] at ht
      exact tracks_drained ht hview hres
    · rename_i hp
      refine ht.congr ?_ hres
      have hnone : (store.ledger.viewOf r).promised = none := by
        rw [← Option.map_eq_none_iff (f := Prod.fst), ht.promised]
        cases hphase : store.phaseOf r <;> simp_all [Phase.promisedOn]
      rw [hview, ← hnone]
  | commitResident q p context remaining =>
    have hview := store.view_commitResident q r p context remaining
    have hres := fun p' => store.resident_commitResident r p' q p context remaining
    simp only [StoreOp.phaseAfter, StoreOp.apply]
    split
    · rename_i hr
      subst hr
      rw [if_pos rfl] at hview
      -- whichever state it came from, a committed request has no pending entry left
      have hplaced : (store.phaseOf r).placedOn = some p := by
        rcases hop with hop | hop <;> rw [hop] <;> rfl
      have hchunked : (store.ledger.viewOf r).chunked = none := by
        rw [← Option.map_eq_none_iff (f := Prod.fst), ht.chunked]
        rcases hop with hop | hop <;> rw [hop] <;> rfl
      refine tracks_resident ht hplaced ?_ ?_ ?_ ?_ fun p' => (hres p').trans (by simp)
      all_goals rw [hview]
      exact hchunked
    · rename_i hr
      rw [if_neg hr] at hview
      exact ht.congr hview fun p' => (hres p').trans (by simp [hr])
  | advance scope steps =>
    exact ht.congr (by simp [StoreOp.apply]) fun p' => store.resident_advance r p' scope steps
  | clearPrefillAdmits p =>
    refine ht.congr rfl fun p' => ?_
    by_cases hp : p' = p
    · subst hp; simp [Resident, StoreOp.apply, clearPrefillAdmits]
    · simp [Resident, StoreOp.apply, clearPrefillAdmits, modifyPartition_of_ne _ _ hp]
  | hold p q kvTokens =>
    have hview := store.ledger.view_hold q r p (acc.heldWhileRunning kvTokens 1) kvTokens
    simp only [StoreOp.phaseAfter, StoreOp.apply]
    split
    · rename_i hr
      subst hr
      rw [hop] at ht
      rw [if_pos rfl] at hview
      exact tracks_held ht hview fun p' => Iff.rfl
    · rename_i hr
      rw [if_neg hr] at hview
      exact ht.congr hview fun p' => Iff.rfl
  | release q p => exact tracks_releaseLike ht rfl rfl hop
  | releaseRetainingPrefix q p =>
    exact tracks_releaseLike ht (store.ledger_releaseRetainingPrefix q p)
      (store.partitions_releaseRetainingPrefix q p) hop
  | releaseExternal q => exact tracks_releaseExternal ht (h q)
  | completeHandoff q => exact tracks_completeHandoff ht (h q) hop

theorem phaseOf_apply (h : store.Tracked) {op : StoreOp n} (hop : op.Issuable store) :
    (op.apply store).phaseOf r = op.phaseAfter r (store.phaseOf r) :=
  (tracks_apply h hop).phaseOf_eq

theorem tracked_apply (h : store.Tracked) {op : StoreOp n} (hop : op.Issuable store) :
    (op.apply store).Tracked := by
  intro r
  have ht := tracks_apply (r := r) h hop
  rwa [← ht.phaseOf_eq] at ht

theorem issuable_completePrefillChunk {p : Fin n} (h : store.phaseOf r = .chunked p) :
    StoreOp.Issuable store (.completePrefillChunk r) := by
  rw [StoreOp.Issuable, h]
  rfl

theorem issuable_releaseRetainingPrefix {p : Fin n} (h : store.phaseOf r = .resident p) :
    StoreOp.Issuable store (.releaseRetainingPrefix r p) := by
  rw [StoreOp.Issuable, h]
  rfl

theorem phaseOf_releaseRetainingPrefix {p : Fin n} (ht : store.Tracked)
    (h : store.phaseOf r = .resident p) :
    (StoreOp.apply store (.releaseRetainingPrefix r p)).phaseOf r = .absent :=
  (phaseOf_apply ht (issuable_releaseRetainingPrefix h)).trans (if_pos rfl)

theorem tracked_new (budget : PrefixCacheBudget) : (new acc n budget).Tracked := by
  intro r
  have ht : (new acc n budget).Tracks r .absent :=
    tracks_absent rfl fun p h => by simp [Resident, new, ResidentPartitionState.new] at h
  rwa [← ht.phaseOf_eq] at ht

end apply

/-! ## Whole runs -/

/-- The store after a list of operations. -/
def runOps (store : KvCacheStore acc n) (ops : List (StoreOp n)) : KvCacheStore acc n :=
  Run.run StoreOp.apply store ops

/-- Every operation was issued in an order the workers can issue it. -/
def AllowedOps (store : KvCacheStore acc n) (ops : List (StoreOp n)) : Prop :=
  Run.Allowed StoreOp.apply StoreOp.Issuable store ops

instance (store : KvCacheStore acc n) (ops : List (StoreOp n)) : Decidable (store.AllowedOps ops) :=
  inferInstanceAs (Decidable (Run.Allowed _ _ _ _))

theorem tracked_run {budget : PrefixCacheBudget} {ops : List (StoreOp n)}
    (h : (new acc n budget).AllowedOps ops) : ((new acc n budget).runOps ops).Tracked :=
  Run.invariant Tracked (fun _ _ ht hop => tracked_apply ht hop) (tracked_new budget) h

end KvCacheStore

namespace StoreOp

variable {n : Nat}

/-- The requests reserved and neither released nor handed off yet. -/
def outstandingAfter (live : List RequestId) : StoreOp n → List RequestId
  | reserve r _ _ | reservePrefillContext r _ _ _ | reserveChunkedPrefillContext r _ _ _ =>
    r :: live
  | release r _ | releaseRetainingPrefix r _ | releaseExternal r | completeHandoff r =>
    live.filter (· ≠ r)
  | _ => live

def outstanding (ops : List (StoreOp n)) : List RequestId := ops.foldl outstandingAfter []

theorem mem_outstandingAfter {acc : KvAccounting} {store : KvCacheStore acc n}
    {live : List RequestId} {op : StoreOp n} {r : RequestId} (hop : op.Issuable store)
    (hlive : store.phaseOf r ≠ .absent → r ∈ live)
    (hafter : op.phaseAfter r (store.phaseOf r) ≠ .absent) : r ∈ op.outstandingAfter live := by
  cases op with
  | reserve q _ _ | reservePrefillContext q _ _ _ | reserveChunkedPrefillContext q _ _ _ =>
    simp only [phaseAfter, outstandingAfter, List.mem_cons] at hafter ⊢
    split at hafter
    · exact .inl ‹_›
    · exact .inr (hlive hafter)
  | release q _ | releaseRetainingPrefix q _ | releaseExternal q | completeHandoff q =>
    simp only [phaseAfter, outstandingAfter] at hafter ⊢
    split at hafter
    · exact absurd rfl hafter
    · exact List.mem_filter.mpr ⟨hlive hafter, by simpa⟩
  | finishChunkedPrefill q p _ | hold p q _ =>
    refine hlive fun habsent => ?_
    simp only [phaseAfter, Issuable] at hafter hop
    split at hafter
    · rename_i hr
      rw [← hr, habsent] at hop
      cases hop
    · exact hafter habsent
  | commitResident q p _ _ =>
    refine hlive fun habsent => ?_
    simp only [phaseAfter, Issuable] at hafter hop
    split at hafter
    · rename_i hr
      rw [← hr, habsent] at hop
      rcases hop with hop | hop <;> cases hop
    · exact hafter habsent
  | drainReady =>
    refine hlive fun habsent => ?_
    simp only [phaseAfter, habsent] at hafter
    exact hafter rfl
  | _ => exact hlive hafter

/-- Whether a prefill may still be listed on a partition: one was listed and the
iteration has not been cleared since. -/
def admitsOpenAfter (p : Fin n) (isOpen : Bool) : StoreOp n → Bool
  | drainReady => true
  | schedulePrefillChunk _ q _ => isOpen || q = p
  | clearPrefillAdmits q => isOpen && q ≠ p
  | _ => isOpen

def admitsOpen (p : Fin n) (ops : List (StoreOp n)) : Bool :=
  ops.foldl (admitsOpenAfter p) false

end StoreOp

namespace KvCacheStore

variable {acc : KvAccounting} {n : Nat}

theorem outstanding_of_phase {budget : PrefixCacheBudget} {ops : List (StoreOp n)}
    (h : (new acc n budget).AllowedOps ops) (r : RequestId)
    (hr : ((new acc n budget).runOps ops).phaseOf r ≠ .absent) :
    r ∈ StoreOp.outstanding ops := by
  refine (Run.run_induction StoreOp.apply StoreOp.Issuable (P := fun ops store => store.Tracked ∧
      ∀ r, store.phaseOf r ≠ .absent → r ∈ StoreOp.outstanding ops)
    ⟨tracked_new budget, fun r hr => ?_⟩ (fun ops op hP hop => ⟨tracked_apply hP.1 hop, ?_⟩) h).2
    r hr
  · exact absurd rfl hr
  · intro r hr
    rw [phaseOf_apply hP.1 hop] at hr
    rw [StoreOp.outstanding, List.foldl_append]
    exact StoreOp.mem_outstandingAfter hop (hP.2 r) hr

/-! ## Prefills of the iteration -/

section admits

variable {store : KvCacheStore acc n} {p : Fin n}

theorem admits_modifyPartition {q : Fin n}
    {f : ResidentPartitionState acc → ResidentPartitionState acc}
    (hf : (store.partitions q).prefillAdmits = [] → (f (store.partitions q)).prefillAdmits = [])
    (h : (store.partitions p).prefillAdmits = []) :
    ((store.modifyPartition q f).partitions p).prefillAdmits = [] := by
  by_cases hp : p = q
  · subst hp
    rw [modifyPartition_self]
    exact hf h
  · rwa [modifyPartition_of_ne store f hp]

theorem admits_advance (h : (store.partitions p).prefillAdmits = []) (scope : AdvanceScope n)
    (steps : Nat) : ((store.advance scope steps).partitions p).prefillAdmits = [] := by
  refine advance_induction (P := fun s => (s.partitions p).prefillAdmits = []) (fun s hs => ?_) h
    steps
  cases scope with
  | wholePartition q => exact admits_modifyPartition id hs
  | requestSubset q requests =>
    simp only [advanceOnce]
    refine admits_modifyPartition (fun hq => ?_) hs
    rw [ResidentPartitionState.prefillAdmits_advanceSubset, hq]

theorem admits_commitResident (h : (store.partitions p).prefillAdmits = []) (r : RequestId)
    (q : Fin n) (context remaining : Nat) :
    ((store.commitResident r q context remaining).partitions p).prefillAdmits = [] :=
  admits_modifyPartition
    (fun hq => by rwa [ResidentPartitionState.prefillAdmits_beginDecode]) h

theorem admits_release (h : (store.partitions p).prefillAdmits = []) (r : RequestId) (q : Fin n) :
    ((store.release r q).partitions p).prefillAdmits = [] :=
  admits_modifyPartition
    (fun hq => by rwa [ResidentPartitionState.prefillAdmits_releaseDecode]) h

theorem admits_apply {isOpen : Bool} {op : StoreOp n}
    (h : isOpen = false → (store.partitions p).prefillAdmits = [])
    (hafter : op.admitsOpenAfter p isOpen = false) :
    ((op.apply store).partitions p).prefillAdmits = [] := by
  cases op with
  | drainReady => cases hafter
  | schedulePrefillChunk q pq chunk =>
    simp only [StoreOp.admitsOpenAfter, Bool.or_eq_false_iff, decide_eq_false_iff_not] at hafter
    simp only [StoreOp.apply, schedulePrefillChunk]
    rw [modifyPartition_of_ne _ _ (Ne.symm hafter.2)]
    exact h hafter.1
  | clearPrefillAdmits q =>
    by_cases hp : p = q
    · subst hp
      simp only [StoreOp.apply, clearPrefillAdmits, modifyPartition_self]
      rfl
    · simp only [StoreOp.admitsOpenAfter, ne_eq, Ne.symm hp, not_false_eq_true, decide_true,
        Bool.and_true] at hafter
      simp only [StoreOp.apply, clearPrefillAdmits]
      rw [modifyPartition_of_ne _ _ hp]
      exact h hafter
  | finishChunkedPrefill q pq remaining =>
    simp only [StoreOp.apply, finishChunkedPrefill]
    split
    · exact h hafter
    · refine admits_commitResident ?_ _ _ _ _
      exact h hafter
  | commitResident q pq context remaining => exact admits_commitResident (h hafter) _ _ _ _
  | advance scope steps => exact admits_advance (h hafter) scope steps
  | release q pq => exact admits_release (h hafter) q pq
  | releaseRetainingPrefix q pq =>
    simp only [StoreOp.apply, partitions_releaseRetainingPrefix]
    exact admits_release (h hafter) q pq
  | releaseExternal q =>
    simp only [StoreOp.apply, releaseExternal]
    split
    · exact h hafter
    · dsimp only
      refine admits_modifyPartition (fun hq => ?_) (h hafter)
      refine ResidentPartitionState.removePrefillAdmit_nil _ _ ?_
      rwa [ResidentPartitionState.prefillAdmits_releaseDecode]
  | _ => simpa [StoreOp.apply, completePrefillChunk, hold] using h hafter

theorem admits_run {budget : PrefixCacheBudget} {ops : List (StoreOp n)}
    (h : (new acc n budget).AllowedOps ops) (hclosed : StoreOp.admitsOpen p ops = false) :
    (((new acc n budget).runOps ops).partitions p).prefillAdmits = [] := by
  refine Run.run_induction StoreOp.apply StoreOp.Issuable (P := fun ops store =>
    StoreOp.admitsOpen p ops = false → (store.partitions p).prefillAdmits = [])
    (fun _ => rfl) (fun ops op hP _ hafter => admits_apply hP ?_) h hclosed
  rwa [StoreOp.admitsOpen, List.foldl_append] at hafter

end admits

/-! ## Conservation -/

/-- The running totals of a store are the sums over the individual requests, and
no request is charged in two places. -/
structure Conserved (store : KvCacheStore acc n) : Prop where
  promised_total : ∀ p, store.ledger.partitionPromised p =
    total (promiseUnits p) store.ledger.promised +
      total (chunkedUnits p) store.ledger.chunkedPrefill
  promised_count : ∀ p, store.ledger.partitionPromisedCount p =
    total (promiseCount p) store.ledger.promised +
      total (chunkedCount p) store.ledger.chunkedPrefill
  held_total : ∀ p, store.ledger.partitionHeld p = total (heldUnits p) store.ledger.held
  resident_total : ∀ p, (store.partitions p).residentUnits =
    (store.partitions p).decodes.sum fun state => state.charge
  promised_not_held : ∀ r, store.ledger.hasPromise r → r ∉ store.ledger.held
  promised_not_resident : ∀ r, store.ledger.hasPromise r → ∀ p, ¬ store.Resident p r
  held_not_resident : ∀ r ∈ store.ledger.held, ∀ p, ¬ store.Resident p r
  promised_once : ∀ r, ¬ (r ∈ store.ledger.promised ∧ r ∈ store.ledger.chunkedPrefill)
  resident_once : ∀ r p q, store.Resident p r → store.Resident q r → p = q

/-- Nothing is left of any request. -/
structure Cleared (store : KvCacheStore acc n) : Prop where
  promised : store.ledger.promised = ∅
  chunkedPrefill : store.ledger.chunkedPrefill = ∅
  held : store.ledger.held = ∅
  placement : store.ledger.placement = ∅
  contexts : store.ledger.resolvedPrefillContexts = ∅
  decodes : ∀ p, (store.partitions p).decodes.slots = []
  decodeIndex : ∀ p, (store.partitions p).decodes.index = ∅
  promised_zero : ∀ p, store.ledger.partitionPromised p = 0
  promised_count_zero : ∀ p, store.ledger.partitionPromisedCount p = 0
  held_zero : ∀ p, store.ledger.partitionHeld p = 0
  resident_zero : ∀ p, (store.partitions p).residentUnits = 0
  checkpoint_zero : ∀ p, (store.partitions p).checkpointUnits = 0

theorem promised_total (store : KvCacheStore acc n) (p : Fin n) : store.ledger.partitionPromised p =
      total (promiseUnits p) store.ledger.promised +
        total (chunkedUnits p) store.ledger.chunkedPrefill :=
  congrArg Prod.fst (store.ledger.reserved_eq p)

theorem promised_count (store : KvCacheStore acc n) (p : Fin n) :
    store.ledger.partitionPromisedCount p = total (promiseCount p) store.ledger.promised +
        total (chunkedCount p) store.ledger.chunkedPrefill :=
  congrArg Prod.snd (store.ledger.reserved_eq p)

section tables

variable {store : KvCacheStore acc n} {r : RequestId}

section

variable {phase : Phase n} (h : store.Tracks r phase)

include phase h

theorem Tracks.mem_promised_iff :
    r ∈ store.ledger.promised ↔ phase.promisedOn.isSome := by
  rw [← h.promised, Option.isSome_map, ← AList.lookup_isSome]
  simp [RequestLedger.viewOf, RequestLedger.promisedEntry]

theorem Tracks.mem_chunked_iff :
    r ∈ store.ledger.chunkedPrefill ↔ phase.chunkedOn.isSome := by
  rw [← h.chunked, Option.isSome_map, ← AList.lookup_isSome]
  rfl

theorem Tracks.mem_held_iff :
    r ∈ store.ledger.held ↔ phase.heldOn.isSome := by
  rw [← h.held, Option.isSome_map, ← AList.lookup_isSome]
  rfl

theorem Tracks.mem_placement_iff :
    r ∈ store.ledger.placement ↔ phase.placedOn.isSome := by
  rw [← h.placement, ← AList.lookup_isSome]
  rfl

end

end tables

theorem conserved_of_tracked {store : KvCacheStore acc n} (h : store.Tracked) :
    store.Conserved where
  promised_total := store.promised_total
  promised_count := store.promised_count
  held_total := store.ledger.held_eq
  resident_total := fun p => (store.partitions p).residentUnits_eq
  promised_not_held := fun r hp hh => by
    have ht := h r
    simp only [RequestLedger.hasPromise, decide_eq_true_eq, ht.mem_promised_iff,
      ht.mem_chunked_iff] at hp
    rw [ht.mem_held_iff] at hh
    cases hphase : store.phaseOf r <;>
      simp_all [Phase.promisedOn, Phase.chunkedOn, Phase.heldOn]
  promised_not_resident := fun r hp p hr => by
    have ht := h r
    simp only [RequestLedger.hasPromise, decide_eq_true_eq, ht.mem_promised_iff,
      ht.mem_chunked_iff, (ht.resident p).mp hr] at hp
    simp [Phase.promisedOn, Phase.chunkedOn] at hp
  held_not_resident := fun r hh p hr => by
    have ht := h r
    rw [ht.mem_held_iff, (ht.resident p).mp hr] at hh
    cases hh
  promised_once := fun r hp => by
    have ht := h r
    rw [ht.mem_promised_iff, ht.mem_chunked_iff] at hp
    cases hphase : store.phaseOf r <;> simp_all [Phase.promisedOn, Phase.chunkedOn]
  resident_once := fun r p q hp hq => by
    have ht := h r
    have hpq := ((ht.resident p).mp hp).symm.trans ((ht.resident q).mp hq)
    cases hpq
    rfl

theorem cleared_of_absent {store : KvCacheStore acc n} (h : store.Tracked)
    (habsent : ∀ r, store.phaseOf r = .absent) : store.Cleared := by
  have ht : ∀ r, store.Tracks r .absent := fun r => habsent r ▸ h r
  have hpromised : store.ledger.promised = ∅ := eq_empty_of_forall_notMem fun r hr => by
    simpa [Phase.promisedOn] using (ht r).mem_promised_iff.mp hr
  have hchunked : store.ledger.chunkedPrefill = ∅ := eq_empty_of_forall_notMem fun r hr => by
    simpa [Phase.chunkedOn] using (ht r).mem_chunked_iff.mp hr
  have hheld : store.ledger.held = ∅ := eq_empty_of_forall_notMem fun r hr => by
    simpa [Phase.heldOn] using (ht r).mem_held_iff.mp hr
  have hkeys : ∀ p r, r ∉ (store.partitions p).decodes.keys := fun p r hr => by
    simpa using ((ht r).resident p).mp hr
  have hslots : ∀ p, (store.partitions p).decodes.slots = [] := fun p =>
    List.map_eq_nil_iff.mp (List.eq_nil_iff_forall_not_mem.mpr (hkeys p))
  exact
    { promised := hpromised
      chunkedPrefill := hchunked
      held := hheld
      placement := eq_empty_of_forall_notMem fun r hr => by
        simpa [Phase.placedOn] using (ht r).mem_placement_iff.mp hr
      contexts := eq_empty_of_forall_notMem fun r hr => by
        have hc := (ht r).context_absent rfl
        exact absurd hr (AList.lookup_eq_none.mp hc)
      decodes := hslots
      decodeIndex := fun p => eq_empty_of_forall_notMem fun r hr =>
        hkeys p r (((store.partitions p).decodes.mem_index_iff r).mp hr)
      promised_zero := fun p => by rw [store.promised_total, hpromised, hchunked]; rfl
      promised_count_zero := fun p => by rw [store.promised_count, hpromised, hchunked]; rfl
      held_zero := fun p => by
        rw [RequestLedger.partitionHeld, store.ledger.held_eq, hheld]; rfl
      resident_zero := fun p => by
        rw [(store.partitions p).residentUnits_eq, SlotList.sum, hslots]; rfl
      checkpoint_zero := fun p => by
        rw [(store.partitions p).checkpointUnits_eq, SlotList.sum, hslots]; rfl }

/-- Conservation of the request ledger, over every run of the store. -/
theorem ledger_conserved (acc : KvAccounting) (n : Nat) (budget : PrefixCacheBudget)
    (ops : List (StoreOp n)) (h : (new acc n budget).AllowedOps ops) :
    ((new acc n budget).runOps ops).Conserved ∧
      (StoreOp.outstanding ops = [] → ((new acc n budget).runOps ops).Cleared) ∧
      ∀ p, StoreOp.admitsOpen p ops = false →
        (((new acc n budget).runOps ops).partitions p).prefillAdmits = [] := by
  have ht := tracked_run h
  refine ⟨conserved_of_tracked ht, fun hdone => cleared_of_absent ht fun r => ?_,
    fun p => admits_run h⟩
  by_contra hr
  have hmem := outstanding_of_phase h r hr
  rw [hdone] at hmem
  cases hmem

/-- One request through prefill, decode and release, one held and handed off, one
cancelled in the iteration, over two partitions. -/
theorem ledger_conserved_three : (StoreOp.outstanding (n := 2)
      [.reserve 7 0 ⟨6, .fullFootprint⟩, .reserve 8 1 ⟨4, .fullFootprint⟩, .drainReady,
        .commitResident 7 0 4 2, .hold 1 8 4, .clearPrefillAdmits 0, .clearPrefillAdmits 1,
        .reserve 9 0 ⟨3, .fullFootprint⟩, .drainReady, .releaseExternal 9,
        .advance (.wholePartition 0) 2, .clearPrefillAdmits 0, .clearPrefillAdmits 1,
        .releaseRetainingPrefix 7 0, .completeHandoff 8] = []) ∧
    ((new (KvAccounting.tokensForTest 20 (by decide)) 2 .disabled).runOps
      [.reserve 7 0 ⟨6, .fullFootprint⟩, .reserve 8 1 ⟨4, .fullFootprint⟩, .drainReady,
        .commitResident 7 0 4 2, .hold 1 8 4, .clearPrefillAdmits 0, .clearPrefillAdmits 1,
        .reserve 9 0 ⟨3, .fullFootprint⟩, .drainReady, .releaseExternal 9,
        .advance (.wholePartition 0) 2, .clearPrefillAdmits 0, .clearPrefillAdmits 1,
        .releaseRetainingPrefix 7 0, .completeHandoff 8]).Cleared :=
  ⟨by decide, (ledger_conserved _ _ _ _ (by decide +kernel)).2.1 (by decide)⟩

end KvCacheStore

end ServingSim
