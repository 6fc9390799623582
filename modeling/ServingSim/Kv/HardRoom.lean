import ServingSim.Kv.OpEffects

/-
  Room in the hard tier.

  A full-footprint reservation is meant to claim every unit a request will ever
  hold. Whether it does depends on what the decodes that are already resident
  may still come to need; what that is depends on how decode steps advance them.
  This module is the part of the argument that does not: it is parametric in a
  `NeedBound`, a bound on what a list of decodes needs from now on.

  The invariant (`Room`): on each partition, a bound on the decodes' need, plus
  the footprints of the requests placed there and not resident yet, plus the
  held units, fit the capacity. A request is charged nowhere between its drain
  and its commit; the invariant charges it by its phase, so the drain changes
  nothing.
-/

namespace ServingSim

open KeyedTotal

/-- The context and output tokens each request is admitted with. -/
structure AdmittedWork where
  contextTokens : RequestId → Nat
  outputTokens : RequestId → Nat

/-- The footprint a request is admitted with. -/
def AdmittedWork.footprint (work : AdmittedWork) (acc : KvAccounting) (r : RequestId) : Nat :=
  acc.footprint (work.contextTokens r) (work.outputTokens r)

/-- A bound on the units a list of decodes needs from now on. -/
structure NeedBound (acc : KvAccounting) where
  Within : List (ResidentDecodeState acc) → Nat → Prop
  nil : Within [] 0
  mono : ∀ {states x y}, x ≤ y → Within states x → Within states y
  charge_le : ∀ {states x}, Within states x → (states.map fun state => state.charge).sum ≤ x
  enter : ∀ {states x y} {state : ResidentDecodeState acc}, Within states x →
    state.heldAfter state.remainingDecode ≤ y → Within (states ++ [state]) (x + y)
  leave : ∀ {s t x} {state : ResidentDecodeState acc}, Within (s ++ state :: t) x →
    Within (s ++ t) x

namespace StoreOp

variable {n : Nat}

/-- The reservation an operation makes. -/
def reservation : StoreOp n → Option (RequestId × Fin n × KvFootprint)
  | reserve r p f | reservePrefillContext r p _ f | reserveChunkedPrefillContext r p _ f =>
    some (r, p, f)
  | _ => none

/-- The operation treats a request as it was admitted: its context after prefill
is the admitted one and it decodes no more than the admitted output. -/
def FollowsWork (work : AdmittedWork) : StoreOp n → Prop
  | reservePrefillContext r _ resolved _ | reserveChunkedPrefillContext r _ resolved _ =>
    resolved.postPrefillContextTokens = work.contextTokens r
  | commitResident r _ context remaining =>
    context = work.contextTokens r ∧ remaining ≤ work.outputTokens r
  | finishChunkedPrefill r _ remaining => remaining ≤ work.outputTokens r
  | hold _ r kvTokens => kvTokens = work.contextTokens r
  | _ => True

instance decidableFollowsWork (work : AdmittedWork) :
    (op : StoreOp n) → Decidable (op.FollowsWork work)
  | reservePrefillContext _ _ _ _ | reserveChunkedPrefillContext _ _ _ _ | hold _ _ _ =>
    inferInstanceAs (Decidable (_ = _))
  | commitResident _ _ _ _ => inferInstanceAs (Decidable (_ ∧ _))
  | finishChunkedPrefill _ _ _ => inferInstanceAs (Decidable (_ ≤ _))
  | reserve _ _ _ | schedulePrefillChunk _ _ _ | completePrefillChunk _ | prepareNextDecode _ _ _
  | drainReady | advance _ _ | clearPrefillAdmits _ | release _ _ | releaseRetainingPrefix _ _
  | releaseExternal _ | completeHandoff _ => inferInstanceAs (Decidable True)

end StoreOp

/-! ## Charged by phase -/

section pending

variable {n : Nat} (work : AdmittedWork) (acc : KvAccounting) (p : Fin n)

/-- The admitted footprint of a request with a promise on `p`. -/
def promisedIn (r : RequestId) : Phase n → Nat
  | .promised q => if q = p then work.footprint acc r else 0
  | _ => 0

/-- The admitted footprint of a request in a chunked prefill on `p`. -/
def chunkedIn (r : RequestId) : Phase n → Nat
  | .chunked q => if q = p then work.footprint acc r else 0
  | _ => 0

/-- The admitted footprint of a request in an iteration's prefill on `p`: no
table charges it. -/
def drainedIn (r : RequestId) : Phase n → Nat
  | .drained q => if q = p then work.footprint acc r else 0
  | _ => 0

/-- What a request placed on `p` but not resident yet is owed there. -/
def pendingIn (r : RequestId) (phase : Phase n) : Nat :=
  promisedIn work acc p r phase + chunkedIn work acc p r phase + drainedIn work acc p r phase

end pending

namespace KvCacheStore

variable {acc : KvAccounting} {n : Nat}

/-- The sum over the placed requests of a weight of their phases. -/
def phaseTotal (store : KvCacheStore acc n) (f : RequestId → Phase n → Nat) : Nat :=
  total (fun r _ => f r (store.phaseOf r)) store.ledger.placement

/-- The footprints of the requests placed on `p` and not resident yet. -/
def pendingUnits (store : KvCacheStore acc n) (work : AdmittedWork) (p : Fin n) : Nat :=
  store.phaseTotal (pendingIn work acc p)

/-- The footprints of the requests in an iteration's prefill on `p`. -/
def drainedUnits (store : KvCacheStore acc n) (work : AdmittedWork) (p : Fin n) : Nat :=
  store.phaseTotal (drainedIn work acc p)

/-- A request's reservation is the footprint it was admitted with, and a chunked
prefill reaches the admitted context. -/
structure ChargedView (acc : KvAccounting) (work : AdmittedWork) (r : RequestId)
    (view : RequestView n) : Prop where
  promised : ∀ entry, view.promised = some entry → entry.2 = work.footprint acc r
  chunked : ∀ entry, view.chunked = some entry → entry.2 = work.footprint acc r
  context : ∀ context, view.chunked.isSome → view.context = some context →
    context.postPrefillContextTokens = work.contextTokens r

def ChargedAsAdmitted (store : KvCacheStore acc n) (work : AdmittedWork) : Prop :=
  ∀ r, ChargedView acc work r (store.ledger.viewOf r)

section pending

variable {work : AdmittedWork} {store store' : KvCacheStore acc n}

theorem weightAt_phase (h : store.Tracked) {f : RequestId → Phase n → Nat} (r : RequestId)
    (hf : (store.phaseOf r).placedOn = none → f r (store.phaseOf r) = 0) :
    weightAt (fun r _ => f r (store.phaseOf r)) r store.ledger.placement =
      f r (store.phaseOf r) := by
  have hpl : store.ledger.placement.lookup r = (store.phaseOf r).placedOn := (h r).placement
  unfold weightAt
  split
  · rfl
  · rename_i hn
    exact (hf (hpl.symm.trans hn)).symm

theorem phaseTotal_le_except (h : store.Tracked) (h' : store'.Tracked)
    {f : RequestId → Phase n → Nat} (hf : ∀ r phase, phase.placedOn = none → f r phase = 0)
    (q : RequestId)
    (hother : ∀ r, r ≠ q → f r (store'.phaseOf r) ≤ f r (store.phaseOf r)) :
    store'.phaseTotal f + f q (store.phaseOf q) ≤ store.phaseTotal f + f q (store'.phaseOf q) := by
  have hexcept : store'.phaseTotal f +
        weightAt (fun r _ => f r (store.phaseOf r)) q store.ledger.placement ≤
      store.phaseTotal f + weightAt (fun r _ => f r (store'.phaseOf r)) q store'.ledger.placement :=
    total_le_except q fun r _ hr _ => by
      rw [weightAt_phase h r (hf r _)]
      exact hother r hr
  rwa [weightAt_phase h q (hf q _), weightAt_phase h' q (hf q _)] at hexcept

theorem pendingIn_unplaced (p : Fin n) (r : RequestId) (phase : Phase n)
    (h : phase.placedOn = none) : pendingIn work acc p r phase = 0 := by
  cases phase <;> simp_all [Phase.placedOn, pendingIn, promisedIn, chunkedIn, drainedIn]

section

variable (h : store.Tracked) (hcharged : store.ChargedAsAdmitted work) (p : Fin n)

include h hcharged p

theorem total_promised_eq :
    total (promiseUnits p) store.ledger.promised = store.phaseTotal (promisedIn work acc p) := by
  have hentry : ∀ r, weightAt (promiseUnits p) r store.ledger.promised =
      promisedIn work acc p r (store.phaseOf r) := by
    intro r
    have ht := (h r).promised
    cases hl : store.ledger.promised.lookup r with
    | none =>
      simp only [RequestLedger.viewOf, RequestLedger.promisedEntry, hl, Option.map_none] at ht
      cases hphase : store.phaseOf r <;> simp_all [weightAt, Phase.promisedOn, promisedIn]
    | some entry =>
      have hcharge := (hcharged r).promised (entry.1, entry.2.1)
      simp only [RequestLedger.viewOf, RequestLedger.promisedEntry, hl, Option.map_some,
        forall_true_left] at ht hcharge
      cases hphase : store.phaseOf r <;>
        simp_all [weightAt, Phase.promisedOn, promisedIn, promiseUnits]
  apply Nat.le_antisymm
  · refine total_le_total_of_weightAt fun r v hv => ?_
    rw [weightAt_phase h r, ← hentry, weightAt_of_lookup hv]
    intro hn
    cases hphase : store.phaseOf r <;> simp_all [Phase.placedOn, promisedIn]
  · exact total_le_total_of_weightAt fun r _ _ => (hentry r).ge

theorem total_chunked_eq :
    total (chunkedUnits p) store.ledger.chunkedPrefill =
      store.phaseTotal (chunkedIn work acc p) := by
  have hentry : ∀ r, weightAt (chunkedUnits p) r store.ledger.chunkedPrefill =
      chunkedIn work acc p r (store.phaseOf r) := by
    intro r
    have ht := (h r).chunked
    cases hl : store.ledger.chunkedPrefill.lookup r with
    | none =>
      simp only [RequestLedger.viewOf, hl, Option.map_none] at ht
      cases hphase : store.phaseOf r <;> simp_all [weightAt, Phase.chunkedOn, chunkedIn]
    | some entry =>
      have hcharge := (hcharged r).chunked entry
      simp only [RequestLedger.viewOf, hl, Option.map_some, forall_true_left] at ht hcharge
      cases hphase : store.phaseOf r <;>
        simp_all [weightAt, Phase.chunkedOn, chunkedIn, chunkedUnits]
  apply Nat.le_antisymm
  · refine total_le_total_of_weightAt fun r v hv => ?_
    rw [weightAt_phase h r, ← hentry, weightAt_of_lookup hv]
    intro hn
    cases hphase : store.phaseOf r <;> simp_all [Phase.placedOn, chunkedIn]
  · exact total_le_total_of_weightAt fun r _ _ => (hentry r).ge

theorem pendingUnits_eq :
    store.pendingUnits work p = store.ledger.partitionPromised p + store.drainedUnits work p := by
  rw [store.promised_total p, total_promised_eq h hcharged, total_chunked_eq h hcharged,
    pendingUnits, drainedUnits]
  simp only [phaseTotal, ← total_add, pendingIn]

end

end pending

/-! ## Charges under the operations -/

section charged

variable {work : AdmittedWork} {store : KvCacheStore acc n} {r : RequestId}

theorem ChargedView.drop {view view' : RequestView n} (h : ChargedView acc work r view)
    (hpromised : view'.promised = view.promised ∨ view'.promised = none)
    (hchunked : view'.chunked = view.chunked ∧ view'.context = view.context ∨
      view'.chunked = none) : ChargedView acc work r view' where
  promised := fun entry he => by
    rcases hpromised with hp | hp
    · exact h.promised entry (hp ▸ he)
    · rw [hp] at he
      cases he
  chunked := fun entry he => by
    rcases hchunked with ⟨hc, -⟩ | hc
    · exact h.chunked entry (hc ▸ he)
    · rw [hc] at he
      cases he
  context := fun context hs he => by
    rcases hchunked with ⟨hc, hctx⟩ | hc
    · exact h.context context (hc ▸ hs) (hctx ▸ he)
    · rw [hc] at hs
      cases hs

theorem ChargedView.update {view : RequestView n} (h : ChargedView acc work r view)
    {f : ResolvedPrefillContext → ResolvedPrefillContext}
    (hf : ∀ context, (f context).postPrefillContextTokens = context.postPrefillContextTokens) :
    ChargedView acc work r { view with context := view.context.map f } where
  promised := h.promised
  chunked := h.chunked
  context := fun context hs he => by
    obtain ⟨old, ho, rfl⟩ := Option.map_eq_some_iff.mp he
    rw [hf]
    exact h.context old hs ho

theorem charged_apply (ht : store.Tracked) (h : store.ChargedAsAdmitted work) {op : StoreOp n}
    (hop : op.Issuable store) (hfollow : op.FollowsWork work)
    (hcharge : ∀ q p f, op.reservation = some (q, p, f) → f.reservedUnits = work.footprint acc q) :
    (op.apply store).ChargedAsAdmitted work := by
  intro r
  have hr := h r
  cases op with
  | reserve q p f =>
    have hc := hcharge q p f rfl
    simp only [StoreOp.apply, ledger_reserve, RequestLedger.view_promise]
    split
    · rename_i hrq
      subst hrq
      exact ⟨fun entry he => by cases he; exact hc, hr.chunked, hr.context⟩
    · exact hr
  | reservePrefillContext q p resolved f =>
    have hc := hcharge q p f rfl
    simp only [StoreOp.apply, view_reservePrefillContext]
    split
    · rename_i hrq
      subst hrq
      refine ⟨fun entry he => by cases he; exact hc, hr.chunked, fun context hs _ => ?_⟩
      -- an absent request has no chunked prefill
      have hnone := (ht r).chunked
      rw [hop] at hnone
      rw [Option.map_eq_none_iff.mp hnone] at hs
      cases hs
    · exact hr
  | reserveChunkedPrefillContext q p resolved f =>
    have hc := hcharge q p f rfl
    simp only [StoreOp.apply, view_reserveChunkedPrefillContext]
    split
    · rename_i hrq
      subst hrq
      refine ⟨fun entry he => ?_, fun entry he => ?_, fun context _ he => ?_⟩
      · cases he
      · cases he
        exact hc
      · cases he
        rw [postPrefillContextTokens_takePrefix]
        exact hfollow
    · exact hr
  | schedulePrefillChunk q p chunk =>
    simp only [StoreOp.apply, schedulePrefillChunk, ledger_modifyPartition, ledger_modifyLedger,
      RequestLedger.schedulePrefillChunk, RequestLedger.view_updatePrefillContext]
    split
    · exact hr.update fun context => context.postPrefillContextTokens_scheduleChunk chunk
    · exact hr
  | completePrefillChunk q =>
    simp only [StoreOp.apply, completePrefillChunk, ledger_modifyLedger,
      RequestLedger.completePrefillChunk, RequestLedger.view_updatePrefillContext]
    split
    · exact hr.update fun context => context.postPrefillContextTokens_completeChunk
    · exact hr
  | finishChunkedPrefill q p remaining =>
    simp only [StoreOp.apply, finishChunkedPrefill]
    split
    · exact hr
    · rw [view_commitResident, ledger_modifyLedger, RequestLedger.view_forgetChunkedPrefill]
      split
      · exact hr.drop (.inr rfl) (.inr rfl)
      · exact hr
  | prepareNextDecode p pageSize steps =>
    simpa only [StoreOp.apply, ledger_prepareNextDecode] using hr
  | drainReady =>
    simp only [StoreOp.apply, view_drainReady]
    exact hr.drop (.inr rfl) (.inl ⟨rfl, rfl⟩)
  | commitResident q p context remaining =>
    simp only [StoreOp.apply, view_commitResident]
    split
    · exact hr.drop (.inr rfl) (.inl ⟨rfl, rfl⟩)
    · exact hr
  | advance scope steps => simpa only [StoreOp.apply, ledger_advance] using hr
  | clearPrefillAdmits p => exact hr
  | hold p q kvTokens =>
    simp only [StoreOp.apply, hold, ledger_modifyLedger, RequestLedger.view_hold]
    split
    · exact hr.drop (.inl rfl) (.inl ⟨rfl, rfl⟩)
    · exact hr
  | release q p =>
    simp only [StoreOp.apply, release, ledger_modifyPartition, ledger_modifyLedger,
      view_forgetRequest]
    split
    · exact hr.drop (.inr rfl) (.inr rfl)
    · exact hr
  | releaseRetainingPrefix q p =>
    simp only [StoreOp.apply, ledger_releaseRetainingPrefix, release, ledger_modifyPartition,
      ledger_modifyLedger, view_forgetRequest]
    split
    · exact hr.drop (.inr rfl) (.inr rfl)
    · exact hr
  | releaseExternal q =>
    simp only [StoreOp.apply, releaseExternal]
    split
    · simp only [ledger_modifyLedger, RequestLedger.view_takePrefillContext,
        RequestLedger.view_forgetChunkedPrefill, RequestLedger.view_takeHeld]
      split
      · exact hr.drop (.inl rfl) (.inr rfl)
      · exact hr
    · simp only [ledger_modifyPartition, ledger_modifyLedger,
        RequestLedger.view_takePrefillContext, RequestLedger.view_forgetChunkedPrefill,
        RequestLedger.view_forgetPromise, RequestLedger.view_forgetPlacement]
      split
      · exact hr.drop (.inr rfl) (.inr rfl)
      · exact hr
  | completeHandoff q =>
    simp only [StoreOp.apply]
    cases hl : store.ledger.held.lookup q with
    | none => rwa [completeHandoff_of_notMem store hl]
    | some entry =>
      rw [ledger_completeHandoff store hl, RequestLedger.view_takePrefillContext,
        RequestLedger.view_takeHeld]
      split
      · -- a held request has no chunked prefill
        rename_i hrq
        subst hrq
        have hphase := (ht r).mem_held_iff.mp (AList.lookup_isSome.mp (by simp [hl]))
        have hnone := (ht r).chunked
        refine hr.drop (.inl rfl) (.inr ?_)
        cases hp : store.phaseOf r <;> simp_all [Phase.heldOn, Phase.chunkedOn]
      · exact hr

end charged

/-! ## Room -/

/-- On each partition the decodes' need, the footprints owed and the held units
fit the capacity. -/
structure Room (need : NeedBound acc) (work : AdmittedWork)
    (store : KvCacheStore acc n) : Prop where
  tracked : store.Tracked
  charged : store.ChargedAsAdmitted work
  room : ∀ p, ∃ x, need.Within (store.statesOf p) x ∧
    x + store.pendingUnits work p + store.ledger.partitionHeld p ≤ acc.capacityUnits

/-- The reservation an operation makes leaves room for the decodes' need, the
other reservations, the prefills of the iteration and the held units. -/
def LeavesRoom (need : NeedBound acc) (work : AdmittedWork) (store : KvCacheStore acc n)
    (op : StoreOp n) : Prop :=
  ∀ q p f, op.reservation = some (q, p, f) → ∃ x, need.Within (store.statesOf p) x ∧
    x + store.ledger.partitionPromised p + store.drainedUnits work p +
      store.ledger.partitionHeld p + f.reservedUnits ≤ acc.capacityUnits

/-- Every reservation an operation makes is the admitted footprint. -/
def ReservesFootprint (work : AdmittedWork) (acc : KvAccounting) (op : StoreOp n) : Prop :=
  ∀ q p f, op.reservation = some (q, p, f) → f.reservedUnits = work.footprint acc q

/-- The advance an operation makes keeps every bound on the decodes' need. -/
def KeepsNeed (need : NeedBound acc) (store : KvCacheStore acc n) : StoreOp n → Prop
  | .advance scope steps => ∀ p x, need.Within (store.statesOf p) x →
    need.Within ((store.advance scope steps).statesOf p) x
  | _ => True

theorem room_new (need : NeedBound acc) (work : AdmittedWork) (budget : PrefixCacheBudget) :
    Room need work (new acc n budget) where
  tracked := tracked_new budget
  charged := fun r =>
    { promised := fun _ h => by cases h
      chunked := fun _ h => by cases h
      context := fun _ h => by cases h }
  room := fun p => ⟨0, need.nil, Nat.zero_le _⟩

section room

variable {need : NeedBound acc} {work : AdmittedWork} {store : KvCacheStore acc n}

theorem room_partition {store' : KvCacheStore acc n} (ht : store.Tracked) (ht' : store'.Tracked)
    {p : Fin n} (q : RequestId)
    (hother : ∀ r, r ≠ q → pendingIn work acc p r (store'.phaseOf r) ≤
      pendingIn work acc p r (store.phaseOf r))
    {x x' capacity : Nat}
    (hx : x + store.pendingUnits work p + store.ledger.partitionHeld p ≤ capacity)
    (hmove : x' + pendingIn work acc p q (store'.phaseOf q) + store'.ledger.partitionHeld p ≤
      x + pendingIn work acc p q (store.phaseOf q) + store.ledger.partitionHeld p) :
    x' + store'.pendingUnits work p + store'.ledger.partitionHeld p ≤ capacity := by
  have hpending : store'.pendingUnits work p + pendingIn work acc p q (store.phaseOf q) ≤
      store.pendingUnits work p + pendingIn work acc p q (store'.phaseOf q) :=
    phaseTotal_le_except ht ht' (pendingIn_unplaced p) q hother
  omega

theorem room_reservation {op : StoreOp n} (h : Room need work store) (hop : op.Issuable store)
    {q : RequestId} {pq : Fin n} {f : KvFootprint} (hres : op.reservation = some (q, pq, f))
    (hcharge : ReservesFootprint work acc op) (hroom : LeavesRoom need work store op)
    (hstates : (op.apply store).partitions = store.partitions)
    (hheld : ∀ p, (op.apply store).ledger.partitionHeld p = store.ledger.partitionHeld p)
    (hphase : ∀ r, r ≠ q → op.phaseAfter r (store.phaseOf r) = store.phaseOf r)
    (habsent : store.phaseOf q = .absent)
    (hafter : ∀ p, pendingIn work acc p q (op.phaseAfter q (store.phaseOf q)) =
      if pq = p then work.footprint acc q else 0) (p : Fin n) :
    ∃ x, need.Within ((op.apply store).statesOf p) x ∧
      x + (op.apply store).pendingUnits work p + (op.apply store).ledger.partitionHeld p ≤
        acc.capacityUnits := by
  have ht' := tracked_apply h.tracked hop
  have hpending : (op.apply store).pendingUnits work p + pendingIn work acc p q (store.phaseOf q) ≤
      store.pendingUnits work p + pendingIn work acc p q ((op.apply store).phaseOf q) :=
    phaseTotal_le_except h.tracked ht' (pendingIn_unplaced p) q fun r hr => by
      rw [phaseOf_apply h.tracked hop, hphase r hr]
  rw [phaseOf_apply h.tracked hop, hafter p, habsent] at hpending
  rw [hheld, statesOf_congr hstates]
  by_cases hp : pq = p
  · subst hp
    obtain ⟨x, hw, hx⟩ := hroom q pq f hres
    have hunits := hcharge q pq f hres
    have heq := pendingUnits_eq h.tracked h.charged pq
    rw [if_pos rfl] at hpending
    exact ⟨x, hw, by omega⟩
  · obtain ⟨x, hw, hx⟩ := h.room p
    rw [if_neg hp] at hpending
    exact ⟨x, hw, by omega⟩

theorem pendingIn_drain {store' : KvCacheStore acc n}
    (hphase : ∀ r, store'.phaseOf r = StoreOp.drainReady.phaseAfter r (store.phaseOf r))
    (p : Fin n) (r : RequestId) :
    pendingIn work acc p r (store'.phaseOf r) = pendingIn work acc p r (store.phaseOf r) := by
  rw [hphase]
  cases store.phaseOf r <;>
    simp [StoreOp.phaseAfter, pendingIn, promisedIn, chunkedIn, drainedIn]

section

variable {store' : KvCacheStore acc n} (h : Room need work store) (ht' : store'.Tracked)

include store' h ht'

theorem room_commit {q : RequestId} {pq : Fin n} {context remaining : Nat}
    {m : KvCacheStore acc n} (hm : m.partitions = store.partitions)
    (hstore' : store' = m.commitResident q pq context remaining)
    (hheld : ∀ p, m.ledger.partitionHeld p = store.ledger.partitionHeld p)
    (hnew : ¬ store.Resident pq q)
    (hfollow : context = work.contextTokens q ∧ remaining ≤ work.outputTokens q)
    (hother : ∀ r, r ≠ q → store'.phaseOf r = store.phaseOf r)
    (hafter : store'.phaseOf q = .resident pq)
    (hbefore : ∀ p, pendingIn work acc p q (store.phaseOf q) =
      if pq = p then work.footprint acc q else 0) (p : Fin n) :
    ∃ x, need.Within (store'.statesOf p) x ∧
      x + store'.pendingUnits work p + store'.ledger.partitionHeld p ≤ acc.capacityUnits := by
  obtain ⟨x, hw, hx⟩ := h.room p
  have hnew' : ¬ m.Resident pq q := by
    rwa [Resident, hm]
  obtain ⟨state, hcontext, hremaining, hself, hsame⟩ :=
    m.statesOf_commitResident context remaining hnew'
  have hheld' : store'.ledger.partitionHeld p = store.ledger.partitionHeld p := by
    rw [hstore', ← hheld p]
    rfl
  have hpend : pendingIn work acc p q (store'.phaseOf q) = 0 := by
    rw [hafter]
    rfl
  by_cases hp : pq = p
  · subst hp
    refine ⟨x + work.footprint acc q, ?_, ?_⟩
    · rw [hstore', hself, statesOf_congr hm]
      refine need.enter hw (acc.held_le_footprint ?_)
      omega
    · refine room_partition h.tracked ht' q (fun r hr => by rw [hother r hr]) hx ?_
      rw [hpend, hheld', hbefore, if_pos rfl]
      omega
  · refine ⟨x, ?_, ?_⟩
    · rw [hstore', hsame p (Ne.symm hp), statesOf_congr hm]
      exact hw
    · refine room_partition h.tracked ht' q (fun r hr => by rw [hother r hr]) hx ?_
      rw [hpend, hheld']
      omega

theorem room_leave {q : RequestId}
    (hother : ∀ r, r ≠ q → store'.phaseOf r = store.phaseOf r)
    (hafter : store'.phaseOf q = .absent)
    (hheld : ∀ p, store'.ledger.partitionHeld p ≤ store.ledger.partitionHeld p)
    (hstates : ∀ p, store'.statesOf p = store.statesOf p ∨
      ∃ s a t, store.statesOf p = s ++ a :: t ∧ store'.statesOf p = s ++ t) (p : Fin n) :
    ∃ x, need.Within (store'.statesOf p) x ∧
      x + store'.pendingUnits work p + store'.ledger.partitionHeld p ≤ acc.capacityUnits := by
  obtain ⟨x, hw, hx⟩ := h.room p
  refine ⟨x, ?_, ?_⟩
  · rcases hstates p with hs | ⟨s, a, t, hs, hs'⟩
    · rwa [hs]
    · rw [hs']
      exact need.leave (hs ▸ hw)
  · refine room_partition h.tracked ht' q (fun r hr => by rw [hother r hr]) hx ?_
    have hpend : pendingIn work acc p q (store'.phaseOf q) = 0 := by
      rw [hafter]
      rfl
    have := hheld p
    omega

theorem room_still (hphase : ∀ r, store'.phaseOf r = store.phaseOf r)
    (hheld : ∀ p, store'.ledger.partitionHeld p = store.ledger.partitionHeld p)
    (hstates : ∀ p x, need.Within (store.statesOf p) x → need.Within (store'.statesOf p) x)
    (p : Fin n) :
    ∃ x, need.Within (store'.statesOf p) x ∧
      x + store'.pendingUnits work p + store'.ledger.partitionHeld p ≤ acc.capacityUnits := by
  obtain ⟨x, hw, hx⟩ := h.room p
  refine ⟨x, hstates p x hw, room_partition h.tracked ht' 0 (fun r _ => by rw [hphase]) hx ?_⟩
  rw [hphase, hheld]

end

theorem room_apply {op : StoreOp n} (h : Room need work store) (hop : op.Issuable store)
    (hfollow : op.FollowsWork work) (hcharge : ReservesFootprint work acc op)
    (hroom : LeavesRoom need work store op) (hkeep : KeepsNeed need store op) :
    Room need work (op.apply store) := by
  have ht' := tracked_apply h.tracked hop
  refine ⟨ht', charged_apply h.tracked h.charged hop hfollow hcharge, ?_⟩
  have hphase : ∀ r, (op.apply store).phaseOf r = op.phaseAfter r (store.phaseOf r) := fun r =>
    phaseOf_apply h.tracked hop
  -- a reservation adds a peak, a departure takes one away, the rest leave the decodes as they are
  cases op with
  | reserve q pq f =>
    exact room_reservation h hop rfl hcharge hroom (partitions_reserve ..)
      (fun p => partitionHeld_reserve ..) (fun r hr => if_neg hr) hop
      (fun p => by simp [StoreOp.phaseAfter, pendingIn, promisedIn, chunkedIn, drainedIn])
  | reservePrefillContext q pq resolved f =>
    exact room_reservation h hop rfl hcharge hroom (partitions_reservePrefillContext ..)
      (fun p => partitionHeld_reservePrefillContext ..) (fun r hr => if_neg hr) hop
      (fun p => by simp [StoreOp.phaseAfter, pendingIn, promisedIn, chunkedIn, drainedIn])
  | reserveChunkedPrefillContext q pq resolved f =>
    exact room_reservation h hop rfl hcharge hroom (partitions_reserveChunkedPrefillContext ..)
      (fun p => partitionHeld_reserveChunkedPrefillContext ..) (fun r hr => if_neg hr) hop
      (fun p => by simp [StoreOp.phaseAfter, pendingIn, promisedIn, chunkedIn, drainedIn])
  | schedulePrefillChunk q pq chunk =>
    refine room_still h ht' hphase (fun p => ?_) (fun p x hw => ?_)
    · simp [StoreOp.apply, schedulePrefillChunk, RequestLedger.schedulePrefillChunk]
    · have hs := (store.modifyLedger fun ledger =>
        ledger.schedulePrefillChunk q chunk).statesOf_modifyPartition_of_decodes p (q := pq)
        (fun state => state.decodes_addPrefillAdmit q)
      exact hs.symm ▸ hw
  | completePrefillChunk q =>
    refine room_still h ht' hphase (fun p => ?_) (fun p x hw => hw)
    simp [StoreOp.apply, completePrefillChunk, RequestLedger.completePrefillChunk]
  | finishChunkedPrefill q pq remaining =>
    have hq := h.tracked q
    rw [hop] at hq
    obtain ⟨context, hc⟩ := Option.isSome_iff_exists.mp (hq.context_chunked rfl)
    have hchunked : (store.ledger.viewOf q).chunked.isSome := by
      rw [← Option.isSome_map, hq.chunked]
      rfl
    refine room_commit h ht' (m := store.modifyLedger fun ledger =>
      ledger.forgetChunkedPrefill q) rfl (store.finishChunkedPrefill_eq q pq remaining hc)
      (fun p => rfl) (fun hr => ?_) ⟨(h.charged q).context context hchunked hc, hfollow⟩
      (fun r hr => (hphase r).trans (if_neg hr)) ((hphase q).trans (if_pos rfl)) (fun p => ?_)
    · cases (hq.resident pq).mp hr
    · rw [hop]
      simp [pendingIn, promisedIn, chunkedIn, drainedIn]
  | prepareNextDecode p pageSize steps =>
    refine room_still h ht' hphase (fun p => ?_) (fun p x hw => ?_)
    · rw [StoreOp.apply, ledger_prepareNextDecode]
    · rwa [StoreOp.apply, statesOf_congr (partitions_prepareNextDecode ..)]
  | drainReady =>
    intro p
    obtain ⟨x, hw, hx⟩ := h.room p
    refine ⟨x, (store.statesOf_drainReady p).symm ▸ hw,
      room_partition h.tracked ht' 0 (fun r _ => (pendingIn_drain hphase p r).le) hx ?_⟩
    rw [pendingIn_drain hphase p 0, StoreOp.apply, ledger_drainReady]
    rfl
  | commitResident q pq context remaining =>
    refine room_commit h ht' (m := store) rfl rfl (fun p => rfl) (fun hr => ?_) hfollow
      (fun r hr => (hphase r).trans (if_neg hr)) ((hphase q).trans (if_pos rfl)) (fun p => ?_)
    · have hphase := ((h.tracked q).resident pq).mp hr
      rw [StoreOp.Issuable, hphase] at hop
      rcases hop with hop | hop <;> cases hop
    · rcases hop with hop | hop <;> rw [hop] <;>
        simp [pendingIn, promisedIn, chunkedIn, drainedIn]
  | advance scope steps =>
    refine room_still h ht' hphase (fun p => ?_) hkeep
    rw [StoreOp.apply, ledger_advance]
  | clearPrefillAdmits pq =>
    refine room_still h ht' hphase (fun p => rfl) (fun p x hw => ?_)
    exact (store.statesOf_modifyPartition_of_decodes p (q := pq)
      fun state => state.decodes_clearPrefillAdmits).symm ▸ hw
  | hold pq q kvTokens =>
    intro p
    obtain ⟨x, hw, hx⟩ := h.room p
    have hnot : q ∉ store.ledger.held := by
      rw [(h.tracked q).mem_held_iff, hop]
      simp [Phase.heldOn]
    have hheld : (StoreOp.apply store (.hold pq q kvTokens)).ledger.partitionHeld p =
        (if pq = p then acc.heldWhileRunning kvTokens 1 else 0) + store.ledger.partitionHeld p :=
      partitionHeld_hold p pq _ _ hnot
    -- what stays held was part of the footprint the promise had counted
    have hle : acc.heldWhileRunning kvTokens 1 ≤ work.footprint acc q := by
      rw [StoreOp.FollowsWork] at hfollow
      rw [hfollow]
      exact acc.held_le_footprint (by omega)
    refine ⟨x, hw, room_partition h.tracked ht' q
      (fun r hr => by rw [hphase, StoreOp.phaseAfter, if_neg hr]) hx ?_⟩
    rw [hheld, hphase, StoreOp.phaseAfter, if_pos rfl, hop]
    by_cases hp : pq = p
    · simp only [hp, if_pos, pendingIn, promisedIn, chunkedIn, drainedIn]
      omega
    · simp [hp, pendingIn, promisedIn, chunkedIn, drainedIn]
  | release q pq =>
    refine room_leave h ht' (fun r hr => (hphase r).trans (if_neg hr))
      ((hphase q).trans (if_pos rfl)) (fun p => partitionHeld_takeHeld_le p _ q) fun p => ?_
    exact (store.modifyLedger fun ledger => forgetRequest ledger q).statesOf_modifyPartition_leave
      p (fun state => rfl)
  | releaseRetainingPrefix q pq =>
    refine room_leave h ht' (fun r hr => (hphase r).trans (if_neg hr))
      ((hphase q).trans (if_pos rfl)) (fun p => ?_) fun p => ?_
    · rw [StoreOp.apply, ledger_releaseRetainingPrefix]
      exact partitionHeld_takeHeld_le p _ q
    · rw [StoreOp.apply, statesOf_congr (store.partitions_releaseRetainingPrefix q pq)]
      exact (store.modifyLedger fun ledger =>
        forgetRequest ledger q).statesOf_modifyPartition_leave p (fun state => rfl)
  | releaseExternal q =>
    refine room_leave h ht' (fun r hr => (hphase r).trans (if_neg hr))
      ((hphase q).trans (if_pos rfl)) (fun p => ?_) fun p => ?_
    · simp only [StoreOp.apply, releaseExternal]
      split
      · exact partitionHeld_takeHeld_le p _ q
      · exact Nat.le_refl _
    · simp only [StoreOp.apply, releaseExternal]
      split
      · exact .inl rfl
      · exact (store.modifyLedger _).statesOf_modifyPartition_leave p
          (fun state => (state.releaseDecode q).decodes_removePrefillAdmit q)
  | completeHandoff q =>
    refine room_leave h ht' (fun r hr => (hphase r).trans (if_neg hr))
      ((hphase q).trans (if_pos rfl)) (fun p => ?_) fun p => ?_
    · rw [StoreOp.apply]
      cases hl : store.ledger.held.lookup q with
      | none => rw [completeHandoff_of_notMem store hl]
      | some entry =>
        rw [ledger_completeHandoff store hl]
        exact partitionHeld_takeHeld_le p _ q
    · exact .inl (by rw [StoreOp.apply, statesOf_congr (store.partitions_completeHandoff q)])

theorem protected_le_of_room (h : Room need work store) (p : Fin n) :
    store.protectedUnits p ≤ acc.capacityUnits := by
  obtain ⟨x, hw, hx⟩ := h.room p
  have hresident : (store.partitions p).residentUnits ≤ x := by
    rw [(store.partitions p).residentUnits_eq_states]
    exact need.charge_le hw
  have hpending := pendingUnits_eq h.tracked h.charged p
  rw [protectedUnits]
  omega

end room

end KvCacheStore

end ServingSim
