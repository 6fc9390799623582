import ServingSim.Kv.Store

/-
  The life of one request in the KV store.

  The store spreads what it knows about a request over five ledger tables and
  one decode list per partition. What the workers do with a request is much
  simpler: it is promised room, prefilled (in one iteration or chunk by chunk),
  becomes a resident decode or is held for a pull, and is gone. `Phase` is that
  account; `Tracks` says which tables may know a request in each phase.
-/

namespace ServingSim

open KeyedTotal

/-- Where a request is between its reservation and its release. -/
inductive Phase (n : Nat) where
  | absent
  /-- Reserved, not yet in an iteration. -/
  | promised (partition : Fin n)
  /-- Reserved across the iterations of a chunked prefill. -/
  | chunked (partition : Fin n)
  /-- In the prefill of an iteration; its promise is gone. -/
  | drained (partition : Fin n)
  | resident (partition : Fin n)
  /-- Prefilled and waiting for a pull. -/
  | held (partition : Fin n)
  deriving DecidableEq, Repr

namespace Phase

variable {n : Nat}

def promisedOn : Phase n → Option (Fin n)
  | promised p => some p
  | _ => none

def chunkedOn : Phase n → Option (Fin n)
  | chunked p => some p
  | _ => none

def heldOn : Phase n → Option (Fin n)
  | held p => some p
  | _ => none

/-- The partition a request is placed on. -/
def placedOn : Phase n → Option (Fin n)
  | promised p | chunked p | drained p | resident p => some p
  | absent | held _ => none

end Phase

/-- What the ledger's tables say about one request. -/
structure RequestView (n : Nat) where
  promised : Option (Fin n × Nat)
  chunked : Option (Fin n × Nat)
  held : Option (Fin n × Nat × Nat)
  placement : Option (Fin n)
  context : Option ResolvedPrefillContext

/-- A request no table knows. -/
def RequestView.blank {n : Nat} : RequestView n := ⟨none, none, none, none, none⟩

namespace RequestLedger

variable {n : Nat} (ledger : RequestLedger n)

def viewOf (r : RequestId) : RequestView n where
  promised := ledger.promisedEntry r
  chunked := ledger.chunkedPrefill.lookup r
  held := ledger.held.lookup r
  placement := ledger.placement.lookup r
  context := ledger.resolvedPrefillContexts.lookup r

/-! ## One equation per operation -/

section view

variable (request r : RequestId)

@[simp] theorem view_new : (new n).viewOf r = .blank := rfl

theorem view_promise (partition : Fin n) (charge : Nat) :
    (ledger.promise request partition charge).viewOf r =
      if r = request then
        { ledger.viewOf r with
          promised := some (partition, charge)
          placement := some partition }
      else ledger.viewOf r := by
  split
  · rename_i h
    subst h
    simp [viewOf, promise, promisedEntry]
  · rename_i h
    simp [viewOf, promise, promisedEntry, AList.lookup_insert_ne h]

theorem view_forgetPromise : (ledger.forgetPromise request).viewOf r =
      if r = request then { ledger.viewOf r with promised := none } else ledger.viewOf r := by
  split
  · rename_i h
    subst h
    simp [viewOf, forgetPromise, promisedEntry]
  · rename_i h
    simp [viewOf, forgetPromise, promisedEntry, AList.lookup_erase_ne h]

theorem view_promote : (ledger.promotePromiseToChunkedPrefill request).viewOf r =
      if r = request then
        match ledger.promisedEntry r with
        | none => ledger.viewOf r
        | some entry => { ledger.viewOf r with promised := none, chunked := some entry }
      else ledger.viewOf r := by
  unfold promotePromiseToChunkedPrefill
  split
  · rename_i hl
    split
    · rename_i h
      subst h
      simp [promisedEntry, hl]
    · rfl
  · rename_i hl
    split
    · rename_i h
      subst h
      simp [viewOf, promisedEntry, hl]
    · rename_i h
      simp [viewOf, promisedEntry, AList.lookup_erase_ne h, AList.lookup_insert_ne h]

theorem view_forgetChunkedPrefill : (ledger.forgetChunkedPrefill request).viewOf r =
      if r = request then { ledger.viewOf r with chunked := none } else ledger.viewOf r := by
  split
  · rename_i h
    subst h
    simp [viewOf, forgetChunkedPrefill, promisedEntry]
  · rename_i h
    simp [viewOf, forgetChunkedPrefill, promisedEntry, AList.lookup_erase_ne h]

theorem view_drainPromised :
    ledger.drainPromised.1.viewOf r = { ledger.viewOf r with promised := none } := rfl

theorem view_hold (partition : Fin n) (units kvTokens : Nat) :
    (ledger.hold request partition units kvTokens).viewOf r =
      if r = request then
        { ledger.viewOf r with held := some (partition, units, kvTokens), placement := none }
      else ledger.viewOf r := by
  split
  · rename_i h
    subst h
    simp [viewOf, hold, promisedEntry]
  · rename_i h
    simp [viewOf, hold, promisedEntry, AList.lookup_erase_ne h, AList.lookup_insert_ne h]

theorem view_takeHeld : (ledger.takeHeld request).1.viewOf r =
      if r = request then { ledger.viewOf r with held := none } else ledger.viewOf r := by
  split
  · rename_i h
    subst h
    simp [viewOf, takeHeld, promisedEntry]
  · rename_i h
    simp [viewOf, takeHeld, promisedEntry, AList.lookup_erase_ne h]

theorem view_forgetPlacement : (ledger.forgetPlacement request).viewOf r =
      if r = request then { ledger.viewOf r with placement := none } else ledger.viewOf r := by
  split
  · rename_i h
    subst h
    simp [viewOf, forgetPlacement, promisedEntry]
  · rename_i h
    simp [viewOf, forgetPlacement, promisedEntry, AList.lookup_erase_ne h]

theorem view_setPrefillContext (context : ResolvedPrefillContext) :
    (ledger.setPrefillContext request context).viewOf r =
      if r = request then { ledger.viewOf r with context := some context }
      else ledger.viewOf r := by
  split
  · rename_i h
    subst h
    simp [viewOf, setPrefillContext, promisedEntry]
  · rename_i h
    simp [viewOf, setPrefillContext, promisedEntry, AList.lookup_insert_ne h]

theorem view_updatePrefillContext (f : ResolvedPrefillContext → ResolvedPrefillContext) :
    (ledger.updatePrefillContext request f).viewOf r =
      if r = request then { ledger.viewOf r with context := (ledger.viewOf r).context.map f }
      else ledger.viewOf r := by
  unfold updatePrefillContext
  split
  · rename_i hl
    split
    · rename_i h
      subst h
      simp [viewOf, hl]
    · rfl
  · rename_i context hl
    rw [view_setPrefillContext]
    split
    · rename_i h
      subst h
      simp [viewOf, hl]
    · rfl

theorem view_takePrefillContext : (ledger.takePrefillContext request).viewOf r =
      if r = request then { ledger.viewOf r with context := none } else ledger.viewOf r := by
  split
  · rename_i h
    subst h
    simp [viewOf, takePrefillContext, promisedEntry]
  · rename_i h
    simp [viewOf, takePrefillContext, promisedEntry, AList.lookup_erase_ne h]

end view

end RequestLedger

theorem KvCacheStore.view_forgetRequest {n : Nat} (ledger : RequestLedger n)
    (request r : RequestId) :
    (KvCacheStore.forgetRequest ledger request).viewOf r =
      if r = request then .blank else ledger.viewOf r := by
  simp only [forgetRequest, RequestLedger.view_takePrefillContext,
    RequestLedger.view_forgetPlacement, RequestLedger.view_forgetChunkedPrefill,
    RequestLedger.view_forgetPromise, RequestLedger.view_takeHeld]
  split <;> rfl

/-! ## Phases and tables -/

namespace KvCacheStore

variable {acc : KvAccounting} {n : Nat}

/-- A request is among a partition's resident decodes. -/
def Resident (store : KvCacheStore acc n) (partition : Fin n) (r : RequestId) : Prop :=
  r ∈ (store.partitions partition).decodes.keys

instance (store : KvCacheStore acc n) (partition : Fin n) (r : RequestId) :
    Decidable (store.Resident partition r) :=
  inferInstanceAs (Decidable (r ∈ (store.partitions partition).decodes.keys))

/-- The phase the tables put a request in. -/
def phaseOf (store : KvCacheStore acc n) (r : RequestId) : Phase n :=
  match store.ledger.held.lookup r, store.ledger.placement.lookup r with
  | some entry, _ => .held entry.1
  | none, none => .absent
  | none, some p =>
    if r ∈ store.ledger.promised then .promised p
    else if r ∈ store.ledger.chunkedPrefill then .chunked p
    else if store.Resident p r then .resident p
    else .drained p

/-- The tables that know a request are those of its phase. -/
structure Tracks (store : KvCacheStore acc n) (r : RequestId) (phase : Phase n) : Prop where
  promised : (store.ledger.viewOf r).promised.map Prod.fst = phase.promisedOn
  chunked : (store.ledger.viewOf r).chunked.map Prod.fst = phase.chunkedOn
  held : (store.ledger.viewOf r).held.map Prod.fst = phase.heldOn
  placement : (store.ledger.viewOf r).placement = phase.placedOn
  resident : ∀ p, store.Resident p r ↔ phase = .resident p
  context_absent : phase = .absent → (store.ledger.viewOf r).context = none
  context_chunked : phase.chunkedOn.isSome → (store.ledger.viewOf r).context.isSome

theorem Tracks.phaseOf_eq {store : KvCacheStore acc n} {r : RequestId} {phase : Phase n}
    (h : store.Tracks r phase) : store.phaseOf r = phase := by
  have hp := h.promised
  have hc := h.chunked
  have hh := h.held
  have hpl := h.placement
  have hr := h.resident
  simp only [RequestLedger.viewOf, RequestLedger.promisedEntry, Option.map_map] at hp hc hh hpl
  have hpm : r ∈ store.ledger.promised ↔ phase.promisedOn.isSome := by
    rw [← hp, Option.isSome_map, AList.lookup_isSome]
  have hcm : r ∈ store.ledger.chunkedPrefill ↔ phase.chunkedOn.isSome := by
    rw [← hc, Option.isSome_map, AList.lookup_isSome]
  unfold phaseOf
  cases phase with
  | held p =>
    obtain ⟨entry, he, hp⟩ := Option.map_eq_some_iff.mp hh
    simp [he, hp]
  | absent =>
    rw [Option.map_eq_none_iff.mp hh, hpl]
    rfl
  | promised p =>
    rw [Option.map_eq_none_iff.mp hh, hpl]
    simp [Phase.placedOn, hpm, Phase.promisedOn]
  | chunked p =>
    rw [Option.map_eq_none_iff.mp hh, hpl]
    simp [Phase.placedOn, hpm, hcm, Phase.promisedOn, Phase.chunkedOn]
  | resident p =>
    rw [Option.map_eq_none_iff.mp hh, hpl]
    simp [Phase.placedOn, hpm, hcm, Phase.promisedOn, Phase.chunkedOn, hr]
  | drained p =>
    rw [Option.map_eq_none_iff.mp hh, hpl]
    simp [Phase.placedOn, hpm, hcm, Phase.promisedOn, Phase.chunkedOn, hr]

theorem Tracks.congr {store store' : KvCacheStore acc n} {r : RequestId} {phase : Phase n}
    (h : store.Tracks r phase) (hview : store'.ledger.viewOf r = store.ledger.viewOf r)
    (hres : ∀ p, store'.Resident p r ↔ store.Resident p r) : store'.Tracks r phase where
  promised := hview ▸ h.promised
  chunked := hview ▸ h.chunked
  held := hview ▸ h.held
  placement := hview ▸ h.placement
  resident := fun p => (hres p).trans (h.resident p)
  context_absent := hview ▸ h.context_absent
  context_chunked := hview ▸ h.context_chunked

theorem tracks_absent {store : KvCacheStore acc n} {r : RequestId}
    (hview : store.ledger.viewOf r = .blank) (hres : ∀ p, ¬ store.Resident p r) :
    store.Tracks r .absent where
  promised := by rw [hview]; rfl
  chunked := by rw [hview]; rfl
  held := by rw [hview]; rfl
  placement := by rw [hview]; rfl
  resident := fun p => ⟨fun h => absurd h (hres p), fun h => by cases h⟩
  context_absent := fun _ => by rw [hview]; rfl
  context_chunked := fun h => by cases h

end KvCacheStore

end ServingSim
