import ServingSim.Kv.RequestLedger
import ServingSim.Kv.ResidentPartition

/-
  The KV store of every composed worker (`kv_cache_store`).

  The store owns partition placement, the ledger of reservations and the
  retained-prefix tier; each partition's resident decodes live in its
  `ResidentPartitionState`. Two tiers share one capacity: the hard tier is
  resident, promised and held KV and gates admission; the soft tier is retained
  prefixes (and the checkpoints of live decodes) and is clamped to what the hard
  tier leaves.

  Journal, sampler and log records read the store and never change it; they are
  left out, and with them the `now` arguments only they use. The reserve ratio
  of `fits_bounded_future` is an exact rational.

  The operations here are total: they are the state that is left. What stops one
  on the way to a resident decode (the prefix of a reservation, a request that
  already decodes, a partition that a step overfills) and the checked sums of a
  resolved prefill are in `Kv.StoreAsserts`. Not modelled are the assertions on
  the basis of a bounded footprint, on a context and the placement of a subset
  that are there, and the count of a partition's reservations as a `u32`.
-/

namespace ServingSim

inductive ReservationBasis where
  | fullFootprint
  | boundedFuture
  deriving DecidableEq, Repr

/-- Hard-tier units one admission reserves. -/
structure KvFootprint where
  reservedUnits : Nat
  basis : ReservationBasis
  deriving DecidableEq, Repr

/-- Requests affected by one KV-growth transition. -/
inductive AdvanceScope (n : Nat) where
  | wholePartition (partition : Fin n)
  | requestSubset (partition : Fin n) (requestIds : List RequestId)
  deriving DecidableEq, Repr

def AdvanceScope.partition {n : Nat} : AdvanceScope n → Fin n
  | wholePartition partition => partition
  | requestSubset partition _ => partition

structure KvCacheStore (acc : KvAccounting) (n : Nat) where
  partitions : Fin n → ResidentPartitionState acc
  ledger : RequestLedger n
  /-- Evictable completed-session KV, local to each partition. -/
  prefixCaches : Fin n → PrefixCache acc

namespace KvCacheStore

variable {acc : KvAccounting} {n : Nat}

def new (acc : KvAccounting) (n : Nat) (prefixCache : PrefixCacheBudget) : KvCacheStore acc n where
  partitions := fun _ => .new acc
  ledger := .new n
  prefixCaches := fun _ => .new acc prefixCache

def modifyPartition (store : KvCacheStore acc n) (partition : Fin n)
    (f : ResidentPartitionState acc → ResidentPartitionState acc) : KvCacheStore acc n :=
  { store with
    partitions := Function.update store.partitions partition (f (store.partitions partition)) }

def modifyPrefixCache (store : KvCacheStore acc n) (partition : Fin n)
    (f : PrefixCache acc → PrefixCache acc) : KvCacheStore acc n :=
  { store with
    prefixCaches :=
      Function.update store.prefixCaches partition (f (store.prefixCaches partition)) }

def modifyLedger (store : KvCacheStore acc n) (f : RequestLedger n → RequestLedger n) :
    KvCacheStore acc n :=
  { store with ledger := f store.ledger }

/-! ## Occupancy -/

/-- Resident, promised and held units of a partition: the hard tier. -/
def protectedUnits (store : KvCacheStore acc n) (partition : Fin n) : Nat :=
  (store.partitions partition).residentUnits + store.ledger.partitionPromised partition +
    store.ledger.partitionHeld partition

/-- Hard-tier occupancy: whichever of the immediate and the projected total is
larger. -/
def nonCachePeak (store : KvCacheStore acc n) (partition : Fin n) : Nat :=
  let reserved := store.ledger.partitionPromised partition + store.ledger.partitionHeld partition
  max ((store.partitions partition).residentUnits + reserved)
    ((store.partitions partition).cachedPeak + reserved)

/-- Capacity the hard tier is not using: the whole soft budget. -/
def softSlack (store : KvCacheStore acc n) (partition : Fin n) : Nat :=
  acc.capacityUnits - store.nonCachePeak partition

def clampedLiveCheckpointUnits (store : KvCacheStore acc n) (partition : Fin n) : Nat :=
  min (store.partitions partition).checkpointUnits (store.softSlack partition)

/-- What the retained-prefix tier may occupy. -/
def prefixCachePhysicalLimit (store : KvCacheStore acc n) (partition : Fin n) : Nat :=
  store.softSlack partition - store.clampedLiveCheckpointUnits partition

/-- The limit of the bounded-future trim: slack beside the hard tier as it is
now, less the live checkpoints. -/
def boundedSlackLimit (store : KvCacheStore acc n) (partition : Fin n) : Nat :=
  let slack := acc.capacityUnits - store.protectedUnits partition
  slack - min (store.partitions partition).checkpointUnits slack

def trimPrefixCacheToPhysicalSlack (store : KvCacheStore acc n) (partition : Fin n) :
    KvCacheStore acc n :=
  store.modifyPrefixCache partition fun cache =>
    (cache.shrinkTo (store.prefixCachePhysicalLimit partition)).1

def trimPrefixCacheToBoundedSlack (store : KvCacheStore acc n) (partition : Fin n) :
    KvCacheStore acc n :=
  store.modifyPrefixCache partition fun cache =>
    (cache.shrinkTo (store.boundedSlackLimit partition)).1

def retainPrefix (store : KvCacheStore acc n) (partition : Fin n) (sessionId : SessionId)
    (promptTokens tokens : Nat) (cacheReturnMetadata : Option PrefixCacheReturnMetadata) :
    KvCacheStore acc n :=
  store.modifyPrefixCache partition fun cache =>
    (cache.insert sessionId promptTokens tokens (store.prefixCachePhysicalLimit partition)
      cacheReturnMetadata).cache

/-! ## Admission -/

def footprint (acc : KvAccounting) (postPrefillContextTokens remainingOutputTokens : Nat) :
    KvFootprint :=
  ⟨acc.footprint postPrefillContextTokens remainingOutputTokens, .fullFootprint⟩

def fits (store : KvCacheStore acc n) (partition : Fin n) (footprint : KvFootprint) : Bool :=
  let reservedUnits := store.ledger.partitionPromised partition +
    store.ledger.partitionHeld partition + footprint.reservedUnits
  (store.partitions partition).residentUnits + reservedUnits ≤ acc.capacityUnits ∧
    (store.partitions partition).cachedPeak + reservedUnits ≤ acc.capacityUnits

def boundedFutureFootprint (acc : KvAccounting)
    (postPrefillContextTokens remainingOutputTokens maxFutureTokens pageSize : Nat) :
    KvFootprint :=
  ⟨acc.footprint postPrefillContextTokens (min remainingOutputTokens maxFutureTokens + pageSize),
    .boundedFuture⟩

/-- Future decode units the bounded-future gate leaves room for. -/
def runningFuture (store : KvCacheStore acc n) (partition : Fin n) (maxFutureTokens : Nat)
    (newTokenRatio : ℚ) (decodeStepTokens : Nat) : ℚ :=
  let future := (store.partitions partition).boundedFutureDecodeUnits maxFutureTokens newTokenRatio
  if decodeStepTokens > 0 then
    max future
      ((store.partitions partition).nextDecodeAllocationUnits 1 decodeStepTokens : ℚ)
  else future

def fitsBoundedFuture (store : KvCacheStore acc n) (partition : Fin n) (footprint : KvFootprint)
    (maxFutureTokens : Nat) (newTokenRatio : ℚ) (decodeStepTokens : Nat) : Bool :=
  ((store.protectedUnits partition + footprint.reservedUnits : Nat) : ℚ) +
      store.runningFuture partition maxFutureTokens newTokenRatio decodeStepTokens <
    (acc.capacityUnits : ℚ)

def reserve (store : KvCacheStore acc n) (request : RequestId) (partition : Fin n)
    (footprint : KvFootprint) : KvCacheStore acc n :=
  let promised := store.modifyLedger fun ledger =>
    ledger.promise request partition footprint.reservedUnits
  match footprint.basis with
  | .fullFootprint => promised.trimPrefixCacheToPhysicalSlack partition
  | .boundedFuture => promised.trimPrefixCacheToBoundedSlack partition

/-- Make room for the next decode step in the soft tier and report what is still
missing. -/
def prepareNextDecode (store : KvCacheStore acc n) (partition : Fin n)
    (pageSize stepTokens : Nat) : KvCacheStore acc n × Nat :=
  let state := store.partitions partition
  let required := state.nextDecodeAllocationUnits pageSize stepTokens
  if required = 0 then (store, 0)
  else
    let protectedNow := store.protectedUnits partition
    let slackAfterStep := acc.capacityUnits - (protectedNow + required)
    let cacheLimit := slackAfterStep - min state.checkpointUnits slackAfterStep
    let trimmed := store.modifyPrefixCache partition fun cache => (cache.shrinkTo cacheLimit).1
    let cacheUnits := (trimmed.prefixCaches partition).usedUnits
    let available := acc.capacityUnits - (protectedNow + cacheUnits)
    (trimmed, required - available)

/-! ## Prefix lookups -/

/-- The partition that retains most of a session's declared prefix, the first
one on ties. -/
def retainedPrefixPartition (store : KvCacheStore acc n) : SessionInput → Option (Fin n)
  | .standalone | .pinnedPrefix _ => none
  | .session sessionId _ declaredPrefixTokens =>
    ((List.finRange n).foldl
      (fun (best : Option (Fin n) × Nat) partition =>
        let residentTokens := (store.prefixCaches partition).peek sessionId declaredPrefixTokens
        if residentTokens > best.2 then (some partition, residentTokens) else best)
      (none, 0)).1

def previewPrefillContext (store : KvCacheStore acc n) (partition : Fin n)
    (freshPromptTokens : Nat) (sessionInput : SessionInput) : ResolvedPrefillContext :=
  let residentPrefixTokens :=
    match sessionInput with
    | .standalone => 0
    | .pinnedPrefix prefixTokens => prefixTokens
    | .session sessionId _ declaredPrefixTokens =>
      (store.prefixCaches partition).peek sessionId declaredPrefixTokens
  .new sessionInput residentPrefixTokens freshPromptTokens

/-- How much of a session's declared prefix is resident now, wherever it lives. A
pinned prefix is resident on every partition. -/
def residentPrefixTokens (store : KvCacheStore acc n) (freshPromptTokens : Nat) : SessionInput → Nat
  | .standalone => 0
  | .pinnedPrefix prefixTokens =>
    (ResolvedPrefillContext.new (.pinnedPrefix prefixTokens) prefixTokens
      freshPromptTokens).residentPrefixTokens
  | .session sessionId start declared =>
    match store.retainedPrefixPartition (.session sessionId start declared) with
    | none => 0
    | some partition =>
      (store.previewPrefillContext partition freshPromptTokens
        (.session sessionId start declared)).residentPrefixTokens

/-- Take a session's retained entry out of the cache for the request that
resolved it. -/
def takePrefix (store : KvCacheStore acc n) (partition : Fin n)
    (resolvedPrefill : ResolvedPrefillContext) : KvCacheStore acc n × ResolvedPrefillContext :=
  match resolvedPrefill.sessionId with
  | none => (store, resolvedPrefill)
  | some sessionId =>
    let taken := (store.prefixCaches partition).take sessionId resolvedPrefill.declaredPrefixTokens
    (store.modifyPrefixCache partition fun _ => taken.1,
      resolvedPrefill.withCacheReturnMetadata taken.2.returnMetadata)

def reservePrefillContext (store : KvCacheStore acc n) (request : RequestId) (partition : Fin n)
    (resolvedPrefill : ResolvedPrefillContext) (footprint : KvFootprint) : KvCacheStore acc n :=
  let (taken, resolved) := store.takePrefix partition resolvedPrefill
  (taken.modifyLedger fun ledger => ledger.setPrefillContext request resolved).reserve
    request partition footprint

/-! ## Chunked prefill -/

def reserveChunkedPrefillContext (store : KvCacheStore acc n) (request : RequestId)
    (partition : Fin n) (resolvedPrefill : ResolvedPrefillContext) (footprint : KvFootprint) :
    KvCacheStore acc n :=
  (store.reservePrefillContext request partition resolvedPrefill footprint).modifyLedger
    fun ledger => ledger.promotePromiseToChunkedPrefill request

def schedulePrefillChunk (store : KvCacheStore acc n) (request : RequestId) (partition : Fin n)
    (chunkTokens : Nat) : KvCacheStore acc n :=
  (store.modifyLedger fun ledger => ledger.schedulePrefillChunk request chunkTokens).modifyPartition
    partition fun state => state.addPrefillAdmit request

def completePrefillChunk (store : KvCacheStore acc n) (request : RequestId) : KvCacheStore acc n :=
  store.modifyLedger fun ledger => ledger.completePrefillChunk request

/-! ## Resident decodes -/

/-- The prompt length that places a request's resume positions. -/
def promptTokensOf (store : KvCacheStore acc n) (request : RequestId) (fallback : Nat) : Nat :=
  ((store.ledger.prefillContext request).map fun context =>
    context.postPrefillContextTokens).getD fallback

/-- Local KV is immediately ready: every promise becomes a prefill of the
iteration. -/
def drainReady (store : KvCacheStore acc n) : KvCacheStore acc n :=
  let (ledger, drained) := store.ledger.drainPromised
  drained.foldl
    (fun store e => store.modifyPartition e.1 fun state => state.addPrefillAdmit e.2)
    { store with ledger := ledger }

def commitResident (store : KvCacheStore acc n) (request : RequestId) (partition : Fin n)
    (postPrefillContextTokens remainingOutputTokens : Nat) : KvCacheStore acc n :=
  (store.modifyLedger fun ledger => ledger.forgetPromise request).modifyPartition partition
    fun state => state.beginDecode request postPrefillContextTokens remainingOutputTokens
      (store.promptTokensOf request postPrefillContextTokens)

def finishChunkedPrefill (store : KvCacheStore acc n) (request : RequestId) (partition : Fin n)
    (remainingOutputTokens : Nat) : KvCacheStore acc n :=
  match store.ledger.prefillContext request with
  | none => store
  | some context =>
    (store.modifyLedger fun ledger => ledger.forgetChunkedPrefill request).commitResident
      request partition context.postPrefillContextTokens remainingOutputTokens

/-- One step's growth of the requests in scope. -/
def advanceOnce (store : KvCacheStore acc n) : AdvanceScope n → KvCacheStore acc n
  | .wholePartition partition => store.modifyPartition partition fun state => state.advanceDecodes
  | .requestSubset partition requestIds =>
    store.modifyPartition partition fun state => state.advanceSubset requestIds

def advance (store : KvCacheStore acc n) (scope : AdvanceScope n) : Nat → KvCacheStore acc n
  | 0 => store
  | steps + 1 => (store.advanceOnce scope).advance scope steps

def clearPrefillAdmits (store : KvCacheStore acc n) (partition : Fin n) : KvCacheStore acc n :=
  store.modifyPartition partition fun state => state.clearPrefillAdmits

/-! ## Release -/

/-- Drop everything the ledger keeps about a request. -/
def forgetRequest (ledger : RequestLedger n) (request : RequestId) : RequestLedger n :=
  ((((ledger.takeHeld request).1.forgetPromise request).forgetChunkedPrefill
    request).forgetPlacement request).takePrefillContext request

def release (store : KvCacheStore acc n) (request : RequestId) (partition : Fin n) :
    KvCacheStore acc n :=
  (store.modifyLedger fun ledger => forgetRequest ledger request).modifyPartition partition
    fun state => state.releaseDecode request

def releaseRetainingPrefix (store : KvCacheStore acc n) (request : RequestId)
    (partition : Fin n) : KvCacheStore acc n :=
  let resolvedPrefill := store.ledger.prefillContext request
  let promptTokens := store.promptTokensOf request 0
  let retainedTokens := ((store.partitions partition).decodeCurrentKv request).getD promptTokens
  let released := store.release request partition
  match resolvedPrefill.bind fun context => context.sessionId with
  | none => released
  | some sessionId =>
    released.retainPrefix partition sessionId promptTokens retainedTokens
      (resolvedPrefill.bind fun context => context.cacheReturnMetadata)

/-- Cancellation: what is dropped depends on whether the request is placed. -/
def releaseExternal (store : KvCacheStore acc n) (request : RequestId) :
    KvCacheStore acc n × Option (Fin n) :=
  match store.ledger.placement.lookup request with
  | none =>
    (store.modifyLedger fun ledger =>
      ((ledger.takeHeld request).1.forgetChunkedPrefill request).takePrefillContext request, none)
  | some partition =>
    ((store.modifyLedger fun ledger =>
        (((ledger.forgetPlacement request).forgetPromise request).forgetChunkedPrefill
          request).takePrefillContext request).modifyPartition partition
      fun state => (state.releaseDecode request).removePrefillAdmit request, some partition)

/-! ## Handoff -/

def hold (store : KvCacheStore acc n) (partition : Fin n) (request : RequestId) (kvTokens : Nat) :
    KvCacheStore acc n :=
  store.modifyLedger fun ledger =>
    ledger.hold request partition (acc.heldWhileRunning kvTokens 1) kvTokens

def completeHandoff (store : KvCacheStore acc n) (request : RequestId) : KvCacheStore acc n :=
  match store.ledger.takeHeld request with
  | (_, none) => store
  | (ledger, some (partition, kvTokens)) =>
    let resolvedPrefill := ledger.prefillContext request
    let promptTokens := (resolvedPrefill.map fun context =>
      context.postPrefillContextTokens).getD kvTokens
    let taken := { store with ledger := ledger.takePrefillContext request }
    match resolvedPrefill.bind fun context => context.sessionId with
    | none => taken
    | some sessionId =>
      taken.retainPrefix partition sessionId promptTokens kvTokens
        (resolvedPrefill.bind fun context => context.cacheReturnMetadata)

/-! ## Reports to admission -/

def liveDecodeCount (store : KvCacheStore acc n) (partition : Fin n) : Nat :=
  (store.partitions partition).liveDecodeCount

/-- Live decodes, reservations and prefills of the iteration, a chunked prefill
counted once. -/
def statusActive (store : KvCacheStore acc n) (partition : Fin n) : Nat :=
  let state := store.partitions partition
  let scheduledChunkedPrefills :=
    (state.prefillAdmits.filter fun request => store.ledger.hasChunkedPrefill request).length
  state.liveDecodeCount + store.ledger.partitionPromisedCount partition +
    state.prefillAdmits.length - scheduledChunkedPrefills

/-! ## What the operations change

The soft tier never reaches back: trimming, taking and retaining prefixes leave
ledger and partitions alone. -/

section frame

variable (store : KvCacheStore acc n)

@[simp] theorem partitions_modifyLedger (f : RequestLedger n → RequestLedger n) :
    (store.modifyLedger f).partitions = store.partitions := rfl

@[simp] theorem ledger_modifyLedger (f : RequestLedger n → RequestLedger n) :
    (store.modifyLedger f).ledger = f store.ledger := rfl

@[simp] theorem prefixCaches_modifyLedger (f : RequestLedger n → RequestLedger n) :
    (store.modifyLedger f).prefixCaches = store.prefixCaches := rfl

@[simp] theorem ledger_modifyPartition (p : Fin n)
    (f : ResidentPartitionState acc → ResidentPartitionState acc) :
    (store.modifyPartition p f).ledger = store.ledger := rfl

@[simp] theorem prefixCaches_modifyPartition (p : Fin n)
    (f : ResidentPartitionState acc → ResidentPartitionState acc) :
    (store.modifyPartition p f).prefixCaches = store.prefixCaches := rfl

@[simp] theorem modifyPartition_self (p : Fin n)
    (f : ResidentPartitionState acc → ResidentPartitionState acc) :
    (store.modifyPartition p f).partitions p = f (store.partitions p) :=
  Function.update_self _ _ _

theorem modifyPartition_of_ne {p q : Fin n}
    (f : ResidentPartitionState acc → ResidentPartitionState acc) (h : q ≠ p) :
    (store.modifyPartition p f).partitions q = store.partitions q :=
  Function.update_of_ne h _ _

@[simp] theorem ledger_modifyPrefixCache (p : Fin n) (f : PrefixCache acc → PrefixCache acc) :
    (store.modifyPrefixCache p f).ledger = store.ledger := rfl

@[simp] theorem partitions_modifyPrefixCache (p : Fin n) (f : PrefixCache acc → PrefixCache acc) :
    (store.modifyPrefixCache p f).partitions = store.partitions := rfl

@[simp] theorem ledger_retainPrefix (p : Fin n) (sessionId : SessionId)
    (promptTokens tokens : Nat) (metadata : Option PrefixCacheReturnMetadata) :
    (store.retainPrefix p sessionId promptTokens tokens metadata).ledger = store.ledger := rfl

@[simp] theorem partitions_retainPrefix (p : Fin n) (sessionId : SessionId)
    (promptTokens tokens : Nat) (metadata : Option PrefixCacheReturnMetadata) :
    (store.retainPrefix p sessionId promptTokens tokens metadata).partitions = store.partitions :=
  rfl

@[simp] theorem ledger_takePrefix (p : Fin n) (resolved : ResolvedPrefillContext) :
    (store.takePrefix p resolved).1.ledger = store.ledger := by
  unfold takePrefix
  split <;> rfl

@[simp] theorem partitions_takePrefix (p : Fin n) (resolved : ResolvedPrefillContext) :
    (store.takePrefix p resolved).1.partitions = store.partitions := by
  unfold takePrefix
  split <;> rfl

@[simp] theorem postPrefillContextTokens_takePrefix (p : Fin n)
    (resolved : ResolvedPrefillContext) :
    (store.takePrefix p resolved).2.postPrefillContextTokens =
      resolved.postPrefillContextTokens := by
  unfold takePrefix
  split <;> rfl

@[simp] theorem ledger_reserve (r : RequestId) (p : Fin n) (f : KvFootprint) :
    (store.reserve r p f).ledger = store.ledger.promise r p f.reservedUnits := by
  unfold reserve
  cases f.basis <;> rfl

@[simp] theorem partitions_reserve (r : RequestId) (p : Fin n) (f : KvFootprint) :
    (store.reserve r p f).partitions = store.partitions := by
  unfold reserve
  cases f.basis <;> rfl

@[simp] theorem ledger_reservePrefillContext (r : RequestId) (p : Fin n)
    (resolved : ResolvedPrefillContext) (f : KvFootprint) :
    (store.reservePrefillContext r p resolved f).ledger =
      (store.ledger.setPrefillContext r (store.takePrefix p resolved).2).promise r p
        f.reservedUnits := by
  simp [reservePrefillContext]

@[simp] theorem partitions_reservePrefillContext (r : RequestId) (p : Fin n)
    (resolved : ResolvedPrefillContext) (f : KvFootprint) :
    (store.reservePrefillContext r p resolved f).partitions = store.partitions := by
  simp [reservePrefillContext]

@[simp] theorem partitions_reserveChunkedPrefillContext (r : RequestId) (p : Fin n)
    (resolved : ResolvedPrefillContext) (f : KvFootprint) :
    (store.reserveChunkedPrefillContext r p resolved f).partitions = store.partitions := by
  simp [reserveChunkedPrefillContext]

@[simp] theorem ledger_prepareNextDecode (p : Fin n) (pageSize stepTokens : Nat) :
    (store.prepareNextDecode p pageSize stepTokens).1.ledger = store.ledger := by
  simp only [prepareNextDecode]
  split <;> rfl

@[simp] theorem partitions_prepareNextDecode (p : Fin n) (pageSize stepTokens : Nat) :
    (store.prepareNextDecode p pageSize stepTokens).1.partitions = store.partitions := by
  simp only [prepareNextDecode]
  split <;> rfl

theorem addAdmits_spec (drained : List (Fin n × RequestId)) : (drained.foldl (fun store e =>
        store.modifyPartition e.1 fun state => state.addPrefillAdmit e.2) store).ledger =
        store.ledger ∧
      (drained.foldl (fun store e =>
        store.modifyPartition e.1 fun state => state.addPrefillAdmit e.2) store).prefixCaches =
        store.prefixCaches ∧
      ∀ p, ∃ admits, (drained.foldl (fun store e =>
          store.modifyPartition e.1 fun state => state.addPrefillAdmit e.2) store).partitions p =
        { store.partitions p with prefillAdmits := admits } := by
  induction drained generalizing store with
  | nil => exact ⟨rfl, rfl, fun p => ⟨_, rfl⟩⟩
  | cons e drained ih =>
    obtain ⟨hl, hc, hp⟩ := ih (store.modifyPartition e.1 fun state => state.addPrefillAdmit e.2)
    refine ⟨hl, hc, fun p => ?_⟩
    obtain ⟨admits, ha⟩ := hp p
    refine ⟨admits, ha.trans ?_⟩
    by_cases h : p = e.1
    · subst h
      rw [modifyPartition_self]
      rfl
    · rw [modifyPartition_of_ne store _ h]

@[simp] theorem ledger_drainReady : store.drainReady.ledger = store.ledger.drainPromised.1 :=
  (addAdmits_spec _ _).1

theorem partitions_drainReady (p : Fin n) : ∃ admits, store.drainReady.partitions p =
      { store.partitions p with prefillAdmits := admits } :=
  (addAdmits_spec _ _).2.2 p

@[simp] theorem ledger_advanceOnce (scope : AdvanceScope n) :
    (store.advanceOnce scope).ledger = store.ledger := by
  cases scope <;> rfl

@[simp] theorem prefixCaches_advanceOnce (scope : AdvanceScope n) :
    (store.advanceOnce scope).prefixCaches = store.prefixCaches := by
  cases scope <;> rfl

theorem advance_induction {P : KvCacheStore acc n → Prop} {scope : AdvanceScope n}
    (hstep : ∀ store, P store → P (store.advanceOnce scope)) {store : KvCacheStore acc n}
    (h : P store) (steps : Nat) : P (store.advance scope steps) := by
  induction steps generalizing store with
  | zero => exact h
  | succ steps ih => exact ih (hstep store h)

@[simp] theorem ledger_advance (scope : AdvanceScope n) (steps : Nat) :
    (store.advance scope steps).ledger = store.ledger :=
  advance_induction (P := fun s => s.ledger = store.ledger)
    (fun s h => (s.ledger_advanceOnce scope).trans h) rfl steps

@[simp] theorem prefixCaches_advance (scope : AdvanceScope n) (steps : Nat) :
    (store.advance scope steps).prefixCaches = store.prefixCaches :=
  advance_induction (P := fun s => s.prefixCaches = store.prefixCaches)
    (fun s h => (s.prefixCaches_advanceOnce scope).trans h) rfl steps

@[simp] theorem ledger_releaseRetainingPrefix (r : RequestId) (p : Fin n) :
    (store.releaseRetainingPrefix r p).ledger = (store.release r p).ledger := by
  simp only [releaseRetainingPrefix]
  split <;> rfl

@[simp] theorem partitions_releaseRetainingPrefix (r : RequestId) (p : Fin n) :
    (store.releaseRetainingPrefix r p).partitions = (store.release r p).partitions := by
  simp only [releaseRetainingPrefix]
  split <;> rfl

theorem completeHandoff_of_notMem {r : RequestId} (h : store.ledger.held.lookup r = none) :
    store.completeHandoff r = store := by
  simp [completeHandoff, RequestLedger.takeHeld, h]

theorem ledger_completeHandoff {r : RequestId} {entry : Fin n × Nat × Nat}
    (h : store.ledger.held.lookup r = some entry) :
    (store.completeHandoff r).ledger = (store.ledger.takeHeld r).1.takePrefillContext r := by
  simp only [completeHandoff, RequestLedger.takeHeld, h, Option.map_some]
  split <;> rfl

@[simp] theorem partitions_completeHandoff (r : RequestId) :
    (store.completeHandoff r).partitions = store.partitions := by
  cases h : store.ledger.held.lookup r with
  | none => rw [completeHandoff_of_notMem store h]
  | some entry =>
    simp only [completeHandoff, RequestLedger.takeHeld, h, Option.map_some]
    split <;> rfl

end frame

end KvCacheStore

end ServingSim
