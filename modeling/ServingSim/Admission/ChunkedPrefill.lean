import ServingSim.Admission.Config
import ServingSim.Admission.DecodeCompletion
import ServingSim.Admission.Policy

/-
  The chunked-prefill lifecycle (`admission::chunked_prefill_admission`) under
  the whole-iteration shell (`workers::iter::iter_batch_worker`).

  One state holds what the source spreads over the shell, its admission, the KV
  store and the shared request records. The store is an `IssuedStore`, so every
  state it goes through inside a step can be spoken about. A failed assertion is
  an error with the source's message.

  Renamed (Rust ↔ Lean):
    `IterBatchWorker::tick` ↔ `WorkerOp.step`: a batch is formed while idle and completed
      while computing
  A loop of the source that shrinks a finite set runs on a fuel of that set's
  size. Speculative observations, KV samples and iteration costs are written and
  not read back; they are left out.
-/

namespace ServingSim

open KeyedTotal PendingOrderPolicy

/-- Where a prefill chunk may end. -/
structure ChunkEndAlignment where
  quantum : Nat
  /-- The prompt's last checkpoint sits one block below its last whole block. -/
  lastCheckpointOneBlockEarly : Bool
  deriving DecidableEq, Repr

/-- What an admission is constructed with. -/
structure ChunkedPrefillConfig (n : Nat) where
  maxBatchTokens : Nat
  batchPolicy : BatchPolicy
  kvAdmission : KvAdmissionConfig
  chunkEndAlignment : Option ChunkEndAlignment
  decodeCompletion : DecodeCompletion
  /-- Budget tokens charged to every scheduled request on top of its rows. -/
  draftingSlots : Nat
  /-- "chunked prefill cap must be positive" -/
  maxBatchTokens_pos : maxBatchTokens > 0
  /-- "chunked prefill requires at least one partition" -/
  partitions_pos : 0 < n
  /-- "bounded-future KV admission is validated only for one attention partition" -/
  onePartition : ∀ config, kvAdmission = .boundedFuture config → n = 1
  /-- "chunk-end quantum must be positive" -/
  quantum_pos : ∀ alignment ∈ chunkEndAlignment, alignment.quantum > 0

namespace ChunkedPrefillConfig

theorem onePartition_fullFootprint : ∀ config,
    KvAdmissionConfig.fullFootprint = .boundedFuture config → 1 = 1 := fun _ _ => rfl

theorem quantum_pos_none : ∀ alignment ∈ (none : Option ChunkEndAlignment),
    alignment.quantum > 0 := fun _ h => by cases h

variable {n : Nat}

def boundedConfig (cfg : ChunkedPrefillConfig n) : Option BoundedFutureKvAdmissionConfig :=
  match cfg.kvAdmission with
  | .fullFootprint => none
  | .boundedFuture config => some config

def mixesPrefillWithDecode (cfg : ChunkedPrefillConfig n) : Bool := cfg.batchPolicy = .mix

def queryWidth (cfg : ChunkedPrefillConfig n) : Nat := cfg.decodeCompletion.queryTokensPerRequest

/-- Batch tokens one resident decode spends. -/
def decodeBudget (cfg : ChunkedPrefillConfig n) : Nat := cfg.queryWidth + cfg.draftingSlots

def initialRatio (cfg : ChunkedPrefillConfig n) : ℚ :=
  match cfg.kvAdmission with
  | .fullFootprint => 1
  | .boundedFuture config => config.initialNewTokenRatio

end ChunkedPrefillConfig

/-! ## Chunks -/

/-- Clip a chunk so that the state it leaves behind can be checkpointed. -/
def checkpointAlignedChunkTokens (start prefillEnd chunkTokens : Nat)
    (alignment : ChunkEndAlignment) (maxChunkTokens : Nat) : Nat :=
  let quantum := alignment.quantum
  if chunkTokens = 0 ∨ start ≥ prefillEnd then chunkTokens
  else
    let reached := start + chunkTokens
    let alignedEnd := reached / quantum * quantum
    let chunkEnd :=
      if reached < prefillEnd ∧ (alignedEnd > start ∨ quantum ≤ maxChunkTokens) then alignedEnd
      else reached
    let nextBoundary := (start / quantum + 1) * quantum
    let lastBoundary := prefillEnd / quantum * quantum -
      if alignment.lastCheckpointOneBlockEarly then quantum else 0
    let stops := (if start % quantum ≠ 0 then [nextBoundary] else []) ++ [lastBoundary]
    let chunkEnd := ((stops.filter fun stop => start < stop ∧ stop < chunkEnd).min?).getD chunkEnd
    chunkEnd - start

/-- The next chunk a budget can carry; zero means the request cannot run. -/
def nextChunkTokens (resolvedPrefill : ResolvedPrefillContext) (budget : Nat)
    (chunkEndAlignment : Option ChunkEndAlignment) (maxChunkTokens : Nat) : Nat :=
  let remaining := resolvedPrefill.remainingPrefillTokens
  let chunkTokens := min remaining budget
  match chunkEndAlignment with
  | none => chunkTokens
  | some alignment =>
    let start := resolvedPrefill.activeChunk.1
    checkpointAlignedChunkTokens start (start + remaining) chunkTokens alignment maxChunkTokens

/-! ## The worker -/

structure ChunkedPrefillWorker (P : Type) (acc : KvAccounting) (n : Nat) where
  kv : IssuedStore acc n
  requests : Requests
  policies : Fin n → P
  enqueueSequence : EnqueueSequence
  currentNewTokenRatio : ℚ
  balance : LoadBalance
  /-- Prompts that have started and have prefill tokens left, in start order. -/
  startedPrefills : Fin n → List AdmissionCandidate
  prefillEpisodes : Table RequestId Bool
  admissionOrder : Table RequestId Nat
  nextAdmission : Nat
  /-- Which partitions run decode in the batch. -/
  batchPlan : Fin n → Bool
  /-- A batch is formed and not completed yet. -/
  computing : Bool

namespace ChunkedPrefillWorker

variable {P : Type} {acc : KvAccounting} {n : Nat}

def new (cfg : ChunkedPrefillConfig n) (budget : PrefixCacheBudget) (requests : Requests)
    (policies : Fin n → P) (balance : LoadBalance) : ChunkedPrefillWorker P acc n where
  kv := .new acc n budget
  requests := requests
  policies := policies
  enqueueSequence := ⟨0⟩
  currentNewTokenRatio := cfg.initialRatio
  balance := balance
  startedPrefills := fun _ => []
  prefillEpisodes := ∅
  admissionOrder := ∅
  nextAdmission := 0
  batchPlan := fun _ => true
  computing := false

section state

variable (w : ChunkedPrefillWorker P acc n)

def store : KvCacheStore acc n := w.kv.store

def issue (op : StoreOp n) : ChunkedPrefillWorker P acc n := { w with kv := w.kv.issue op }

def modifyPolicy (p : Fin n) (f : P → P) : ChunkedPrefillWorker P acc n :=
  { w with policies := Function.update w.policies p (f (w.policies p)) }

def modifyRequest (r : RequestId) (f : RequestRecord → RequestRecord) :
    ChunkedPrefillWorker P acc n :=
  { w with requests := Function.update w.requests r (f (w.requests r)) }

/-- Apply an asserting method to a record. -/
def tryModifyRequest (r : RequestId) (f : RequestRecord → Except String RequestRecord) :
    Except String (ChunkedPrefillWorker P acc n) := do
  let record ← f (w.requests r)
  return { w with requests := Function.update w.requests r record }

def hasLiveDecode (p : Fin n) : Bool := (w.store.partitions p).hasLiveDecode

def anyLiveDecode : Bool := (List.finRange n).any fun p => w.hasLiveDecode p

def liveDecodeCount (p : Fin n) : Nat := w.store.liveDecodeCount p

def hasPrefillAdmit (p : Fin n) : Bool := !(w.store.partitions p).prefillAdmits.isEmpty

/-- The live decodes of a partition, as retraction visits them. -/
def decodeStates (p : Fin n) : List RequestId :=
  (w.store.partitions p).decodeStates.map Prod.fst

end state

/-- Run a worker transition on each partition in turn. -/
def forPartitions {β : Type} (f : β → Fin n → Except String β) (b : β) : Except String β :=
  (List.finRange n).foldlM f b

variable [PendingOrderPolicy P]

/-! ## Arrival -/

section arrival

variable (w : ChunkedPrefillWorker P acc n)

def partitionLoad (p : Fin n) : PartitionLoad where
  waiting := len (w.policies p)
  running := w.store.statusActive p
  kvUsage := (w.store.protectedUnits p : ℚ) / max acc.capacityUnits 1

def choosePartition (hn : 0 < n) (sessionInput : SessionInput) :
    Except String (LoadBalance × Fin n) :=
  match w.store.retainedPrefixPartition sessionInput with
  | some p => .ok (w.balance, p)
  | none =>
    if w.balance.needsLoad then w.balance.chooseByLoad hn w.partitionLoad
    else w.balance.choose hn

/-- A request enters the pending set of the partition it is placed on. -/
def acceptMessage (cfg : ChunkedPrefillConfig n) (r : RequestId) :
    Except String (ChunkedPrefillWorker P acc n) := do
  let stamped := w.modifyRequest r fun record => record.stampStage .pending
  let record := stamped.requests r
  let (sequence, candidate) := w.enqueueSequence.freeze r record.promptTokens
    record.targetOutputTokens record.session (record.session.sessionStartOr record.arrivalTime)
    (w.store.residentPrefixTokens record.promptTokens record.session)
  let (balance, p) ← w.choosePartition cfg.partitions_pos record.session
  return { stamped with enqueueSequence := sequence, balance := balance }.modifyPolicy p
    fun policy => push policy candidate

end arrival

/-! ## Retraction -/

section retraction

variable (w : ChunkedPrefillWorker P acc n)

/-- Keep the element that `better` prefers, the earlier one on ties. -/
def selectBest {α : Type} (better : α → α → Bool) (xs : List α) : Option α :=
  xs.foldl
    (fun best x =>
      match best with
      | none => some x
      | some b => if better x b then some x else some b)
    none

/-- Fewest emitted tokens, then longest input, then latest resident. -/
def lengthBetter (a b : Nat × Nat × Nat) : Bool :=
  a.1 < b.1 ∨ a.1 = b.1 ∧ (a.2.1 > b.2.1 ∨ a.2.1 = b.2.1 ∧ a.2.2 > b.2.2)

def selectLengthRetraction (p : Fin n) : Option RequestId :=
  let key := fun e : RequestId × Nat =>
    let record := w.requests e.1
    (record.outputTokensEmitted, record.promptTokens + record.session.declaredPrefixTokens, e.2)
  (selectBest (fun a b => lengthBetter (key a) (key b)) (w.decodeStates p).zipIdx).map Prod.fst

/-- The position in admission order of a resident decode. -/
def admissionOrderOf (r : RequestId) : Except String Nat :=
  required (w.admissionOrder.lookup r) "no entry found for key"

/-- The request that entered the running set most recently. -/
def selectFcfsRetraction (p : Fin n) : Except String (Option RequestId) := do
  let victim ← (w.decodeStates p).foldlM
    (fun (victim : Option (Nat × RequestId)) request => do
      let order ← w.admissionOrderOf request
      return if victim.all fun best => decide (order > best.1) then some (order, request)
        else victim)
    none
  return victim.map Prod.snd

def requeueRetracted (p : Fin n) (r : RequestId) (retractionPolicy : DecodeRetractionPolicy) :
    ChunkedPrefillWorker P acc n :=
  let record := ((w.requests r).recordRetraction).stampStage .pending
  let reprocessedInputTokens := record.promptTokens + record.outputTokensEmitted
  let (sequence, candidate) := w.enqueueSequence.freezeRetracted r reprocessedInputTokens
    record.remainingOutputTokens record.session
    (record.session.sessionStartOr record.arrivalTime)
    (w.store.residentPrefixTokens reprocessedInputTokens record.session)
  { w with
    requests := Function.update w.requests r record
    enqueueSequence := sequence
    admissionOrder := w.admissionOrder.erase r }.modifyPolicy p fun policy =>
      match retractionPolicy with
      | .length => push policy candidate
      | .fcfs => pushFront policy candidate

/-- The request a retraction evicts. -/
def selectRetraction (p : Fin n) (policy : DecodeRetractionPolicy) : Except String RequestId := do
  let victim ← match policy with
    | .length => pure (w.selectLengthRetraction p)
    | .fcfs => w.selectFcfsRetraction p
  required victim "decode shortfall requires a retraction candidate"

/-- Release and requeue one live decode; the last one must not be needed. -/
def retractOne (config : BoundedFutureKvAdmissionConfig) (p : Fin n) :
    Except String (ChunkedPrefillWorker P acc n) := do
  ensure (w.liveDecodeCount p > 1)
    "bounded-future decode cannot fit its last request; abort lifecycle is required"
  let request ← w.selectRetraction p config.retractionPolicy
  return (w.issue (.release request p)).requeueRetracted p request config.retractionPolicy

/-- Retract decodes of one partition until its next decode step fits. -/
def retractUntilFits (config : BoundedFutureKvAdmissionConfig) (stepTokens : Nat) (p : Fin n) :
    Nat → ChunkedPrefillWorker P acc n × Bool → Except String (ChunkedPrefillWorker P acc n × Bool)
  | 0, state => .ok state
  | fuel + 1, (w, retracted) =>
    if w.hasLiveDecode p then do
      let deficit := (w.store.prepareNextDecode p config.pageSize stepTokens).2
      let prepared := w.issue (.prepareNextDecode p config.pageSize stepTokens)
      if deficit > 0 then
        retractUntilFits config stepTokens p fuel (← prepared.retractOne config p, true)
      else return (prepared, retracted)
    else return (w, retracted)

def decayNewTokenRatio (config : BoundedFutureKvAdmissionConfig) : ChunkedPrefillWorker P acc n :=
  let decay := (config.initialNewTokenRatio - config.minimumNewTokenRatio) /
    config.newTokenRatioDecaySteps
  { w with
    currentNewTokenRatio := max (w.currentNewTokenRatio - decay) config.minimumNewTokenRatio }

def updateRatioAfterRetraction (config : BoundedFutureKvAdmissionConfig) :
    ChunkedPrefillWorker P acc n :=
  let resident := (List.finRange n).flatMap w.decodeStates
  let decodedTokens := (resident.map fun r => (w.requests r).outputTokensEmitted).sum
  let maxNewTokens := (resident.map fun r => (w.requests r).targetOutputTokens).sum
  let numerator := decodedTokens + config.retractDecodeSteps * resident.length
  { w with currentNewTokenRatio := min ((numerator : ℚ) / (maxNewTokens + 1 : Nat)) 1 }

/-- Retract decodes until every partition fits its next decode step; the fuel is
one more than the live decodes, each retraction takes one away. -/
def prepareDecode (config : BoundedFutureKvAdmissionConfig) (stepTokens : Nat) :
    Except String (ChunkedPrefillWorker P acc n × Bool) := do
  let (prepared, retractedAny) ← forPartitions
    (fun state p =>
      retractUntilFits config stepTokens p (state.1.liveDecodeCount p + 1) state)
    (w, false)
  return (if retractedAny then prepared.updateRatioAfterRetraction config
    else prepared.decayNewTokenRatio config, retractedAny)

end retraction

/-! ## Forming a batch -/

section formBatch

variable (cfg : ChunkedPrefillConfig n)

/-- Verify windows left for prompts that will start decoding, when a decode
spends more than one row. -/
def futureDecodeSlots (w : ChunkedPrefillWorker P acc n) (p : Fin n) : Option Nat :=
  if cfg.queryWidth > 1 then
    let started := ((w.startedPrefills p).filter fun c => c.remainingOutputTokens > 1).length
    some (cfg.maxBatchTokens / cfg.decodeBudget - w.liveDecodeCount p - started)
  else none

/-- Batch tokens a partition has left for prefill. -/
def remainingBudget (w : ChunkedPrefillWorker P acc n) (p : Fin n) : Nat :=
  if cfg.mixesPrefillWithDecode then
    cfg.maxBatchTokens - w.liveDecodeCount p * cfg.decodeBudget
  else cfg.maxBatchTokens

/-- "resolved prefill context must exist for an admitted fresh request" -/
def resolvedPrefillContext (w : ChunkedPrefillWorker P acc n) (r : RequestId) :
    Except String ResolvedPrefillContext :=
  required (w.store.ledger.prefillContext r)
    "resolved prefill context must exist for an admitted fresh request"

/-- A subtraction that is checked for overflow. -/
def spend (budget tokens : Nat) : Except String Nat := do
  ensure (tokens ≤ budget) "attempt to subtract with overflow"
  return budget - tokens

/-- Schedule the next chunk of each started prompt in order; the prompts that
have tokens left afterwards stay started. -/
def scheduleStarted (p : Fin n) : List AdmissionCandidate → ChunkedPrefillWorker P acc n → Nat →
    Except String (ChunkedPrefillWorker P acc n × Nat × List AdmissionCandidate)
  | [], w, budget => .ok (w, budget, [])
  | candidate :: rest, w, budget => do
    let resolved ← w.resolvedPrefillContext candidate.requestId
    let chunkTokens := nextChunkTokens resolved (budget - cfg.draftingSlots)
      cfg.chunkEndAlignment cfg.maxBatchTokens
    if chunkTokens = 0 then
      let (final, left, kept) ← scheduleStarted p rest w budget
      return (final, left, candidate :: kept)
    else
      let scheduled := w.issue (.schedulePrefillChunk candidate.requestId p chunkTokens)
      let left ← spend budget (chunkTokens + cfg.draftingSlots)
      let (final, left, kept) ← scheduleStarted p rest scheduled left
      return (final, left,
        if chunkTokens < resolved.remainingPrefillTokens then candidate :: kept else kept)

/-- A head that passed every gate, with what its admission uses. -/
structure Admission where
  candidate : AdmissionCandidate
  resolvedPrefill : ResolvedPrefillContext
  chunkTokens : Nat
  footprint : KvFootprint

def admissionFootprint (acc : KvAccounting) (resolved : ResolvedPrefillContext)
    (candidate : AdmissionCandidate) : KvFootprint :=
  match cfg.boundedConfig with
  | none => KvCacheStore.footprint acc resolved.postPrefillContextTokens
      candidate.remainingOutputTokens
  | some config => KvCacheStore.boundedFutureFootprint acc resolved.postPrefillContextTokens
      candidate.remainingOutputTokens config.maxFutureTokens config.pageSize

def admissionFits (w : ChunkedPrefillWorker P acc n) (p : Fin n) (footprint : KvFootprint) : Bool :=
  match cfg.boundedConfig with
  | none => w.store.fits p footprint
  | some config => w.store.fitsBoundedFuture p footprint config.maxFutureTokens
      w.currentNewTokenRatio (if cfg.mixesPrefillWithDecode then cfg.queryWidth else 0)

/-- The head of the pending set, if every gate lets it in; `budget` is what its chunk may
take. -/
def gateHead (w : ChunkedPrefillWorker P acc n) (p : Fin n) (budget : Nat) (slots : Option Nat) :
    Option Admission := do
  let candidate ← peek (w.policies p)
  guard ¬ (candidate.remainingOutputTokens > 1 ∧ slots = some 0)
  let resolved := w.store.previewPrefillContext p candidate.freshPromptTokens
    candidate.sessionInput
  let chunkTokens := nextChunkTokens resolved budget cfg.chunkEndAlignment cfg.maxBatchTokens
  guard (chunkTokens ≠ 0)
  let footprint := admissionFootprint cfg acc resolved candidate
  guard (admissionFits cfg w p footprint = true)
  return ⟨candidate, resolved, chunkTokens, footprint⟩

/-- Reserve, record and schedule the first chunk of a head that passed. -/
def admitHead (w : ChunkedPrefillWorker P acc n) (p : Fin n) (admission : Admission) :
    Except String (ChunkedPrefillWorker P acc n) := do
  let ⟨candidate, resolved, chunkTokens, footprint⟩ := admission
  let r := candidate.requestId
  let popped := { w.modifyPolicy p pop with
    admissionOrder := w.admissionOrder.insert r w.nextAdmission
    nextAdmission := w.nextAdmission + 1 }
  let reserved := popped.issue (.reserveChunkedPrefillContext r p resolved footprint)
  let recorded ← (reserved.modifyRequest r fun record => record.markAdmitted).tryModifyRequest r
    fun record =>
      if candidate.retracted then record.beginReprocessedPrefill resolved.residentPrefixTokens
      else record.recordPrefixCacheHitTokens resolved.residentPrefixTokens
  let stamped := recorded.modifyRequest r fun record => record.stampStage .prefill
  ensure (stamped.prefillEpisodes.lookup r = none)
    "request entered two simultaneous prefill episodes"
  let opened := { stamped with
    prefillEpisodes := stamped.prefillEpisodes.insert r candidate.retracted }
  let scheduled := opened.issue (.schedulePrefillChunk r p chunkTokens)
  return if chunkTokens < resolved.remainingPrefillTokens then
      { scheduled with
        startedPrefills := Function.update scheduled.startedPrefills p
          (scheduled.startedPrefills p ++ [candidate]) }
    else scheduled

/-- Let the policy reconcile its head with the store. -/
def refreshPolicy (w : ChunkedPrefillWorker P acc n) (p : Fin n) : ChunkedPrefillWorker P acc n :=
  w.modifyPolicy p fun policy => refreshHead policy fun candidate =>
    w.store.residentPrefixTokens candidate.freshPromptTokens candidate.sessionInput

/-- A prompt that will decode takes one of the verify windows left. -/
def claimWindow (candidate : AdmissionCandidate) : Option Nat → Except String (Option Nat)
  | none => .ok none
  | some slots =>
    if candidate.remainingOutputTokens > 1 then do
      let left ← spend slots 1
      return some left
    else .ok (some slots)

/-- Admit heads until a gate stops one. -/
def admitFresh (p : Fin n) : Nat → ChunkedPrefillWorker P acc n → Nat → Option Nat →
    Except String (ChunkedPrefillWorker P acc n)
  | 0, w, _, _ => .ok w
  | fuel + 1, w, budget, slots =>
    if budget > cfg.draftingSlots then do
      let refreshed := w.refreshPolicy p
      let chunkBudget ← spend budget cfg.draftingSlots
      match gateHead cfg refreshed p chunkBudget slots with
      | none => return refreshed
      | some admission =>
        let slots ← claimWindow admission.candidate slots
        let admitted ← refreshed.admitHead p admission
        let left ← spend budget (admission.chunkTokens + cfg.draftingSlots)
        admitFresh p fuel admitted left slots
    else return w

/-- A started prompt's partition is scheduled with what the budget left. -/
def scheduleStartedOn (state : ChunkedPrefillWorker P acc n × (Fin n → Nat)) (p : Fin n) :
    Except String (ChunkedPrefillWorker P acc n × (Fin n → Nat)) := do
  let (scheduled, left, kept) ←
    scheduleStarted cfg p (state.1.startedPrefills p) state.1 (state.2 p)
  return ({ scheduled with startedPrefills := Function.update scheduled.startedPrefills p kept },
    Function.update state.2 p left)

/-- Retraction before admission: a mixing engine schedules its running decodes
first. -/
def prepareBeforeAdmission (w : ChunkedPrefillWorker P acc n) :
    Except String (ChunkedPrefillWorker P acc n × Bool) :=
  match cfg.boundedConfig with
  | some config =>
    if cfg.mixesPrefillWithDecode && w.anyLiveDecode then w.prepareDecode config cfg.queryWidth
    else .ok (w, false)
  | none => .ok (w, false)

/-- Retraction on a decode-only iteration of an engine that does not mix. -/
def prepareDecodeOnly (w : ChunkedPrefillWorker P acc n) (hadPrefill hadDecode : Bool) :
    Except String (ChunkedPrefillWorker P acc n × Bool) :=
  match cfg.boundedConfig with
  | some config =>
    if !cfg.mixesPrefillWithDecode && !hadPrefill && hadDecode then do
      let (prepared, _) ← w.prepareDecode config cfg.queryWidth
      return (prepared, prepared.anyLiveDecode)
    else .ok (w, hadDecode)
  | none => .ok (w, hadDecode)

/-- Schedule the prefills of a batch: started prompts first, then fresh heads
unless this batch retracted. -/
def schedulePrefills (w : ChunkedPrefillWorker P acc n) (retracted : Bool) :
    Except String (ChunkedPrefillWorker P acc n) := do
  let slots := w.futureDecodeSlots cfg
  let (scheduled, budgets) ← forPartitions (scheduleStartedOn cfg) (w, w.remainingBudget cfg)
  if retracted then return scheduled
  else
    forPartitions
      (fun w p => admitFresh cfg p (len (w.policies p) + 1) w (budgets p) (slots p))
      scheduled

/-- Back to the initial ratio once nothing waits, starts or runs. -/
def resetRatioWhenIdle (w : ChunkedPrefillWorker P acc n) (hasBatch : Bool) :
    ChunkedPrefillWorker P acc n :=
  if !hasBatch && (List.finRange n).all (fun p => len (w.policies p) = 0) &&
      (List.finRange n).all (fun p => (w.startedPrefills p).isEmpty) then
    match cfg.boundedConfig with
    | some config => { w with currentNewTokenRatio := config.initialNewTokenRatio }
    | none => w
  else w

def formBatch (w : ChunkedPrefillWorker P acc n) :
    Except String (ChunkedPrefillWorker P acc n × Bool) := do
  let (prepared, retracted) ←
    ({ w with batchPlan := fun _ => true } : ChunkedPrefillWorker P acc n).prepareBeforeAdmission
      cfg
  let hadDecode := prepared.anyLiveDecode
  let scheduled ← prepared.schedulePrefills cfg retracted
  let hadPrefill := (List.finRange n).any fun p => scheduled.hasPrefillAdmit p
  let planned := { scheduled with
    batchPlan := fun p => cfg.mixesPrefillWithDecode || !scheduled.hasPrefillAdmit p }
  let (ready, hadDecode) ← planned.prepareDecodeOnly cfg hadPrefill hadDecode
  let hasBatch := hadDecode || hadPrefill
  return (ready.resetRatioWhenIdle cfg hasBatch, hasBatch)

end formBatch

/-! ## Completing an iteration -/

section completeIteration

variable (cfg : ChunkedPrefillConfig n)

/-- What a completed chunk does to the request's record. -/
def recordChunk (reprocessed finished : Bool) (chunkTokens : Nat) (record : RequestRecord) :
    Except String RequestRecord := do
  let recorded ←
    if reprocessed then record.recordReprocessedPrefillTokens chunkTokens
    else pure { record with
      prefillTokensProcessed := record.prefillTokensProcessed + chunkTokens }
  if finished then
    let emitted ←
      if reprocessed then do
        let closed ← recorded.completeReprocessedPrefill
        pure closed.recordToken
      else pure recorded.recordFirstToken
    return emitted.stampStage (if emitted.isComplete then .done else .decode)
  else return recorded

/-- Complete the active chunk of one scheduled prefill; the last chunk starts the
request's decode. -/
def completePrefill (p : Fin n) (state : ChunkedPrefillWorker P acc n × List RequestId)
    (r : RequestId) : Except String (ChunkedPrefillWorker P acc n × List RequestId) := do
  let (w, completed) := state
  let reprocessed ← required (w.prefillEpisodes.lookup r)
    "scheduled prefill requires episode metadata"
  let resolved ← w.resolvedPrefillContext r
  let chunkTokens := resolved.activeChunk.2
  let advanced := w.issue (.completePrefillChunk r)
  let resolvedAfter ← advanced.resolvedPrefillContext r
  let finished := resolvedAfter.remainingPrefillTokens = 0
  let recorded ← advanced.tryModifyRequest r (recordChunk reprocessed finished chunkTokens)
  if finished then
    let closed := { recorded with prefillEpisodes := recorded.prefillEpisodes.erase r }
    let record := closed.requests r
    let resident := closed.issue (.finishChunkedPrefill r p record.remainingOutputTokens)
    return (resident, if record.isComplete then completed ++ [r] else completed)
  else return (recorded, completed)

/-- Retire the partition's decodes when it runs decode. -/
def completeDecodesOn (p : Fin n) (w : ChunkedPrefillWorker P acc n) :
    Except String (ChunkedPrefillWorker P acc n × List RequestId) :=
  if w.batchPlan p then do
    let (kv, requests, completed) ← cfg.decodeCompletion.completeDecodes w.kv w.requests p
    return ({ w with kv := kv, requests := requests }, completed)
  else .ok (w, [])

/-- Release a finished request, keeping its prefix for its session. -/
def releaseCompleted (p : Fin n) (w : ChunkedPrefillWorker P acc n) (r : RequestId) :
    ChunkedPrefillWorker P acc n :=
  { w with admissionOrder := w.admissionOrder.erase r }.issue (.releaseRetainingPrefix r p)

/-- Complete one partition's part of the iteration; the finished requests are the
events. -/
def completePartition (state : ChunkedPrefillWorker P acc n × List RequestId) (p : Fin n) :
    Except String (ChunkedPrefillWorker P acc n × List RequestId) := do
  let decoded ← state.1.completeDecodesOn cfg p
  let (prefilled, completed) ←
    (decoded.1.store.partitions p).prefillAdmits.foldlM (completePrefill p) decoded
  let cleared := prefilled.issue (.clearPrefillAdmits p)
  return (completed.foldl (releaseCompleted p) cleared, state.2 ++ completed)

def completeIteration (w : ChunkedPrefillWorker P acc n) :
    Except String (ChunkedPrefillWorker P acc n × List RequestId) :=
  forPartitions (completePartition cfg) (w, [])

end completeIteration

/-! ## Cancellation -/

section cancel

variable (w : ChunkedPrefillWorker P acc n)

/-- Drop a request from the admission queues; `true` when it was pending. -/
def cancelPending (r : RequestId) : ChunkedPrefillWorker P acc n × Bool :=
  match (List.finRange n).find? fun p => (remove (w.policies p) r).1.isSome with
  | some p => (w.modifyPolicy p fun policy => (remove policy r).2, true)
  | none =>
    let wasStarted := (List.finRange n).any fun p =>
      (w.startedPrefills p).any fun c => c.requestId = r
    ({ w with
      startedPrefills := fun p => (w.startedPrefills p).filter fun c => c.requestId ≠ r
      prefillEpisodes := if wasStarted then w.prefillEpisodes.erase r else w.prefillEpisodes },
      false)

def releaseRequest (r : RequestId) : ChunkedPrefillWorker P acc n :=
  let (cancelled, wasPending) := w.cancelPending r
  if wasPending then cancelled else cancelled.issue (.releaseExternal r)

end cancel

end ChunkedPrefillWorker

/-! ## The shell -/

/-- What can happen to a worker. -/
inductive WorkerOp where
  | enqueue (request : RequestId)
  | formBatch
  | completeIteration
  | release (request : RequestId)
  deriving DecidableEq, Repr

namespace WorkerOp

variable {P : Type} [PendingOrderPolicy P] {acc : KvAccounting} {n : Nat}

def step (cfg : ChunkedPrefillConfig n) (w : ChunkedPrefillWorker P acc n) :
    WorkerOp → Except String (ChunkedPrefillWorker P acc n)
  | enqueue r => w.acceptMessage cfg r
  | formBatch => do
    let (formed, hasBatch) ← w.formBatch cfg
    return { formed with computing := hasBatch }
  | completeIteration => do
    let (completed, _) ← w.completeIteration cfg
    return { completed with computing := false }
  | release r => .ok (w.releaseRequest r)

theorem step_formBatch {cfg : ChunkedPrefillConfig n} {w w' : ChunkedPrefillWorker P acc n}
    (h : step cfg w .formBatch = .ok w') : ∃ formed hasBatch,
      w.formBatch cfg = .ok (formed, hasBatch) ∧ { formed with computing := hasBatch } = w' := by
  obtain ⟨⟨formed, hasBatch⟩, hform, h⟩ := bind_eq_ok_iff.mp h
  exact ⟨formed, hasBatch, hform, Except.ok.inj h⟩

theorem step_completeIteration {cfg : ChunkedPrefillConfig n} {w w' : ChunkedPrefillWorker P acc n}
    (h : step cfg w .completeIteration = .ok w') : ∃ completed events,
      w.completeIteration cfg = .ok (completed, events) ∧
        { completed with computing := false } = w' := by
  obtain ⟨⟨completed, events⟩, hcomplete, h⟩ := bind_eq_ok_iff.mp h
  exact ⟨completed, events, hcomplete, Except.ok.inj h⟩

/-- When the shell takes a step: a request is delivered once, a batch is formed
while idle and completed while computing, a cancellation comes at any time. -/
def Enabled (w : ChunkedPrefillWorker P acc n) : WorkerOp → Prop
  | enqueue r => (w.requests r).stage = none
  | formBatch => w.computing = false
  | completeIteration => w.computing = true
  | release _ => True

instance (w : ChunkedPrefillWorker P acc n) : (op : WorkerOp) → Decidable (Enabled w op)
  | enqueue _ | formBatch | completeIteration => inferInstanceAs (Decidable (_ = _))
  | release _ => inferInstanceAs (Decidable True)

end WorkerOp

end ServingSim
