import ServingSim.Admission.ChunkedPrefill

/-
  The head stage of a pipeline (`admission::pipelined_chunked_prefill_admission`) under
  its shell (`workers::pipeline::pipeline_head_worker`).

  A microbatch is formed while stage 0 is idle and the window has room. Its chunks are
  committed at once, so the next microbatch can carry the same prompt's following chunk;
  tokens are emitted, and decodes started, when the microbatch leaves the last stage.
  Exits come in the order of formation.

  Renamed (Rust ↔ Lean):
    `complete_exited_microbatches` ↔ `completeExited`
    `on_msg_request` / `on_msg_microbatch_exit` / `tick_inner` ↔ `PipelineOp.step`: a tick
      completes the exited microbatches and then, as often as time allows, ends stage 0's
      microbatch and forms the next
  The pipeline owns one attention partition. Costs, times and KV samples decide when a
  step is taken and what is reported, never what the step does; they are left out.
-/

namespace ServingSim

open KeyedTotal PendingOrderPolicy

/-- What a pipeline head is constructed with. -/
structure PipelinedConfig where
  maxBatchTokens : Nat
  chunkEndAlignment : Option ChunkEndAlignment
  /-- Pipeline depth when decodes are balanced across microbatches. -/
  balancedDepth : Option Nat
  /-- The most microbatches in flight. -/
  depth : Nat
  /-- "pipelined prefill cap must be positive" -/
  maxBatchTokens_pos : maxBatchTokens > 0
  /-- "chunk-end quantum must be positive" -/
  quantum_pos : ∀ alignment ∈ chunkEndAlignment, alignment.quantum > 0
  /-- "pipeline depth must be positive" -/
  balancedDepth_pos : ∀ depth ∈ balancedDepth, depth > 0
  /-- "a pipeline needs at least one stage" -/
  depth_pos : depth > 0

/-- One request's chunk in one microbatch, as it was committed. -/
structure PrefillChunk where
  request : RequestId
  chunkTokens : Nat
  /-- The chunk carried the prompt's last prefill tokens. -/
  finishesPrefill : Bool
  deriving DecidableEq, Repr

/-- Every prefill chunk and decode step one microbatch carries. -/
structure MicrobatchTicket where
  chunks : List PrefillChunk
  decodes : List RequestId
  deriving DecidableEq, Repr

/-- The only attention partition of a pipeline head. -/
def headPartition : Fin 1 := ⟨0, Nat.one_pos⟩

structure PipelineHeadWorker (P : Type) (acc : KvAccounting) where
  kv : IssuedStore acc 1
  requests : Requests
  policy : P
  enqueueSequence : EnqueueSequence
  /-- Prompts that have started and have prefill tokens to schedule, in start order. -/
  startedPrefills : List AdmissionCandidate
  /-- Running requests whose decode step is in a microbatch in flight. -/
  inFlightDecodes : Finset RequestId
  /-- The decodes of the microbatch being formed. -/
  scheduledDecodes : List RequestId
  nextMicrobatch : Nat
  /-- The microbatch stage 0 computes. -/
  computing : Option Nat
  inFlight : List (Nat × MicrobatchTicket)
  /-- Exits received since the last tick. -/
  exits : List Nat

namespace PipelineHeadWorker

variable {P : Type} {acc : KvAccounting}

def new (budget : PrefixCacheBudget) (requests : Requests) (policy : P) :
    PipelineHeadWorker P acc where
  kv := .new acc 1 budget
  requests := requests
  policy := policy
  enqueueSequence := ⟨0⟩
  startedPrefills := []
  inFlightDecodes := ∅
  scheduledDecodes := []
  nextMicrobatch := 1
  computing := none
  inFlight := []
  exits := []

def store (w : PipelineHeadWorker P acc) : KvCacheStore acc 1 := w.kv.store

def issue (w : PipelineHeadWorker P acc) (op : StoreOp 1) : PipelineHeadWorker P acc :=
  { w with kv := w.kv.issue op }

/-- The requests prefilled in the microbatch being formed. -/
def prefillAdmits (w : PipelineHeadWorker P acc) : List RequestId :=
  (w.store.partitions headPartition).prefillAdmits

/-- "resolved prefill context must exist for an admitted fresh request" -/
def resolvedPrefillContext (kv : IssuedStore acc 1) (r : RequestId) :
    Except String ResolvedPrefillContext :=
  required (kv.store.ledger.prefillContext r)
    "resolved prefill context must exist for an admitted fresh request"

variable [PendingOrderPolicy P]

/-! ## Arrival -/

def acceptRequest (w : PipelineHeadWorker P acc) (r : RequestId) : PipelineHeadWorker P acc :=
  let record := (w.requests r).stampStage .pending
  let (sequence, candidate) := w.enqueueSequence.freeze r record.promptTokens
    record.targetOutputTokens record.session (record.session.sessionStartOr record.arrivalTime)
    (w.store.residentPrefixTokens record.promptTokens record.session)
  { w with
    requests := Function.update w.requests r record
    enqueueSequence := sequence
    policy := push w.policy candidate }

/-! ## Forming a microbatch -/

section form

variable (cfg : PipelinedConfig)

/-- The resident decodes, in the store's order. -/
def decodeMembers (w : PipelineHeadWorker P acc) : List RequestId :=
  (w.store.partitions headPartition).decodeMembers.map Prod.fst

/-- Decodes one microbatch may carry, where they are balanced. -/
def decodeCap (w : PipelineHeadWorker P acc) : Option Nat :=
  cfg.balancedDepth.map fun depth => w.decodeMembers.length ⌈/⌉ depth

/-- Take a decode, unless the budget or the cap is reached or its last step has not
returned. -/
def scheduleDecode (w : PipelineHeadWorker P acc) (state : List RequestId × Nat) (r : RequestId) :
    List RequestId × Nat :=
  if state.2 > 0 ∧ (∀ cap ∈ w.decodeCap cfg, state.1.length < cap) ∧ r ∉ w.inFlightDecodes then
    (state.1 ++ [r], state.2 - 1)
  else state

/-- Running decodes first, one query row each. -/
def scheduleDecodes (w : PipelineHeadWorker P acc) : List RequestId × Nat :=
  w.decodeMembers.foldl (w.scheduleDecode cfg) ([], cfg.maxBatchTokens)

/-- Schedule the next chunk of each started prompt in order; the prompts that have tokens
left afterwards stay started. -/
def scheduleStarted : List AdmissionCandidate → IssuedStore acc 1 → Nat →
    Except String (IssuedStore acc 1 × Nat × List AdmissionCandidate)
  | [], kv, budget => .ok (kv, budget, [])
  | candidate :: rest, kv, budget => do
    let resolved ← resolvedPrefillContext kv candidate.requestId
    let chunkTokens := nextChunkTokens resolved budget cfg.chunkEndAlignment cfg.maxBatchTokens
    if chunkTokens = 0 then
      let (final, left, kept) ← scheduleStarted rest kv budget
      return (final, left, candidate :: kept)
    else
      let scheduled := kv.issue
        (.schedulePrefillChunk candidate.requestId headPartition chunkTokens)
      let left ← ChunkedPrefillWorker.spend budget chunkTokens
      let (final, left, kept) ← scheduleStarted rest scheduled left
      return (final, left,
        if chunkTokens < resolved.remainingPrefillTokens then candidate :: kept else kept)

/-- The head of the pending set, if every gate lets it in. -/
def gateFresh (w : PipelineHeadWorker P acc) (budget : Nat) :
    Option ChunkedPrefillWorker.Admission := do
  let candidate ← peek w.policy
  let resolved := w.store.previewPrefillContext headPartition candidate.freshPromptTokens
    candidate.sessionInput
  let chunkTokens := nextChunkTokens resolved budget cfg.chunkEndAlignment cfg.maxBatchTokens
  guard (chunkTokens ≠ 0)
  let footprint := KvCacheStore.footprint acc resolved.postPrefillContextTokens
    candidate.remainingOutputTokens
  guard (w.store.fits headPartition footprint = true)
  return ⟨candidate, resolved, chunkTokens, footprint⟩

/-- Reserve, record and schedule the first chunk of a head that passed. -/
def admitFresh (w : PipelineHeadWorker P acc) (admission : ChunkedPrefillWorker.Admission) :
    Except String (PipelineHeadWorker P acc) := do
  let ⟨candidate, resolved, chunkTokens, footprint⟩ := admission
  let r := candidate.requestId
  let reserved := { w with policy := pop w.policy }.issue
    (.reserveChunkedPrefillContext r headPartition resolved footprint)
  let record ← (w.requests r).markAdmitted.recordPrefixCacheHitTokens resolved.residentPrefixTokens
  let recorded := { reserved with
    requests := Function.update w.requests r (record.stampStage .prefill) }
  let scheduled := recorded.issue (.schedulePrefillChunk r headPartition chunkTokens)
  return if chunkTokens < resolved.remainingPrefillTokens then
      { scheduled with startedPrefills := scheduled.startedPrefills ++ [candidate] }
    else scheduled

/-- Let the policy reconcile its head with the store. -/
def refreshPolicy (w : PipelineHeadWorker P acc) : PipelineHeadWorker P acc :=
  { w with
    policy := refreshHead w.policy fun candidate =>
      w.store.residentPrefixTokens candidate.freshPromptTokens candidate.sessionInput }

/-- Admit heads until a gate stops one or the budget is spent. -/
def admitFreshPrompts : Nat → PipelineHeadWorker P acc → Nat →
    Except String (PipelineHeadWorker P acc)
  | 0, w, _ => .ok w
  | fuel + 1, w, budget =>
    if budget > 0 then
      match gateFresh cfg w.refreshPolicy budget with
      | none => .ok w.refreshPolicy
      | some admission => do
        let admitted ← w.refreshPolicy.admitFresh admission
        let left ← ChunkedPrefillWorker.spend budget admission.chunkTokens
        admitFreshPrompts fuel admitted left
    else .ok w

def formMicrobatch (w : PipelineHeadWorker P acc) :
    Except String (PipelineHeadWorker P acc × Bool) := do
  let (decodes, budget) := w.scheduleDecodes cfg
  let (kv, left, kept) ← scheduleStarted cfg w.startedPrefills w.kv budget
  let formed ← admitFreshPrompts cfg (len w.policy + 1)
    { w with kv := kv, startedPrefills := kept, scheduledDecodes := decodes } left
  return (formed, !formed.prefillAdmits.isEmpty || !decodes.isEmpty)

end form

/-! ## Committing a microbatch -/

/-- Commit the active chunk of one request. -/
def commitChunk (state : IssuedStore acc 1 × List PrefillChunk) (r : RequestId) :
    Except String (IssuedStore acc 1 × List PrefillChunk) := do
  let resolved ← resolvedPrefillContext state.1 r
  let advanced := state.1.issue (.completePrefillChunk r)
  let resolvedAfter ← resolvedPrefillContext advanced r
  return (advanced, state.2 ++
    [⟨r, resolved.activeChunk.2, decide (resolvedAfter.remainingPrefillTokens = 0)⟩])

def commitMicrobatch (w : PipelineHeadWorker P acc) :
    Except String (PipelineHeadWorker P acc × MicrobatchTicket) := do
  let (kv, chunks) ← w.prefillAdmits.foldlM commitChunk (w.kv, [])
  return ({ w with
    kv := kv.issue (.clearPrefillAdmits headPartition)
    inFlightDecodes := w.inFlightDecodes ∪ w.scheduledDecodes.toFinset
    scheduledDecodes := [] }, ⟨chunks, w.scheduledDecodes⟩)

/-- Commit what is scheduled and start stage 0 on it. -/
def launchMicrobatch (w : PipelineHeadWorker P acc) : Except String (PipelineHeadWorker P acc) := do
  let (committed, ticket) ← w.commitMicrobatch
  return { committed with
    nextMicrobatch := w.nextMicrobatch + 1
    computing := some w.nextMicrobatch
    inFlight := committed.inFlight ++ [(w.nextMicrobatch, ticket)] }

/-! ## Completing a microbatch -/

/-- A decode step emits its token; the requests it finishes are kept aside. -/
def emitToken (state : Requests × List RequestId) (r : RequestId) : Requests × List RequestId :=
  let requests := DecodeCompletion.retire state.1 r 1
  (requests, if (requests r).isComplete then state.2 ++ [r] else state.2)

/-- A chunk leaves the pipeline; the prompt's last one starts its decode. -/
def completeChunk (state : PipelineHeadWorker P acc × List RequestId) (chunk : PrefillChunk) :
    PipelineHeadWorker P acc × List RequestId :=
  let (w, completed) := state
  let r := chunk.request
  let record : RequestRecord := { w.requests r with
    prefillTokensProcessed := (w.requests r).prefillTokensProcessed + chunk.chunkTokens }
  if chunk.finishesPrefill then
    let first := record.recordFirstToken
    let stamped := first.stampStage (if first.isComplete then .done else .decode)
    let resident := { w with requests := Function.update w.requests r stamped }.issue
      (.finishChunkedPrefill r headPartition stamped.remainingOutputTokens)
    if stamped.remainingOutputTokens = 0 then
      (resident.issue (.releaseRetainingPrefix r headPartition), completed ++ [r])
    else (resident, completed)
  else ({ w with requests := Function.update w.requests r record }, completed)

def completeMicrobatch (w : PipelineHeadWorker P acc) (ticket : MicrobatchTicket) :
    PipelineHeadWorker P acc × List RequestId :=
  let (requests, finished) := ticket.decodes.foldl emitToken (w.requests, [])
  let advanced := if ticket.decodes.isEmpty then w
    else w.issue (.advance (.requestSubset headPartition ticket.decodes) 1)
  let returned := { advanced with
    requests := requests
    inFlightDecodes := w.inFlightDecodes \ ticket.decodes.toFinset }
  let released := finished.foldl
    (fun w r => w.issue (.releaseRetainingPrefix r headPartition)) returned
  ticket.chunks.foldl completeChunk (released, finished)

/-- One microbatch leaves the pipeline: it must be the oldest. -/
def completeExit (w : PipelineHeadWorker P acc) (microbatch : Nat) :
    Except String (PipelineHeadWorker P acc) :=
  match w.inFlight with
  | [] => .error "microbatch exit without one in flight"
  | (oldest, ticket) :: younger => do
    ensure (oldest = microbatch) "microbatches must leave the pipeline in formation order"
    return ({ w with inFlight := younger }.completeMicrobatch ticket).1

def completeExited (w : PipelineHeadWorker P acc) : Except String (PipelineHeadWorker P acc) :=
  w.exits.foldlM completeExit { w with exits := [] }

end PipelineHeadWorker

/-! ## The shell -/

/-- What can happen to a pipeline head. -/
inductive PipelineOp where
  | request (request : RequestId)
  | microbatchExit (microbatch : Nat)
  | completeExited
  /-- Stage 0 is through with its microbatch. -/
  | computed
  | form
  deriving DecidableEq, Repr

namespace PipelineOp

variable {P : Type} [PendingOrderPolicy P] {acc : KvAccounting}

def step (cfg : PipelinedConfig) (w : PipelineHeadWorker P acc) :
    PipelineOp → Except String (PipelineHeadWorker P acc)
  | request r => .ok (w.acceptRequest r)
  | microbatchExit microbatch => .ok { w with exits := w.exits ++ [microbatch] }
  | completeExited => w.completeExited
  | computed => .ok { w with computing := none }
  | form => do
    let (formed, hasBatch) ← w.formMicrobatch cfg
    if hasBatch then formed.launchMicrobatch else return formed

/-- When the shell takes a step: a request is delivered once, a microbatch is formed while
stage 0 is idle and the window has room. -/
def Enabled (cfg : PipelinedConfig) (w : PipelineHeadWorker P acc) : PipelineOp → Prop
  | request r => (w.requests r).stage = none
  | microbatchExit _ | completeExited => True
  | computed => w.computing ≠ none
  | form => w.computing = none ∧ w.inFlight.length < cfg.depth

instance (cfg : PipelinedConfig) (w : PipelineHeadWorker P acc) :
    (op : PipelineOp) → Decidable (Enabled cfg w op)
  | request _ => inferInstanceAs (Decidable (_ = _))
  | microbatchExit _ | completeExited => inferInstanceAs (Decidable True)
  | computed => inferInstanceAs (Decidable (_ ≠ _))
  | form => inferInstanceAs (Decidable (_ ∧ _))

end PipelineOp

end ServingSim
