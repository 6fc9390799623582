import ServingSim.Admission.Config
import ServingSim.Admission.Policy
import ServingSim.Kv.StoreAsserts
import ServingSim.Kv.StoreRuns
import ServingSim.Worker.IterWorker

/-
  The prefill worker of a prefill/decode-disaggregated deployment
  (`admission::prefill_handoff_admission` under the shell of
  `workers::iter::iter_batch_worker`).

  A worker prefills one fresh request at a time. What it computed is held for the decode
  side until the decode side has pulled it; a request that wanted a single token is
  finished here and never handed off.

  Renamed (Rust ↔ Lean):
    `complete_iteration` ↔ `completeIteration`, with its two loops `finishPrefill` and
      `applyTransition`
    `IterBatchWorker::tick` ↔ `tick`, `startBatch`
  Between two ticks the shell is idle or computing: a tick never stops at a batch that is
  not started or not completed, so `computeEnd` is the whole machine. The store has one
  partition. The model's iteration cost is a parameter. Stage stamps, KV samples and the
  release time, which only logs read, are left out.
-/

namespace ServingSim

open PendingOrderPolicy

inductive PdPrefillMsg where
  /-- Admit a new request. -/
  | request (req : RequestId)
  /-- The request's KV has landed at the decode side. -/
  | releaseKv (req : RequestId)
  deriving DecidableEq, Repr

inductive PdPrefillEvent (m : Nat) where
  /-- A single-token request is finished. -/
  | requestComplete (worker : Fin m) (req : RequestId)
  /-- A request is prefilled and waits for the decode side. -/
  | prefillDone (worker : Fin m) (req : RequestId) (sendGid kvTokens : Nat)
  deriving DecidableEq, Repr

/-- What the prefill workers of a pool were built with. -/
structure PdPrefillConfig (acc : KvAccounting) (m : Nat) where
  sendGroupId : Fin m → Nat
  evaluateIteration : Fin m → KvCacheStore acc 1 → (RequestId → RequestRecord) →
    (iteration : Nat) → (now : Time) → Time

/-- A prefill worker has one partition. -/
abbrev prefillPartition : Fin 1 := 0

structure PdPrefillWorker (P : Type) (acc : KvAccounting) where
  kv : KvCacheStore acc 1
  policy : P
  enqueueSequence : EnqueueSequence
  /-- End of the running iteration; `none` while idle. -/
  computeEnd : Option Time
  iteration : Nat

namespace PdPrefillWorker

variable {P : Type} [PendingOrderPolicy P] {acc : KvAccounting} {m : Nat}

def new (policy : P) (budget : PrefixCacheBudget) : PdPrefillWorker P acc where
  kv := .new acc 1 budget
  policy := policy
  enqueueSequence := ⟨0⟩
  computeEnd := none
  iteration := 0

variable (cfg : PdPrefillConfig acc m) (idx : Fin m) (w : PdPrefillWorker P acc) (world : World)

/-! ## Messages -/

/-- A request enters the pending set; an acknowledged one is let go. -/
def acceptMessage : PdPrefillMsg → Except String (PdPrefillWorker P acc × World)
  | .request r => do
    ensure (contains w.policy r = false)
      s!"PD prefill admission is once-per-request; duplicate pending request {r}"
    let record := world.requests r
    let resident ← w.kv.tryResidentPrefixTokens record.promptTokens record.session
    let (sequence, candidate) := w.enqueueSequence.freeze r record.promptTokens 0 record.session
      (record.session.sessionStartOr record.arrivalTime) resident
    return ({ w with enqueueSequence := sequence, policy := push w.policy candidate }, world)
  | .releaseKv r => .ok ({ w with kv := w.kv.completeHandoff r }, world)

/-! ## One iteration -/

/-- Reserve the KV of the head and take it off the pending set. -/
def admitPrefill (candidate : AdmissionCandidate) (resolvedPrefill : ResolvedPrefillContext)
    (footprint : KvFootprint) : Except String (PdPrefillWorker P acc × World) := do
  let kv ← w.kv.tryReservePrefillContext candidate.requestId 0 resolvedPrefill footprint
  let record ← (world.requests candidate.requestId).markAdmitted.recordPrefixCacheHitTokens
    resolvedPrefill.residentPrefixTokens
  return ({ w with policy := pop w.policy, kv := kv },
    world.modifyRequest candidate.requestId fun _ => record)

/-- Admit the head if it fits. -/
def admitHead : Except String (PdPrefillWorker P acc × World) :=
  match peek w.policy with
  | none => .ok (w, world)
  | some candidate => do
    let resolvedPrefill ←
      w.kv.tryPreviewPrefillContext 0 candidate.freshPromptTokens candidate.sessionInput
    let footprint := KvCacheStore.footprint acc resolvedPrefill.postPrefillContextTokens 0
    if w.kv.fits 0 footprint then w.admitPrefill world candidate resolvedPrefill footprint
    else .ok (w, world)

/-- What was reserved is prefilled in the batch; whether there is anything to prefill. -/
def formBatch : Except String (PdPrefillWorker P acc × World × Bool) := do
  let (w, world) ← w.admitHead world
  let kv := w.kv.drainReady
  return ({ w with kv := kv }, world, !(kv.partitions 0).prefillAdmits.isEmpty)

/-- Emit the first token of a prefilled request and note what becomes of it. -/
def finishPrefill (kv : KvCacheStore acc 1) (state : World × List (RequestId × Nat × Bool))
    (r : RequestId) : Except String (World × List (RequestId × Nat × Bool)) := do
  let context ← required (kv.ledger.prefillContext r)
    "resolved prefill context must exist for an admitted fresh request"
  let record := { state.1.requests r with
    prefillTokensProcessed := context.prefillTokensToCompute }.recordFirstToken
  return (state.1.modifyRequest r fun _ => record,
    state.2 ++ [(r, context.postPrefillContextTokens, record.isComplete)])

/-- A complete request leaves; any other one is held and announced. -/
def applyTransition (state : KvCacheStore acc 1 × List (PdPrefillEvent m))
    (transition : RequestId × Nat × Bool) : KvCacheStore acc 1 × List (PdPrefillEvent m) :=
  let (r, kvTokens, complete) := transition
  if complete then
    (state.1.releaseRetainingPrefix r 0, state.2 ++ [.requestComplete idx r])
  else
    (state.1.hold 0 r kvTokens, state.2 ++ [.prefillDone idx r (cfg.sendGroupId idx) kvTokens])

def completeIteration :
    Except String (PdPrefillWorker P acc × World × List (PdPrefillEvent m)) := do
  let (world, transitions) ←
    (w.kv.partitions 0).prefillAdmits.foldlM (finishPrefill w.kv) (world, [])
  let (kv, events) := transitions.foldl (applyTransition cfg idx) (w.kv, [])
  return ({ w with kv := kv.clearPrefillAdmits 0, computeEnd := none }, world, events)

/-- An idle worker forms a batch and starts it. -/
def startBatch (now : Time) : Except String (PdPrefillWorker P acc × World) := do
  let (w, world, formed) ← w.formBatch world
  if formed then
    let iteration := w.iteration + 1
    return ({ w with
        iteration := iteration
        computeEnd := some (now + cfg.evaluateIteration idx w.kv world.requests iteration now) },
      world)
  else return (w, world)

def status : WorkerStatus where
  queuedRequests := len w.policy
  activeRequests := w.kv.statusActive 0

def nextWakeup (now : Time) : Option Time :=
  match w.computeEnd with
  | none => if w.status.queuedRequests > 0 ∨ w.status.activeRequests > 0 then some now else none
  | some computeEnd => some computeEnd

/-- Complete the running iteration if it is over. -/
def completeDue (now : Time) :
    Except String (PdPrefillWorker P acc × World × List (PdPrefillEvent m)) :=
  if ∃ computeEnd ∈ w.computeEnd, computeEnd ≤ now then w.completeIteration cfg idx world
  else .ok (w, world, [])

def tick (now : Time) :
    Except String (PdPrefillWorker P acc × World × List (PdPrefillEvent m) × Option Time) := do
  let (w, world, events) ← w.completeDue cfg idx world now
  let (w, world) ←
    if w.computeEnd.isNone then w.startBatch cfg idx world now else pure (w, world)
  return (w, world, events, w.nextWakeup now)

/-- The worker as a pool drives it. -/
def driver : IterWorker m (PdPrefillWorker P acc) PdPrefillMsg (PdPrefillEvent m) where
  enqueue := fun _ w world msg => w.acceptMessage world msg
  tick := fun idx w world now => w.tick cfg idx world now
  status := status

end PdPrefillWorker

end ServingSim
