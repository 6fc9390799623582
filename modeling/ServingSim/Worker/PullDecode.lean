import ServingSim.Admission.Config
import ServingSim.Kv.StoreAsserts
import ServingSim.Kv.StoreRuns
import ServingSim.Worker.IterWorker

/-
  The decode worker of a prefill/decode-disaggregated deployment
  (`workers::pd_decode::pull_decode_worker`).

  A worker runs two timelines: it pulls the KV of handed-off requests, one transfer at a
  time, and it decodes what has landed, one whole iteration at a time. Landed and
  in-flight tokens share one budget. A pull that landed is acknowledged; a landed request
  enters a decode partition when its footprint fits there.

  Renamed (Rust ↔ Lean):
    `PullPipeline` ↔ `PullPipeline`; the token count of the landed requests carries that
      it is their sum
    `on_msg_request` / `on_msg_handoff` ↔ `enqueue`
    `advance_pulls` ↔ `advancePulls`, with `landDue` and `submitHead` and the pending pulls
      as fuel
    `tick_inner` ↔ `tick`, `startBatch`
  As in the prefill worker `computeEnd` is the whole iteration machine. Every partition
  takes part in every batch. The model's iteration cost is a parameter; stage stamps and
  KV samples are left out.
-/

namespace ServingSim

/-- Bytes of a request with `len` context tokens, as a transfer moves them. -/
def KvAccounting.transferBytes (acc : KvAccounting) (len : Nat) : Nat :=
  acc.heldWhileRunning len 1 * acc.bytesPerUnit

structure TransferPlan (m : Nat) where
  sendGid : Nat
  recvGid : Nat
  tokens : Nat
  /-- The owner of the held KV at the source side. -/
  prefillWorker : Fin m
  deriving DecidableEq, Repr

structure InFlightPull (m : Nat) where
  request : RequestId
  pullEnd : Time
  prefillWorker : Fin m
  tokens : Nat
  deriving DecidableEq, Repr

structure PullPipeline (m : Nat) where
  /-- Landed, not in a decode partition yet. -/
  pendingDecodes : List (RequestId × Nat)
  pendingDecodeTokens : Nat
  /-- Handed off, not submitted yet. -/
  pendingPulls : List (RequestId × TransferPlan m)
  inFlight : Option (InFlightPull m)
  pendingDecodeTokens_eq : pendingDecodeTokens = (pendingDecodes.map Prod.snd).sum

namespace PullPipeline

variable {m : Nat} (pipeline : PullPipeline m)

theorem nothing_landed : 0 = (([] : List (RequestId × Nat)).map Prod.snd).sum := rfl

def new (m : Nat) : PullPipeline m := ⟨[], 0, [], none, nothing_landed⟩

theorem sum_land (r : RequestId) (tokens : Nat) : pipeline.pendingDecodeTokens + tokens =
      ((pipeline.pendingDecodes ++ [(r, tokens)]).map Prod.snd).sum := by
  rw [pipeline.pendingDecodeTokens_eq, List.map_append, List.sum_append, List.map_singleton,
    List.sum_singleton]

theorem sum_tail : pipeline.pendingDecodeTokens -
      (pipeline.pendingDecodes.head?.map Prod.snd).getD 0 =
    (pipeline.pendingDecodes.tail.map Prod.snd).sum := by
  rw [pipeline.pendingDecodeTokens_eq]
  cases pipeline.pendingDecodes with
  | nil => rfl
  | cons e rest =>
    rw [List.map_cons, List.sum_cons, List.head?_cons, Option.map_some, Option.getD_some,
      List.tail_cons, Nat.add_sub_cancel_left]

/-- A request is ready to decode. -/
def land (r : RequestId) (tokens : Nat) : PullPipeline m :=
  { pipeline with
    pendingDecodes := pipeline.pendingDecodes ++ [(r, tokens)]
    pendingDecodeTokens := pipeline.pendingDecodeTokens + tokens
    pendingDecodeTokens_eq := pipeline.sum_land r tokens }

/-- The first landed request enters its partition. -/
def popLanded : PullPipeline m :=
  { pipeline with
    pendingDecodes := pipeline.pendingDecodes.tail
    pendingDecodeTokens :=
      pipeline.pendingDecodeTokens - (pipeline.pendingDecodes.head?.map Prod.snd).getD 0
    pendingDecodeTokens_eq := pipeline.sum_tail }

/-- Landed and in-transit tokens. -/
def pullBacklogTokens : Nat :=
  pipeline.pendingDecodeTokens + (pipeline.inFlight.map fun pull => pull.tokens).getD 0

/-- The backlog has room for a pull, or is empty and the pull is larger than any room. -/
def Admits (budget headTokens : Nat) : Prop :=
  pipeline.pullBacklogTokens + headTokens ≤ budget ∨
    pipeline.pullBacklogTokens = 0 ∧ headTokens > budget

instance (budget headTokens : Nat) : Decidable (pipeline.Admits budget headTokens) :=
  inferInstanceAs (Decidable (_ ∨ _ ∧ _))

end PullPipeline

inductive PdDecodeMsg (m : Nat) where
  /-- Admit a request whose KV is already here. -/
  | request (req : RequestId)
  /-- Admit a prefilled request and pull its KV. -/
  | handoff (req : RequestId) (sendGid tokens : Nat) (prefillWorker : Fin m)
  deriving DecidableEq, Repr

inductive PdDecodeEvent (m k : Nat) where
  | requestComplete (worker : Fin k) (req : RequestId)
  /-- A pull landed: the prefill worker may let go of the KV. -/
  | pullComplete (worker : Fin k) (req : RequestId) (prefillWorker : Fin m)
  deriving DecidableEq, Repr

/-- What the decode workers of a pool were built with. -/
structure PdDecodeConfig (acc : KvAccounting) (k n : Nat) where
  receiveGroupId : Fin k → Nat
  pullBudgetTokens : Nat
  evaluateIteration : Fin k → KvCacheStore acc n → (RequestId → RequestRecord) →
    (iteration : Nat) → (now : Time) → Time
  partitions_pos : 0 < n

structure PullDecodeWorker (acc : KvAccounting) (m n : Nat) where
  kv : KvCacheStore acc n
  balance : LoadBalance
  pulls : PullPipeline m
  /-- End of the running iteration; `none` while idle. -/
  computeEnd : Option Time
  iteration : Nat

namespace PullDecodeWorker

variable {acc : KvAccounting} {m k n : Nat}

def new (m n : Nat) (balance : LoadBalance) : PullDecodeWorker acc m n where
  kv := .new acc n .disabled
  balance := balance
  pulls := .new m
  computeEnd := none
  iteration := 0

variable (cfg : PdDecodeConfig acc k n) (idx : Fin k) (w : PullDecodeWorker acc m n)
  (world : World)

/-! ## Messages -/

def enqueue : PdDecodeMsg m → PullDecodeWorker acc m n
  | .request r => { w with pulls := w.pulls.land r (world.requests r).promptTokens }
  | .handoff r sendGid tokens prefillWorker =>
    { w with
      pulls := { w.pulls with
        pendingPulls := w.pulls.pendingPulls ++
          [(r, ⟨sendGid, cfg.receiveGroupId idx, tokens, prefillWorker⟩)] } }

/-! ## Pulls -/

/-- The pull in flight lands once its time has come. -/
def landDue (now : Time) : PullDecodeWorker acc m n × List (PdDecodeEvent m k) :=
  match w.pulls.inFlight with
  | none => (w, [])
  | some pull =>
    if now < pull.pullEnd then (w, [])
    else
      ({ w with pulls := { w.pulls.land pull.request pull.tokens with inFlight := none } },
        [.pullComplete idx pull.request pull.prefillWorker])

/-- Submit the first pending pull if none is in flight and the backlog admits it. -/
def submitHead (now : Time) (cluster : GpuCluster) :
    Option (PullDecodeWorker acc m n × GpuCluster) :=
  match w.pulls.inFlight, w.pulls.pendingPulls with
  | none, (r, transfer) :: rest =>
    if w.pulls.Admits cfg.pullBudgetTokens transfer.tokens then
      let submitted := cluster.submitTransfer now transfer.sendGid transfer.recvGid
        (acc.transferBytes transfer.tokens)
      some ({ w with
          pulls := { w.pulls with
            pendingPulls := rest
            inFlight := some ⟨r, submitted.1, transfer.prefillWorker, transfer.tokens⟩ } },
        submitted.2)
    else none
  | _, _ => none

/-- Land and submit until a pull is in flight or the backlog is full. -/
def advanceLoop (now : Time) : Nat → PullDecodeWorker acc m n → GpuCluster →
    PullDecodeWorker acc m n × GpuCluster × List (PdDecodeEvent m k)
  | 0, w, cluster => (w, cluster, [])
  | fuel + 1, w, cluster =>
    let (landed, events) := w.landDue idx now
    match landed.submitHead cfg now cluster with
    | none => (landed, cluster, events)
    | some (submitted, cluster) =>
      let (w, cluster, rest) := advanceLoop now fuel submitted cluster
      (w, cluster, events ++ rest)

def advancePulls (now : Time) : PullDecodeWorker acc m n × World × List (PdDecodeEvent m k) :=
  let (w, cluster, events) :=
    advanceLoop cfg idx now (w.pulls.pendingPulls.length + 1) w world.cluster
  (w, { world with cluster := cluster }, events)

/-! ## One iteration -/

def anyLiveDecode : Bool := (List.finRange n).any fun p => (w.kv.partitions p).hasLiveDecode

/-- Let the first landed request into its partition if it fits there. -/
def admitLanded : Except String (PullDecodeWorker acc m n) :=
  match w.pulls.pendingDecodes with
  | [] => .ok w
  | (r, promptKv) :: _ => do
    let remaining := (world.requests r).remainingOutputTokens
    let (balance, p) ← w.balance.choose cfg.partitions_pos
    let footprint := KvCacheStore.footprint acc promptKv remaining
    if remaining = 0 ∨ w.kv.fits p footprint then
      let kv ← (w.kv.reserve r p footprint).tryCommitResident r p promptKv remaining
      return { w with balance := balance, pulls := w.pulls.popLanded, kv := kv }
    else return { w with balance := balance }

/-- Admit at most one landed request; whether there is anything to decode. -/
def formBatch : Except String (PullDecodeWorker acc m n × Bool) := do
  let hadDecode := w.anyLiveDecode
  let w ← w.admitLanded cfg world
  return (w, hadDecode || w.anyLiveDecode)

/-- Emit one token of a decode and note whether that was its last. -/
def emitToken (state : World × List RequestId) (r : RequestId) : World × List RequestId :=
  let record := (state.1.requests r).recordToken
  (state.1.modifyRequest r fun _ => record,
    if record.isComplete then state.2 ++ [r] else state.2)

/-- Emit the tokens of one partition, grow its KV and release what is complete. -/
def completePartition (state : KvCacheStore acc n × World × List (PdDecodeEvent m k))
    (p : Fin n) : Except String (KvCacheStore acc n × World × List (PdDecodeEvent m k)) := do
  let (kv, world, events) := state
  let (world, completed) :=
    ((kv.partitions p).decodeMembers.map Prod.fst).foldl emitToken (world, [])
  let advanced ← kv.tryAdvance (.wholePartition p) 1
  return (completed.foldl (fun kv r => kv.release r p) advanced, world,
    events ++ completed.map (.requestComplete idx))

def completeIteration :
    Except String (PullDecodeWorker acc m n × World × List (PdDecodeEvent m k)) := do
  let (kv, world, events) ← (List.finRange n).foldlM (completePartition idx) (w.kv, world, [])
  return ({ w with kv := kv, computeEnd := none }, world, events)

/-- An idle worker forms a batch and starts it. -/
def startBatch (now : Time) : Except String (PullDecodeWorker acc m n) := do
  let (w, formed) ← w.formBatch cfg world
  if formed then
    let iteration := w.iteration + 1
    return { w with
      iteration := iteration
      computeEnd := some (now + cfg.evaluateIteration idx w.kv world.requests iteration now) }
  else return w

def status : WorkerStatus where
  queuedRequests := w.pulls.pendingDecodes.length + w.pulls.pendingPulls.length +
    w.pulls.inFlight.toList.length
  activeRequests := ((List.finRange n).map w.kv.liveDecodeCount).sum

def nextWakeup (now : Time) : Option Time :=
  let pullWakeup := w.pulls.inFlight.map fun pull => pull.pullEnd
  let computeWakeup :=
    match w.computeEnd with
    | none => if w.pulls.pendingDecodes.isEmpty then none else some now
    | some computeEnd => some computeEnd
  match pullWakeup, computeWakeup with
  | some pull, some compute => some (min pull compute)
  | some wakeup, none | none, some wakeup => some wakeup
  | none, none => none

/-- Complete the running iteration if it is over. -/
def completeDue (now : Time) :
    Except String (PullDecodeWorker acc m n × World × List (PdDecodeEvent m k)) :=
  if ∃ computeEnd ∈ w.computeEnd, computeEnd ≤ now then w.completeIteration idx world
  else .ok (w, world, [])

def tick (now : Time) :
    Except String (PullDecodeWorker acc m n × World × List (PdDecodeEvent m k) × Option Time) := do
  let (w, world, pulled) := w.advancePulls cfg idx world now
  let (w, world, completed) ← w.completeDue idx world now
  let w ← if w.computeEnd.isNone then w.startBatch cfg idx world now else pure w
  return (w, world, pulled ++ completed, w.nextWakeup now)

/-- The worker as a pool drives it. -/
def driver : IterWorker k (PullDecodeWorker acc m n) (PdDecodeMsg m) (PdDecodeEvent m k) where
  enqueue := fun idx w world msg => .ok (w.enqueue cfg idx world msg, world)
  tick := fun idx w world now => w.tick cfg idx world now
  status := status

end PullDecodeWorker

end ServingSim
