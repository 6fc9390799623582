import ServingSim.Worker.PrefillHandoff
import ServingSim.Worker.PullDecode

/-
  The prefill/decode-disaggregated deployment (`orchestrator::impls::pd`,
  `orchestrator::impls::simple_dp`).

  Two data-parallel pools: one prefills and hands off, one pulls and decodes. A tick
  drives the prefill pool first and forwards what it finished to the decode pool, which
  is driven next; what has landed there is acknowledged to the worker that holds it.

  Renamed (Rust ↔ Lean):
    `SimpleDpPoolController` ↔ `DpPool` over a `WorkerPool`
    `choose_least_queued_idx`, `choose_round_robin_idx` ↔ `chooseLeastQueued`,
      `chooseRoundRobin`
  `PdOp.step` is what the simulation's driver does to the flow: a request of the trace
  arrives, or time is visited.
-/

namespace ServingSim

/-- Worker placement within a pool. -/
inductive DpPlacementPolicy where
  | leastQueued
  | roundRobin
  deriving DecidableEq, Repr

structure DpPool (m : Nat) (W : Type) where
  pool : WorkerPool m W
  placement : DpPlacementPolicy
  rrNext : Fin m

namespace DpPool

variable {m : Nat} {W Msg Event : Type} (driver : IterWorker m W Msg Event)

/-- A new pool; no worker has a wakeup. -/
def fromWorkers (hm : 0 < m) (placement : DpPlacementPolicy) (workers : Fin m → W) :
    DpPool m W where
  pool := { workers := workers, workerWakeupTimes := fun _ => noWakeupTime }
  placement := placement
  rrNext := ⟨0, hm⟩

/-- Fewer queued requests, then fewer active ones. -/
def lessLoaded (a b : WorkerStatus) : Bool :=
  a.queuedRequests < b.queuedRequests ∨
    a.queuedRequests = b.queuedRequests ∧ a.activeRequests < b.activeRequests

/-- The first least-loaded worker. -/
def chooseLeastQueued (pool : DpPool m W) : Fin m :=
  (List.finRange m).foldl
    (fun best idx =>
      if lessLoaded (driver.status (pool.pool.workers idx)) (driver.status (pool.pool.workers best))
      then idx else best)
    ⟨0, pool.rrNext.pos⟩

def chooseRoundRobin (pool : DpPool m W) : DpPool m W × Fin m :=
  ({ pool with rrNext := ⟨(pool.rrNext + 1) % m, Nat.mod_lt _ pool.rrNext.pos⟩ }, pool.rrNext)

def chooseWorker (pool : DpPool m W) : DpPool m W × Fin m :=
  match pool.placement with
  | .leastQueued => (pool, pool.chooseLeastQueued driver)
  | .roundRobin => pool.chooseRoundRobin

/-- Put a message into one worker. -/
def routeMsgTo (state : DpPool m W × World) (idx : Fin m) (msg : Msg) :
    Except String (DpPool m W × World) := do
  let (pool, world) ← WorkerPool.send driver (state.1.pool, state.2) idx msg
  return ({ state.1 with pool := pool }, world)

/-- Put a message into the worker that placement picks. -/
def admitMsg (state : DpPool m W × World) (msg : Msg) : Except String (DpPool m W × World) :=
  let (pool, idx) := state.1.chooseWorker driver
  routeMsgTo driver (pool, state.2) idx msg

end DpPool

/-- What a deployment was built with; the trace says which request an id is. -/
structure PdConfig (prefillAcc decodeAcc : KvAccounting) (m k n : Nat) where
  trace : RequestId → RequestRecord
  prefill : PdPrefillConfig prefillAcc m
  decode : PdDecodeConfig decodeAcc k n
  prefillPlacement : DpPlacementPolicy
  decodePlacement : DpPlacementPolicy
  prefixCache : PrefixCacheBudget
  /-- How a decode worker places a landed request. -/
  balance : LoadBalance
  trace_fresh : ∀ r, (trace r).Fresh ∧ (trace r).id = r
  numPrefillWorkers_pos : 0 < m
  numDecodeWorkers_pos : 0 < k
  /-- "LeastLoaded placement needs partition loads"; no decode worker is built with it. -/
  balance_blind : balance.needsLoad = false

structure PdFlow (P : Type) (prefillAcc decodeAcc : KvAccounting) (m k n : Nat) where
  world : World
  prefillPool : DpPool m (PdPrefillWorker P prefillAcc)
  decodePool : DpPool k (PullDecodeWorker decodeAcc m n)

namespace PdFlow

open PendingOrderPolicy

variable {P : Type} [PendingOrderPolicy P] {prefillAcc decodeAcc : KvAccounting} {m k n : Nat}
  (cfg : PdConfig prefillAcc decodeAcc m k n)

def prefillDriver : IterWorker m (PdPrefillWorker P prefillAcc) PdPrefillMsg (PdPrefillEvent m) :=
  PdPrefillWorker.driver cfg.prefill

def decodeDriver :
    IterWorker k (PullDecodeWorker decodeAcc m n) (PdDecodeMsg m) (PdDecodeEvent m k) :=
  PullDecodeWorker.driver cfg.decode

/-- A new deployment over a cluster. -/
def new (cluster : GpuCluster) (policies : Fin m → P) : PdFlow P prefillAcc decodeAcc m k n where
  world := { requests := cfg.trace, arrived := [], cluster := cluster }
  prefillPool := .fromWorkers cfg.numPrefillWorkers_pos cfg.prefillPlacement fun i =>
    .new (policies i) cfg.prefixCache
  decodePool := .fromWorkers cfg.numDecodeWorkers_pos cfg.decodePlacement fun _ =>
    .new m n cfg.balance

/-- Insert a request and admit it to the prefill pool. -/
def onArrival (flow : PdFlow P prefillAcc decodeAcc m k n) (r : RequestId) :
    Except String (PdFlow P prefillAcc decodeAcc m k n) := do
  let world ← flow.world.insert (cfg.trace r)
  let (prefillPool, world) ←
    DpPool.admitMsg (prefillDriver cfg) (flow.prefillPool, world) (.request r)
  return { flow with prefillPool := prefillPool, world := world }

/-- Forward one prefill event; a completion is an action. -/
def forwardPrefill (state : DpPool k (PullDecodeWorker decodeAcc m n) × World × List RequestId)
    (event : PdPrefillEvent m) :
    Except String (DpPool k (PullDecodeWorker decodeAcc m n) × World × List RequestId) := do
  let (pool, world, actions) := state
  match event with
  | .requestComplete _ r => return (pool, world, actions ++ [r])
  | .prefillDone worker r sendGid kvTokens =>
    let (pool, world) ←
      DpPool.admitMsg (decodeDriver cfg) (pool, world) (.handoff r sendGid kvTokens worker)
    return (pool, world, actions)

/-- Forward one decode event; a landed pull is acknowledged to the worker that holds it. -/
def forwardDecode (state : DpPool m (PdPrefillWorker P prefillAcc) × World × List RequestId)
    (event : PdDecodeEvent m k) :
    Except String (DpPool m (PdPrefillWorker P prefillAcc) × World × List RequestId) := do
  let (pool, world, actions) := state
  match event with
  | .requestComplete _ r => return (pool, world, actions ++ [r])
  | .pullComplete _ r prefillWorker =>
    let (pool, world) ←
      DpPool.routeMsgTo (prefillDriver cfg) (pool, world) prefillWorker (.releaseKv r)
    return (pool, world, actions)

/-- One tick: the producers first, then the consumers; the completed requests are the
actions. -/
def tick (sweep : Sweep) (flow : PdFlow P prefillAcc decodeAcc m k n) (now : Time) :
    Except String (PdFlow P prefillAcc decodeAcc m k n × List RequestId) := do
  let (prefillWorkers, world, prefillEvents) ←
    WorkerPool.tickCollect (prefillDriver cfg) sweep now (flow.prefillPool.pool, flow.world)
  let (decodePool, world, actions) ←
    prefillEvents.foldlM (forwardPrefill cfg) (flow.decodePool, world, [])
  let (decodeWorkers, world, decodeEvents) ←
    WorkerPool.tickCollect (decodeDriver cfg) sweep now (decodePool.pool, world)
  let (prefillPool, world, actions) ←
    decodeEvents.foldlM (forwardDecode cfg)
      ({ flow.prefillPool with pool := prefillWorkers }, world, actions)
  return ({ world := world
            prefillPool := prefillPool
            decodePool := { decodePool with pool := decodeWorkers } }, actions)

end PdFlow

/-- What the driver does to a deployment. -/
inductive PdOp where
  | arrive (req : RequestId)
  | tick (now : Time)
  deriving DecidableEq, Repr

/-- A deployment and the requests it reported complete, in the order it did. -/
structure PdRun (P : Type) (prefillAcc decodeAcc : KvAccounting) (m k n : Nat) where
  flow : PdFlow P prefillAcc decodeAcc m k n
  completed : List RequestId

namespace PdRun

open PendingOrderPolicy

variable {P : Type} [PendingOrderPolicy P] {prefillAcc decodeAcc : KvAccounting} {m k n : Nat}
  (cfg : PdConfig prefillAcc decodeAcc m k n)

def new (cluster : GpuCluster) (policies : Fin m → P) : PdRun P prefillAcc decodeAcc m k n :=
  ⟨.new cfg cluster policies, []⟩

def step (sweep : Sweep) (run : PdRun P prefillAcc decodeAcc m k n) :
    PdOp → Except String (PdRun P prefillAcc decodeAcc m k n)
  | .arrive r => do
    let flow ← run.flow.onArrival cfg r
    return { run with flow := flow }
  | .tick now => do
    let (flow, actions) ← PdFlow.tick cfg sweep run.flow now
    return ⟨flow, run.completed ++ actions⟩

/-- Each request of the trace arrives at most once. -/
def Arrives (run : PdRun P prefillAcc decodeAcc m k n) : PdOp → Prop
  | .arrive r => r ∉ run.flow.world.arrived
  | .tick _ => True

instance (run : PdRun P prefillAcc decodeAcc m k n) : DecidablePred run.Arrives
  | .arrive _ => inferInstanceAs (Decidable (_ ∉ _))
  | .tick _ => inferInstanceAs (Decidable True)

/-- A run of the driver. -/
def tryRun (sweep : Sweep) (run : PdRun P prefillAcc decodeAcc m k n) (ops : List PdOp) :
    Except String (PdRun P prefillAcc decodeAcc m k n) :=
  Run.tryRun (step cfg sweep) run ops

end PdRun

end ServingSim
