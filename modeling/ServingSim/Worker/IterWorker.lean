import ServingSim.Common.RequestRecord
import ServingSim.Worker.GpuCluster
import ServingSim.Lib.Run

/-
  Workers and the pools that drive them (`worker::iter_worker`, `orchestrator::impls`).

  A worker takes messages, advances when it is ticked, pushes events and says when it
  wants to be ticked next. A pool keeps every worker's wakeup time: it ticks only the
  workers that are due, and a message wakes a worker that had no wakeup. All pools but
  the pipeline's share this shape.

  `Sweep` says which workers a pool ticks: the due ones, as the source does, or every
  one. What the orchestrators do between the sweeps is the same for both.

  Renamed (Rust ↔ Lean):
    `SharedRequests`, `SharedGpuCluster` ↔ `World`, passed along
    `worker_wakeup_times`, `tick_collect` ↔ `WorkerPool`, `WorkerPool.tickCollect`
    enqueue and wake (`admit_msg`, `route_msg_to`, `submit`, `wake`) ↔ `WorkerPool.send`
-/

namespace ServingSim

/-- What all workers of a run share: the records of the arrived requests and the transfer
oracle. -/
structure World where
  requests : RequestId → RequestRecord
  arrived : List RequestId
  cluster : GpuCluster

namespace World

/-- Insert one released request. -/
def insert (world : World) (record : RequestRecord) : Except String World := do
  ensure (record.id ∉ world.arrived) s!"request id {record.id} inserted twice"
  return { world with
    requests := Function.update world.requests record.id record
    arrived := record.id :: world.arrived }

def modifyRequest (world : World) (r : RequestId) (f : RequestRecord → RequestRecord) : World :=
  { world with requests := Function.update world.requests r (f (world.requests r)) }

@[simp] theorem modifyRequest_arrived (world : World) (r : RequestId)
    (f : RequestRecord → RequestRecord) : (world.modifyRequest r f).arrived = world.arrived := rfl

@[simp] theorem modifyRequest_self (world : World) (r : RequestId)
    (f : RequestRecord → RequestRecord) :
    (world.modifyRequest r f).requests r = f (world.requests r) := Function.update_self ..

theorem modifyRequest_of_ne (world : World) {r s : RequestId} (h : s ≠ r)
    (f : RequestRecord → RequestRecord) :
    (world.modifyRequest r f).requests s = world.requests s := Function.update_of_ne h ..

end World

structure WorkerStatus where
  queuedRequests : Nat
  activeRequests : Nat
  deriving DecidableEq, Repr

/-- The surface a pool drives its `m` workers through. -/
structure IterWorker (m : Nat) (W Msg Event : Type) where
  enqueue : Fin m → W → World → Msg → Except String (W × World)
  /-- Advance to `now`: the events pushed, and when to be ticked again. -/
  tick : Fin m → W → World → Time → Except String (W × World × List Event × Option Time)
  status : W → WorkerStatus

/-- Sentinel for a quiescent worker. -/
def noWakeupTime : Time := 2 ^ 64 - 1

/-- Which workers a pool ticks. -/
inductive Sweep where
  /-- Those whose wakeup is due. -/
  | due
  /-- Every worker at every visited time. -/
  | every
  deriving DecidableEq, Repr

def Sweep.ticks (sweep : Sweep) (wakeup now : Time) : Bool :=
  match sweep with
  | .due => wakeup ≤ now
  | .every => true

structure WorkerPool (m : Nat) (W : Type) where
  workers : Fin m → W
  workerWakeupTimes : Fin m → Time

namespace WorkerPool

variable {m : Nat} {W Msg Event : Type} (driver : IterWorker m W Msg Event)

/-- A message makes a worker without a wakeup due; a computing worker keeps its wakeup. -/
def wake (wakeups : Fin m → Time) (idx : Fin m) : Fin m → Time :=
  if wakeups idx = noWakeupTime then Function.update wakeups idx 0 else wakeups

/-- Put a message into a worker and wake it. -/
def send (state : WorkerPool m W × World) (idx : Fin m) (msg : Msg) :
    Except String (WorkerPool m W × World) := do
  let (pool, world) := state
  let (w, world) ← driver.enqueue idx (pool.workers idx) world msg
  return ({ workers := Function.update pool.workers idx w
            workerWakeupTimes := wake pool.workerWakeupTimes idx }, world)

/-- One worker's turn of the sweep. -/
def tickOne (sweep : Sweep) (now : Time) (state : WorkerPool m W × World × List Event)
    (idx : Fin m) : Except String (WorkerPool m W × World × List Event) := do
  let (pool, world, events) := state
  if sweep.ticks (pool.workerWakeupTimes idx) now then
    let (w, world, pushed, wakeup) ← driver.tick idx (pool.workers idx) world now
    return ({ workers := Function.update pool.workers idx w
              workerWakeupTimes :=
                Function.update pool.workerWakeupTimes idx (wakeup.getD noWakeupTime) },
      world, events ++ pushed)
  else return state

def tickCollect (sweep : Sweep) (now : Time) (state : WorkerPool m W × World) :
    Except String (WorkerPool m W × World × List Event) :=
  (List.finRange m).foldlM (tickOne driver sweep now) (state.1, state.2, [])

end WorkerPool

end ServingSim
