import ServingSim.Common.Request

/-
  The transfer timing oracle (`worker::gpu_cluster`).

  A comm group sends and receives as a unit. A transfer starts when both its sides are
  idle and holds them to its end; a gather starts when every sender and the receiver are
  idle, frees each sender after its own slice and the receiver when all bytes landed.

  The profiled cost curves are floating point and come as parameters: the time a side
  with so many links needs for so many bytes, and the latency. The GPU registry, the KV
  pool facts and the network log are written for reports only and are left out.
-/

namespace ServingSim

/-- Where a transfer's time comes from. -/
structure CostSource where
  /-- Time a side with `count` links carries `bytes`. -/
  linkTime : (bytes count : Nat) → Time
  /-- One-time latency of a transfer. -/
  latency : Time

/-- One communication group: how many links it has and when they are idle. -/
structure CommGroup where
  count : Nat
  sendFree : Time
  recvFree : Time
  deriving DecidableEq, Repr

structure GpuCluster where
  groups : Nat → CommGroup
  cost : CostSource

namespace GpuCluster

variable (cluster : GpuCluster)

def setSendFree (gid : Nat) (free : Time) : GpuCluster :=
  { cluster with
    groups := Function.update cluster.groups gid { cluster.groups gid with sendFree := free } }

def setRecvFree (gid : Nat) (free : Time) : GpuCluster :=
  { cluster with
    groups := Function.update cluster.groups gid { cluster.groups gid with recvFree := free } }

/-- One synchronized transfer; the slower side bounds it. -/
def submitTransfer (now : Time) (sendGid recvGid bytes : Nat) : Time × GpuCluster :=
  let s := cluster.groups sendGid
  let r := cluster.groups recvGid
  if s.count = 0 ∨ r.count = 0 then (now, cluster)
  else
    let sendDur := cluster.cost.linkTime bytes s.count
    let recvDur := cluster.cost.linkTime bytes r.count
    let start := max (max now s.sendFree) r.recvFree
    let finish := start + max sendDur recvDur
    (finish, (cluster.setSendFree sendGid finish).setRecvFree recvGid finish)

/-- The sources of a gather that have bytes to send and links to send them on. -/
def liveSources (sources : List (Nat × Nat)) : List (Nat × Nat) :=
  sources.filter fun source => source.2 ≠ 0 ∧ (cluster.groups source.1).count ≠ 0

/-- Time a source pushes its bytes, latency stripped. -/
def sliceTime (source : Nat × Nat) : Time :=
  cluster.cost.linkTime source.2 (cluster.groups source.1).count - cluster.cost.latency

/-- One concurrent fan-in of all the sources' bytes. -/
def submitGather (now : Time) (sources : List (Nat × Nat)) (recvGid : Nat) : Time × GpuCluster :=
  let r := cluster.groups recvGid
  if r.count = 0 then (now, cluster)
  else
    let live := cluster.liveSources sources
    if live.isEmpty then (now, cluster)
    else
      let start := live.foldl (fun start source => max start (cluster.groups source.1).sendFree)
        (max now r.recvFree)
      let totalBytes := (live.map fun source => source.2).sum
      let sendSlice := live.foldl (fun slice source => max slice (cluster.sliceTime source)) 0
      let recvSlice := cluster.cost.linkTime totalBytes r.count - cluster.cost.latency
      let arrival := start + cluster.cost.latency + max sendSlice recvSlice
      let pushed := live.foldl
        (fun pushed source =>
            pushed.setSendFree source.1 (start + cluster.sliceTime source)) cluster
      (arrival, pushed.setRecvFree recvGid arrival)

theorem le_foldl_max {α : Type} (f : α → Nat) (xs : List α) (start : Nat) :
    start ≤ xs.foldl (fun best x => max best (f x)) start := by
  induction xs generalizing start with
  | nil => exact Nat.le_refl _
  | cons x xs ih => exact (Nat.le_max_left _ _).trans (ih _)

end GpuCluster

end ServingSim
