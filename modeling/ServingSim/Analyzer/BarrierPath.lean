import Mathlib.Data.String.Basic
import ServingSim.Admission.Config
import ServingSim.Analyzer.IterationMeasurement

/-
  The measured critical path of one iteration (`alignment_iteration::barrier`).

  A synchronizing collective is a barrier: no rank leaves it before every rank arrived.
  So an iteration is a chain of races separated by barriers. A barrier is a maximal run
  of consecutive synchronizing positions; the window between two barriers is a segment,
  and the rank with the largest union of its own launches in it wins it. A launch that
  starts inside a collective on its own stream only waits until that is over, and is
  trimmed before the races.

  An ordered map filled from a list is the list grouped by its keys (`Grouped`). A
  partition point of a slice is the length of its leading part. The trimming loop has no
  bound; here it has one turn more than there are collectives.
-/

namespace ServingSim

/-- The path needs the operation of every position; one without has this key. -/
def unmapped : String := "<unmapped>"

/-- A run of synchronizing positions and its extent over the ranks. -/
structure Barrier where
  positions : List Nat
  enterNs : Nat
  exitNs : Nat
  /-- Its length on the path. -/
  netNs : Nat
  skewNs : Nat
  lastExitDevice : Int
  deriving DecidableEq, Repr

/-- A window between barriers. -/
structure Segment where
  startNs : Nat
  endNs : Nat
  winner : Option Int
  busyNsByDevice : List (Int × Nat)
  idleInternalNs : Nat
  idleBoundaryNs : Nat
  gatingDeviceId : Option Int
  gatingGapNs : Nat
  deriving DecidableEq, Repr

def Segment.windowNs (segment : Segment) : Nat := segment.endNs - segment.startNs

structure BarrierPath where
  wallNs : Nat := 0
  criticalBusyNs : Nat := 0
  collectiveNs : Nat := 0
  collectiveSkewNs : Nat := 0
  idleInternalNs : Nat := 0
  idleBoundaryNs : Nat := 0
  onPathKernelSumNs : Nat := 0
  allRankKernelSumNs : Nat := 0
  hiddenSameStreamNs : Nat := 0
  hiddenCrossStreamNs : Nat := 0
  hiddenUnderCollectiveSameStreamNs : Nat := 0
  hiddenUnderCollectiveCrossStreamNs : Nat := 0
  pdlWaitUnderCollectiveNs : Nat := 0
  criticalRankSwitches : Nat := 0
  criticalBusyNsByDevice : List (Int × Nat) := []
  kernelCriticalNs : List Nat := []
  kernelOnPathNs : List Nat := []
  segments : List Segment := []
  barriers : List Barrier := []
  deriving DecidableEq, Repr

namespace BarrierPath

def criticalPathNs (path : BarrierPath) : Nat := path.criticalBusyNs + path.collectiveNs

def idleNs (path : BarrierPath) : Nat := path.idleInternalNs + path.idleBoundaryNs

end BarrierPath

/-! ## Launches of a rank -/

structure RankLaunch where
  startNs : Nat
  endNs : Nat
  trackIndex : Nat
  position : Nat
  stream : Bool × Nat
  deriving DecidableEq, Repr

def RankLaunch.interval (launch : RankLaunch) : Nat × Nat := (launch.startNs, launch.endNs)

/-- Start first, the wider launch on a tie, then track and position. -/
def sweepKey (launch : RankLaunch) : Nat ×ₗ Natᵒᵈ ×ₗ Nat ×ₗ Nat :=
  toLex (launch.startNs, toLex (OrderDual.toDual launch.endNs,
    toLex (launch.trackIndex, launch.position)))

def sweepOrdered (launches : List RankLaunch) : List RankLaunch :=
  launches.insertionSort fun a b => sweepKey a ≤ sweepKey b

/-- A rank's launches in sweep order, each with the furthest end up to it. -/
structure RankLaunches where
  launches : List RankLaunch
  reach : List Nat

namespace RankLaunches

def new (launches : List RankLaunch) : RankLaunches :=
  let launches := sweepOrdered launches
  { launches := launches
    reach := (launches.scanl (fun furthest launch => max furthest launch.endNs) 0).tail }

/-- The launches that can overlap a window. -/
def window (ranks : RankLaunches) (lo hi : Nat) : List RankLaunch :=
  let first := (ranks.reach.takeWhile fun reach => reach ≤ lo).length
  let last := (ranks.launches.takeWhile fun launch => launch.startNs ≤ hi).length
  (ranks.launches.take (max last first)).drop first

end RankLaunches

/-- A rank's covered time in a window, split over the launches that cover it. -/
structure Attribution where
  unionNs : Nat := 0
  slices : List (Nat × Nat) := []
  clipped : List (Nat × Nat) := []
  hiddenSameStreamNs : Nat := 0
  hiddenCrossStreamNs : Nat := 0
  firstNs : Option Nat := none
  lastNs : Option Nat := none
  deriving DecidableEq, Repr

/-- The part of a launch in a window, if there is any. -/
def clipLaunch (lo hi : Nat) (launch : RankLaunch) : Option RankLaunch :=
  let startNs := max launch.startNs lo
  let endNs := min launch.endNs hi
  if endNs > startNs then some { launch with startNs := startNs, endNs := endNs } else none

/-- Sweep one launch; `cover` is the one with the furthest end so far. -/
def attributeStep (state : Attribution × Option RankLaunch) (launch : RankLaunch) :
    Except String (Attribution × Option RankLaunch) := do
  let (out, cover) := state
  let durationNs ← checkedSub launch.endNs launch.startNs
  let exclusiveNs :=
    match cover with
    | none => durationNs
    | some cover => launch.endNs - max cover.endNs launch.startNs
  let hiddenNs ← checkedSub durationNs exclusiveNs
  let same := cover.elim false fun cover => cover.stream = launch.stream
  let cross := cover.elim false fun cover => cover.stream ≠ launch.stream
  return ({
    unionNs := out.unionNs + exclusiveNs
    slices := if exclusiveNs > 0 then out.slices ++ [(launch.position, exclusiveNs)] else out.slices
    clipped := out.clipped ++ [(launch.position, durationNs)]
    hiddenSameStreamNs := out.hiddenSameStreamNs + if same then hiddenNs else 0
    hiddenCrossStreamNs := out.hiddenCrossStreamNs + if cross then hiddenNs else 0
    firstNs := some (out.firstNs.getD launch.startNs)
    lastNs := some (out.lastNs.elim launch.endNs fun last => max last launch.endNs) },
    if cover.elim true fun cover => launch.endNs > cover.endNs then some launch else cover)

/-- Sweep a rank's launches, clipped to a window. -/
def attributeWindow (launches : List RankLaunch) (lo hi : Nat) : Except String Attribution := do
  let swept ← (sweepOrdered (launches.filterMap (clipLaunch lo hi))).foldlM attributeStep ({}, none)
  return swept.1

/-! ## Splitting and trimming -/

/-- Divide a total by weights: the heaviest key first, the last takes the remainder. -/
def splitByWeight {K : Type} [LinearOrder K] (total : Nat) (keys : List K)
    (weights : List (K × Nat)) : Except String (List (K × Nat)) := do
  let totalWeight := (weights.map Prod.snd).sum
  if totalWeight = 0 then
    ensure (keys.length ≠ 0) "attempt to divide by zero"
    let share := total / keys.length
    let extra := total % keys.length
    return keys.zipIdx.map fun key => (key.1, share + if key.2 < extra then 1 else 0)
  else
    let ordered := weights.insertionSort fun left right =>
      toLex (OrderDual.toDual left.2, left.1) ≤ toLex (OrderDual.toDual right.2, right.1)
    let parts := ordered.dropLast.map fun e => (e.1, total * e.2 / totalWeight)
    let last ← required ordered.getLast? "index out of bounds"
    let rest ← checkedSub total (parts.map Prod.snd).sum
    return parts ++ [(last.1, rest)]

/-- Follow back-to-back collectives to where a start is outside all of them. -/
def pdlTrimLoop (collectives : List (Nat × Nat)) : Nat → Nat → Option Nat
  | 0, _ => none
  | turns + 1, startNs =>
    let started := collectives.takeWhile fun collective => collective.1 ≤ startNs
    match (started.map Prod.snd).max? with
    | some endNs => if endNs > startNs then pdlTrimLoop collectives turns endNs else some startNs
    | none => some startNs

/-- Where a launch's busy time begins behind the collectives of its stream. -/
def pdlTrimmedStart (collectives : List (Nat × Nat)) (startNs : Nat) : Except String Nat :=
  required (pdlTrimLoop collectives (collectives.length + 1) startNs) "the trimming did not end"

/-! ## Barriers -/

/-- Maximal runs of synchronizing positions, from a position on; `current` is the run that
may go on. -/
def syncRuns (index : Nat) (current : List Nat) : List IterationKernel → List (List Nat)
  | [] => if current.isEmpty then [] else [current]
  | kernel :: kernels =>
    if kernel.synchronizing then syncRuns (index + 1) (current ++ [index]) kernels
    else if current.isEmpty then syncRuns (index + 1) [] kernels
    else current :: syncRuns (index + 1) [] kernels

/-- One barrier before its place on the path is known. -/
structure Run where
  positions : List Nat
  firstStart : List (Int × Nat)
  lastEnd : List (Int × Nat)
  operationWeights : List (String × Nat)
  positionWeights : List Nat

/-- The largest of a map's values. -/
def latest (times : List (Int × Nat)) : Except String Nat :=
  required (times.map Prod.snd).max? "called `Option::unwrap()` on a `None` value"

def earliest (times : List (Int × Nat)) : Except String Nat :=
  required (times.map Prod.snd).min? "called `Option::unwrap()` on a `None` value"

def firstStarts (launches : List KernelLaunch) : List (Int × Nat) :=
  Grouped.reduced KernelLaunch.deviceId KernelLaunch.startNs min launches

def lastEnds (launches : List KernelLaunch) : List (Int × Nat) :=
  Grouped.reduced KernelLaunch.deviceId KernelLaunch.endNs max launches

/-- From the last rank's arrival to the last rank's departure. -/
def extent (launches : List KernelLaunch) : Nat :=
  match ((firstStarts launches).map Prod.snd).max?, ((lastEnds launches).map Prod.snd).max? with
  | some enter, some exit => exit - enter
  | _, _ => 0

namespace IterationMeasurement

variable (m : IterationMeasurement)

def launchesAt (position : Nat) : List KernelLaunch :=
  m.kernels[position]?.elim [] fun kernel => kernel.launches

def operationKey (position : Nat) : String :=
  (m.kernels[position]?.bind fun kernel => kernel.operation).getD unmapped

/-- The text of a list between brackets. -/
def debugList {α : Type} [ToString α] (opening closing : String) (items : List α) : String :=
  opening ++ ", ".intercalate (items.map toString) ++ closing

/-- A run of synchronizing positions; `none` where none of them was launched. -/
def collectRun (positions : List Nat) : Except String (Option Run) := do
  let launches := positions.flatMap m.launchesAt
  let firstStart := firstStarts launches
  if firstStart.isEmpty then return none
  let devices := (firstStart.map Prod.fst).toFinset
  ensure (devices = m.deviceIds)
    ("synchronizing positions " ++ debugList "[" "]" positions ++ " ran on devices " ++
      debugList "\x7b" "\x7d" (firstStart.map Prod.fst) ++ ", not on every device of the " ++
      "iteration " ++ debugList "\x7b" "\x7d" (m.deviceIds.sort (· ≤ ·)) ++
      "; a barrier over part of the ranks (a collective inside one data-parallel group) is " ++
      "not supported")
  let launched := positions.filter fun position => !(m.launchesAt position).isEmpty
  return some {
    positions := positions
    firstStart := firstStart
    lastEnd := lastEnds launches
    operationWeights := (Grouped.group m.operationKey launched).map fun g =>
      (g.1, (g.2.map fun position => extent (m.launchesAt position)).sum)
    positionWeights := positions.map fun position => extent (m.launchesAt position) }

def collectRuns : Except String (List Run) := do
  let runs ← (syncRuns 0 [] m.kernels).mapM m.collectRun
  return runs.reduceOption

/-- The collectives on a stream of a device, by their starts. -/
def collectivesOn (device : Int) (stream : Bool × Nat) : List (Nat × Nat) :=
  let synchronizing := m.kernels.filter fun kernel => kernel.synchronizing
  ((synchronizing.flatMap fun kernel => kernel.launches).filter
    fun launch => launch.deviceId = device ∧ streamKey launch = stream).map KernelLaunch.interval
    |>.insertionSort fun a b => toLex a ≤ toLex b

/-- The launches that are no collectives, each with its device. -/
def rawLaunches : List (Int × RankLaunch) :=
  m.kernels.zipIdx.flatMap fun kernel =>
    if kernel.1.synchronizing then [] else
      kernel.1.launches.map fun launch => (launch.deviceId,
        ⟨launch.startNs, launch.endNs, launch.trackIndex, kernel.2, streamKey launch⟩)

/-- A launch without its wait, if anything of it is left, and the wait. -/
def trimLaunch (raw : Int × RankLaunch) : Except String (Option (Int × RankLaunch) × Nat) := do
  let startNs ← pdlTrimmedStart (m.collectivesOn raw.1 raw.2.stream) raw.2.startNs
  if startNs ≥ raw.2.endNs then
    let waitNs ← checkedSub raw.2.endNs raw.2.startNs
    return (none, waitNs)
  else
    let waitNs ← checkedSub startNs raw.2.startNs
    return (some (raw.1, { raw.2 with startNs := startNs }), waitNs)

end IterationMeasurement

/-- The launches of each rank. -/
def rankLaunches (launches : List (Int × RankLaunch)) : List (Int × RankLaunches) :=
  (Grouped.group Prod.fst launches).map fun g => (g.1, .new (g.2.map Prod.snd))

/-! ## PathTiling -/

/-- `map[device] += ns` in a map ordered by device. -/
def chargeDevice (device : Int) (ns : Nat) : List (Int × Nat) → List (Int × Nat)
  | [] => [(device, ns)]
  | e :: rest =>
    if e.1 = device then (e.1, e.2 + ns) :: rest
    else if device < e.1 then (device, ns) :: e :: rest
    else e :: chargeDevice device ns rest

/-- `out[position] += ns` for each share. -/
def chargePositions (out : List Nat) (shares : List (Nat × Nat)) : Except String (List Nat) :=
  shares.foldlM (fun out share => bump out share.1 share.2) out

/-- Charge what the winner of a segment was busy with. -/
def chargeWinner (path : BarrierPath) (device : Int) (won : Attribution) :
    Except String BarrierPath := do
  let kernelCriticalNs ← chargePositions path.kernelCriticalNs won.slices
  let kernelOnPathNs ← chargePositions path.kernelOnPathNs won.clipped
  return { path with
    kernelCriticalNs := kernelCriticalNs
    kernelOnPathNs := kernelOnPathNs
    onPathKernelSumNs := path.onPathKernelSumNs + (won.clipped.map Prod.snd).sum
    hiddenSameStreamNs := path.hiddenSameStreamNs + won.hiddenSameStreamNs
    hiddenCrossStreamNs := path.hiddenCrossStreamNs + won.hiddenCrossStreamNs
    criticalBusyNs := path.criticalBusyNs + won.unionNs
    criticalBusyNsByDevice := chargeDevice device won.unionNs path.criticalBusyNsByDevice }

/-- The winner's idle time within its busy span and around it. -/
def winnerIdle (lo hi : Nat) (won : Attribution) : Except String (Nat × Nat) :=
  match won.firstNs, won.lastNs with
  | some first, some last => do
    let before ← checkedSub first lo
    let after ← checkedSub hi last
    let span ← checkedSub last first
    let internal ← checkedSub span won.unionNs
    return (internal, before + after)
  | _, _ => do
    let window ← checkedSub hi lo
    return (0, window)

/-- Charge a segment to its winner, if any rank raced; the winner's idle time. -/
def chargeRace (path : BarrierPath) (attributed : List (Int × Attribution)) (winner : Option Int)
    (lo hi windowNs : Nat) : Except String (BarrierPath × Nat × Nat) :=
  match winner with
  | none => .ok (path, 0, windowNs)
  | some device => do
    let won ← required (attributed.lookup device) "no entry found for key"
    let path ← chargeWinner path device won
    let idle ← winnerIdle lo hi won
    return (path, idle)

/-- The shares of a barrier's operations, by extent. -/
def operationShares (m : IterationMeasurement) (run : Run) (netNs : Nat) :
    Except String (List (String × Nat)) :=
  match Grouped.keys id (run.positions.map m.operationKey) with
  | [operation] => .ok [(operation, netNs)]
  | operations => splitByWeight netNs operations run.operationWeights

/-- Charge a barrier to its operations and their shares to its positions, both by extent. -/
def chargeBarrier (m : IterationMeasurement) (run : Run) (netNs : Nat)
    (kernelCriticalNs : List Nat) :
    Except String (List Nat) := do
  let operationShares ← operationShares m run netNs
  operationShares.foldlM (fun out operationShare => do
    let members := run.positions.filter fun position => m.operationKey position = operationShare.1
    let weights := (run.positions.zip run.positionWeights).filter fun e =>
      e.2 > 0 ∧ e.1 ∈ members
    let shares ← splitByWeight operationShare.2 members weights
    chargePositions out shares) kernelCriticalNs

/-- Time of launches under a barrier on the rank that left last, on the barrier's streams and
on others. -/
def underCollective (m : IterationMeasurement) (run : Run) (device : Int)
    (launches : List RankLaunch) (hi exitNs : Nat) : Nat × Nat :=
  let streams := ((run.positions.flatMap m.launchesAt).filter
    fun launch => launch.deviceId = device).map streamKey
  let clipped := fun launch : RankLaunch => min launch.endNs exitNs - max launch.startNs hi
  (((launches.filter fun launch => launch.stream ∈ streams).map clipped).sum,
    ((launches.filter fun launch => launch.stream ∉ streams).map clipped).sum)

/-- What the tiling reads. -/
structure PathTiling where
  measurement : IterationMeasurement
  tEnd : Nat
  ranks : List (Int × RankLaunches)
  rawRanks : List (Int × RankLaunches)
  lastFinisher : Option Int

namespace PathTiling

variable (t : PathTiling)

/-- Race the ranks up to the next barrier, or to the end. -/
def raceSegment (path : BarrierPath) (lo : Nat) (run : Option Run) :
    Except String (BarrierPath × Nat) := do
  let enter ← run.elim (.ok t.tEnd) fun run => latest run.firstStart
  let hi := max lo enter
  let attributed ← t.ranks.mapM fun rank => do
    let attribution ← attributeWindow (rank.2.window lo hi) lo hi
    return (rank.1, attribution)
  let busyNsByDevice := attributed.map fun e => (e.1, e.2.unionNs)
  let winner := Grouped.firstMax busyNsByDevice
  let windowNs ← checkedSub hi lo
  let charged ← chargeRace path attributed winner lo hi windowNs
  let gatingDeviceId := run.elim t.lastFinisher fun run => Grouped.firstMax run.firstStart
  let gatingGapNs ← gatingDeviceId.elim (.ok windowNs) fun device =>
    checkedSub windowNs ((busyNsByDevice.lookup device).getD 0)
  return ({ charged.1 with
    idleInternalNs := charged.1.idleInternalNs + charged.2.1
    idleBoundaryNs := charged.1.idleBoundaryNs + charged.2.2
    segments := charged.1.segments ++ [{
      startNs := lo
      endNs := hi
      winner := winner
      busyNsByDevice := busyNsByDevice
      idleInternalNs := charged.2.1
      idleBoundaryNs := charged.2.2
      gatingDeviceId := gatingDeviceId
      gatingGapNs := gatingGapNs }] }, hi)

/-- Pass a barrier, from the end of the segment before it. -/
def passBarrier (path : BarrierPath) (hi : Nat) (run : Run) :
    Except String (BarrierPath × Nat) := do
  let enterNs ← latest run.firstStart
  let exitNs ← latest run.lastEnd
  let netNs := exitNs - hi
  let arrival ← earliest run.firstStart
  let skewNs ← checkedSub enterNs arrival
  let lastExitDevice ← required (Grouped.firstMax run.lastEnd)
    "called `Option::unwrap()` on a `None` value"
  let kernelCriticalNs ← chargeBarrier t.measurement run netNs path.kernelCriticalNs
  let under :=
    if netNs > 0 then
      (t.rawRanks.lookup lastExitDevice).elim (0, 0) fun launches =>
        underCollective t.measurement run lastExitDevice (launches.window hi exitNs) hi exitNs
    else (0, 0)
  return ({ path with
    collectiveNs := path.collectiveNs + netNs
    collectiveSkewNs := path.collectiveSkewNs + skewNs
    kernelCriticalNs := kernelCriticalNs
    hiddenUnderCollectiveSameStreamNs := path.hiddenUnderCollectiveSameStreamNs + under.1
    hiddenUnderCollectiveCrossStreamNs := path.hiddenUnderCollectiveCrossStreamNs + under.2
    barriers := path.barriers ++ [{
      positions := run.positions
      enterNs := enterNs
      exitNs := exitNs
      netNs := netNs
      skewNs := skewNs
      lastExitDevice := lastExitDevice }] }, max hi exitNs)

/-- A segment and the barrier behind it. -/
def tileStep (state : BarrierPath × Nat) (run : Run) : Except String (BarrierPath × Nat) := do
  let raced ← t.raceSegment state.1 state.2 (some run)
  t.passBarrier raced.1 raced.2 run

end PathTiling

/-- How often the winner changes from one segment with any length to the next. -/
def rankSwitches (segments : List Segment) : Nat :=
  let owners := (segments.filter fun segment => segment.windowNs > 0).map fun segment =>
    segment.winner
  (owners.zip owners.tail).countP fun pair => pair.1 ≠ pair.2

/-- What the tiling of a measurement reads, and the waits that were trimmed. -/
def tilingOf (m : IterationMeasurement) (tEnd : Nat) : Except String (PathTiling × Nat) := do
  let trimmed ← m.rawLaunches.mapM m.trimLaunch
  return ({
    measurement := m
    tEnd := tEnd
    ranks := rankLaunches (trimmed.map Prod.fst).reduceOption
    rawRanks := rankLaunches m.rawLaunches
    lastFinisher := Grouped.firstMax (lastEnds m.launches) }, (trimmed.map Prod.snd).sum)

/-- Tile an iteration from its first start on. -/
def tileIteration (path : BarrierPath) (tBegin : Nat) (tiling : PathTiling) (runs : List Run) :
    Except String BarrierPath := do
  let tiled ← runs.foldlM tiling.tileStep (path, tBegin)
  let raced ← tiling.raceSegment tiled.1 tiled.2 none
  return { raced.1 with criticalRankSwitches := rankSwitches raced.1.segments }

def barrierPath (m : IterationMeasurement) : Except String BarrierPath := do
  let path : BarrierPath := {
    kernelCriticalNs := List.replicate m.kernels.length 0
    kernelOnPathNs := List.replicate m.kernels.length 0 }
  match (m.launches.map KernelLaunch.startNs).min?, (m.launches.map KernelLaunch.endNs).max? with
  | some tBegin, some tEnd =>
    let wallNs ← checkedSub tEnd tBegin
    let durations ← m.launches.mapM fun launch => checkedSub launch.endNs launch.startNs
    let runs ← m.collectRuns
    let (tiling, waitNs) ← tilingOf m tEnd
    let path ← tileIteration { path with
      wallNs := wallNs
      allRankKernelSumNs := durations.sum
      pdlWaitUnderCollectiveNs := waitNs } tBegin tiling runs
    ensure (path.criticalPathNs + path.idleNs = path.wallNs)
      (s!"barrier path does not tile the iteration: critical path {path.criticalPathNs} + idle " ++
        s!"{path.idleNs} != wall {path.wallNs} ns")
    return path
  | _, _ => return path

end ServingSim
