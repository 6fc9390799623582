import ServingSim.Common.Ensure
import Mathlib.Algebra.Order.Field.Rat
import Mathlib.Data.List.Sort
import Mathlib.Data.String.Basic

/-
  Kernel ladders (`optimality::ladder`).

  A ladder lists GPU seconds from the measured time down to the necessary work, for a worker
  and for each of its kernel locations. The reduction of ladders to a pool or a cluster is
  left out.

  Floats are exact rationals.
-/

namespace ServingSim

namespace Optimality

/-! ## Rungs -/

inductive AggregateLevel
  | cluster
  | pool
  deriving DecidableEq

inductive LadderScope
  | worker (poolTag : String) (workerId : Nat)
  | aggregate (level : AggregateLevel) (key label : String)
  deriving DecidableEq

inductive NecessaryWorkPolicy
  | batchLocked
  | saturated (replicationFactor : Nat)
  deriving DecidableEq

structure LadderRungs where
  real : ℚ
  busy : ℚ
  balanced : ℚ
  perConfigBest : ℚ
  ignoreNetwork : ℚ
  sustainedLimit : ℚ
  achievableLimit : ℚ
  hardwareLimit : ℚ
  segmentedNecessary : Option ℚ
  scopeFusedNecessary : Option ℚ
  deriving DecidableEq

structure SpecialChunks where
  idle : ℚ
  imbalance : ℚ
  fusion : Option ℚ
  deriving DecidableEq

structure KernelRungs where
  balanced : ℚ
  perConfigBest : ℚ
  ignoreNetwork : ℚ
  sustainedLimit : ℚ
  achievableLimit : ℚ
  hardwareLimit : ℚ
  deriving DecidableEq

def KernelRungs.default : KernelRungs := ⟨0, 0, 0, 0, 0, 0⟩

/-! ## Necessary work -/

/-- The semantic work assigned to one location. -/
structure KernelNecessaryWork where
  semantics : Finset String
  minFlops : ℚ
  minBytes : ℚ
  computeGpuS : ℚ
  memoryGpuS : ℚ
  rooflineGpuS : ℚ
  wallS : Option ℚ
  deriving DecidableEq

namespace KernelNecessaryWork

def default : KernelNecessaryWork := ⟨∅, 0, 0, 0, 0, 0, none⟩

def zero : KernelNecessaryWork := { default with wallS := some 0 }

def fromRatesWithRoofline (semantics : List String)
    (minFlops minBytes computeGpuS bandwidthGbps rooflineGpuS gpuCount : ℚ) :
    KernelNecessaryWork where
  semantics := semantics.toFinset
  minFlops := minFlops
  minBytes := minBytes
  computeGpuS := computeGpuS
  memoryGpuS := minBytes / (bandwidthGbps * 10 ^ 9)
  rooflineGpuS := rooflineGpuS
  wallS := some (rooflineGpuS / max gpuCount 1)

def necessaryGpuS (work : KernelNecessaryWork) : ℚ := work.rooflineGpuS

def scale (work : KernelNecessaryWork) (factor : ℚ) : KernelNecessaryWork :=
  { work with
    minFlops := work.minFlops * factor
    minBytes := work.minBytes * factor
    computeGpuS := work.computeGpuS * factor
    memoryGpuS := work.memoryGpuS * factor
    rooflineGpuS := work.rooflineGpuS * factor
    wallS := work.wallS.map (· * factor) }

def addForPolicy (policy : NecessaryWorkPolicy) (work other : KernelNecessaryWork) :
    KernelNecessaryWork where
  semantics := work.semantics ∪ other.semantics
  minFlops := work.minFlops + other.minFlops
  minBytes := work.minBytes + other.minBytes
  computeGpuS := work.computeGpuS + other.computeGpuS
  memoryGpuS := work.memoryGpuS + other.memoryGpuS
  rooflineGpuS :=
    match policy with
    | .batchLocked => work.rooflineGpuS + other.rooflineGpuS
    | .saturated _ =>
      max (work.computeGpuS + other.computeGpuS) (work.memoryGpuS + other.memoryGpuS)
  -- wall time is not additive over workers
  wallS := none

def setWorkerWallTime (gpuCount : ℚ) (work : KernelNecessaryWork) : KernelNecessaryWork :=
  { work with wallS := some (work.rooflineGpuS / max gpuCount 1) }

end KernelNecessaryWork

/-! ## Ladders -/

structure KernelContribution where
  name : String
  kind : String
  isComm : Bool
  rungs : KernelRungs
  necessaryWork : Option KernelNecessaryWork
  deriving DecidableEq

structure KernelLadder where
  scope : LadderScope
  rungs : LadderRungs
  specialChunks : SpecialChunks
  kernels : List KernelContribution
  necessaryWorkPolicy : Option NecessaryWorkPolicy
  deriving DecidableEq

namespace KernelLadder

/-- A sum over the kernels. -/
def kernelSum (kernels : List KernelContribution) (f : KernelContribution → ℚ) : ℚ :=
  (kernels.map f).sum

/-- A number of a kernel's necessary work, zero without. -/
def workOr0 (f : KernelNecessaryWork → ℚ) (kernel : KernelContribution) : ℚ :=
  (kernel.necessaryWork.map f).getD 0

/-- The rungs that kernels share with their ladder. -/
def reconciled (ladder : KernelLadder) : List (String × ℚ × ℚ) :=
  [("balanced", kernelSum ladder.kernels (·.rungs.balanced), ladder.rungs.balanced),
    ("per_config_best", kernelSum ladder.kernels (·.rungs.perConfigBest),
      ladder.rungs.perConfigBest),
    ("ignore_network", kernelSum ladder.kernels (·.rungs.ignoreNetwork),
      ladder.rungs.ignoreNetwork),
    ("sustained_limit", kernelSum ladder.kernels (·.rungs.sustainedLimit),
      ladder.rungs.sustainedLimit),
    ("achievable_limit", kernelSum ladder.kernels (·.rungs.achievableLimit),
      ladder.rungs.achievableLimit),
    ("hardware_limit", kernelSum ladder.kernels (·.rungs.hardwareLimit),
      ladder.rungs.hardwareLimit)]

def checkNecessary (ladder : KernelLadder) : Except String Unit :=
  match ladder.rungs.segmentedNecessary, ladder.rungs.scopeFusedNecessary,
    ladder.specialChunks.fusion with
  | some segmented, some scopeFused, some fusion =>
    let kernels := kernelSum ladder.kernels (workOr0 KernelNecessaryWork.necessaryGpuS)
    let tolerance := max |segmented| 1 * (1 / 10 ^ 9)
    ensure (¬(tolerance < |kernels - segmented| ∨ tolerance < |scopeFused + fusion - segmented| ∨
        segmented + tolerance < scopeFused))
      "kernel ladder R6/R7 necessary work does not reconcile"
  | none, none, none => .ok ()
  | _, _, _ => .error "kernel ladder has partially available R6/R7 fields"

def validate (ladder : KernelLadder) : Except String Unit := do
  ladder.reconciled.forM fun rung =>
    ensure (|rung.2.1 - rung.2.2| ≤ max |rung.2.2| 1 * (1 / 10 ^ 7))
      ("kernel ladder rung \"" ++ rung.1 ++ "\" does not reconcile: " ++ toString rung.2.1 ++
        " vs " ++ toString rung.2.2)
  let tolerance := max |ladder.rungs.real| 1 * (1 / 10 ^ 7)
  ensure (¬(tolerance <
        |ladder.rungs.balanced + ladder.specialChunks.imbalance - ladder.rungs.busy| ∨
      tolerance < |ladder.rungs.busy + ladder.specialChunks.idle - ladder.rungs.real|))
    "kernel ladder special chunks do not reconcile with R0/R1/R2"
  ladder.checkNecessary

/-- Both lower rungs are those of the locations' work. -/
def withNecessaryWork (ladder : KernelLadder) (policy : NecessaryWorkPolicy)
    (scopeFusedOverride : Option ℚ) : KernelLadder :=
  let segmented := kernelSum ladder.kernels (workOr0 KernelNecessaryWork.necessaryGpuS)
  let compute := kernelSum ladder.kernels (workOr0 KernelNecessaryWork.computeGpuS)
  let memory := kernelSum ladder.kernels (workOr0 KernelNecessaryWork.memoryGpuS)
  let scopeFused := scopeFusedOverride.getD (max compute memory)
  { ladder with
    rungs := { ladder.rungs with
      segmentedNecessary := some segmented
      scopeFusedNecessary := some scopeFused }
    specialChunks := { ladder.specialChunks with fusion := some (max (segmented - scopeFused) 0) }
    necessaryWorkPolicy := some policy }

def finalizeNecessaryWork (ladder : KernelLadder) (policy : NecessaryWorkPolicy)
    (scopeFusedOverride : Option ℚ) : Except String KernelLadder := do
  ensure (¬∃ kernel ∈ ladder.kernels, kernel.necessaryWork = none)
    "necessary work must cover every emitted kernel location"
  let finalized := ladder.withNecessaryWork policy scopeFusedOverride
  finalized.validate
  .ok finalized

end KernelLadder

end Optimality

end ServingSim
