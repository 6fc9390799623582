import ServingSim.Optimality.Ladder
import Mathlib.Data.List.Dedup

/-
  Attribution of semantic work to kernel locations (`optimality::location`).

  A map names, for every location of an architecture, the semantic rows whose work the
  location does. A worker's labels are handed to its ladder through the one map that has
  exactly the worker's locations; a pipeline stage takes the one map that has all of its own,
  cut down to them. The caller's ladder is replaced only when everything reconciles.

  The GPU's peaks are given as a function of the precision. The caller's ladder is a state;
  a map is a list with one entry for each key, a set of names its ascending list.
-/

namespace ServingSim

namespace Optimality

/-! ## Inputs -/

structure LocationRule where
  location : String
  semantics : List String
  deriving DecidableEq

structure LocationMap where
  schemaVersion : Nat
  mappingId : String
  archTypes : List String
  locations : List LocationRule
  deriving DecidableEq

structure PoolModelSpec where
  archType : String
  /-- For the rows whose labeler did not report a precision. -/
  fallbackDtype : String

structure LocationCatalog where
  maps : List LocationMap
  poolSpecs : List (String × PoolModelSpec)
  /-- Pools whose workers are pipeline stages. -/
  pipelinedPools : List String

structure KernelLocation where
  name : String
  kind : String
  isCommunication : Bool

structure GpuSpec where
  peakTflops : String → ℚ
  memBandwidthGbps : ℚ

/-- One level's floors, in GPU seconds. -/
structure LabelFloors where
  fused : ℚ
  segmented : ℚ

structure SemanticWork where
  name : String
  flops : ℚ
  bytes : ℚ
  necessaryGpuS : ℚ
  computeDtype : Option String

structure IterationLabel where
  floors : LabelFloors
  segments : List SemanticWork

/-- Labels and how often each occurs. -/
structure WorkerComposition where
  labels : List (IterationLabel × Nat)

/-! ## Map selection -/

def nameSet (names : List String) : List String := names.dedup.insertionSort (· ≤ ·)

def difference (names others : List String) : List String := names.filter fun name => name ∉ others

def showNames (names : List String) : String :=
  "[" ++ ", ".intercalate (names.map fun name => "\"" ++ name ++ "\"") ++ "]"

/-- The locations of a worker that do local work. -/
def expectedLocations (kernelLocations : List KernelLocation) : List String :=
  nameSet ((kernelLocations.filter fun location => !location.isCommunication).map (·.name))

def LocationMap.mapped (locationMap : LocationMap) : List String :=
  nameSet (locationMap.locations.map (·.location))

def LocationMap.mapsExactly (locationMap : LocationMap) (pipelineStage : Bool)
    (expected : List String) : Bool :=
  if pipelineStage then expected.all fun name => decide (name ∈ locationMap.mapped)
  else decide (locationMap.mapped = expected)

def LocationMap.retain (locationMap : LocationMap) (expected : List String) : LocationMap :=
  { locationMap with
    locations := locationMap.locations.filter fun rule => rule.location ∈ expected }

def selectLocationMap (maps : List LocationMap) (archType : String)
    (kernelLocations : List KernelLocation) (pipelineStage : Bool) : Except String LocationMap :=
  let expected := expectedLocations kernelLocations
  let candidates := (maps.filter fun locationMap => archType ∈ locationMap.archTypes).filter
    fun locationMap => locationMap.mapsExactly pipelineStage expected
  match candidates with
  | [locationMap] => .ok (locationMap.retain expected)
  | [] => .error ("no semantic location map matches arch type \"" ++ archType ++
      "\" and its exact manifest locations")
  | _ => .error ("multiple semantic location maps match arch type \"" ++ archType ++
      "\" and its exact manifest locations: " ++ showNames (candidates.map (·.mappingId)))

/-- The semantic rows that a map consumes. -/
def LocationMap.semantics (locationMap : LocationMap) : List String :=
  locationMap.locations.flatMap (·.semantics)

def validateMapping (locationMap : LocationMap) (kernelLocations : List KernelLocation)
    (segments : List SemanticWork) : Except String Unit := do
  ensure (locationMap.schemaVersion = 1)
    ("unsupported location-map schema " ++ toString locationMap.schemaVersion)
  let expected := expectedLocations kernelLocations
  ensure (expected = locationMap.mapped)
    ("location map mismatch; missing=" ++ showNames (difference expected locationMap.mapped) ++
      ", extra=" ++ showNames (difference locationMap.mapped expected))
  ensure (locationMap.mapped.length = locationMap.locations.length)
    "location map contains duplicate location rows"
  let expectedSemantics := nameSet (segments.map (·.name))
  let uniqueSemantics := nameSet locationMap.semantics
  ensure (uniqueSemantics.length = locationMap.semantics.length)
    "location map consumes a semantic row more than once"
  ensure (expectedSemantics = uniqueSemantics)
    ("semantic map mismatch; missing=" ++
      showNames (difference expectedSemantics uniqueSemantics) ++ ", extra=" ++
      showNames (difference uniqueSemantics expectedSemantics))

/-! ## Work by location -/

structure NecessaryWork where
  flops : ℚ
  bytes : ℚ
  rooflineGpuS : ℚ
  computeGpuS : ℚ

def semanticRow (gpuSpec : GpuSpec) (fallbackDtype : String) (segment : SemanticWork) :
    Except String (String × NecessaryWork) := do
  let dtype := segment.computeDtype.getD fallbackDtype
  let peakTflops := gpuSpec.peakTflops dtype
  ensure (0 < peakTflops)
    ("GPU spec lacks a positive " ++ dtype ++ " compute peak, needed by semantic row \"" ++
      segment.name ++ "\"")
  .ok (segment.name, ⟨segment.flops, segment.bytes, segment.necessaryGpuS,
    segment.flops / (peakTflops * 10 ^ 12)⟩)

/-- The rows of a label by their names; the last row of a name stands. -/
def semanticWork (gpuSpec : GpuSpec) (fallbackDtype : String) (segments : List SemanticWork) :
    Except String (List (String × NecessaryWork)) := do
  let rows ← segments.mapM (semanticRow gpuSpec fallbackDtype)
  .ok rows.reverse

def addRow (rows : List (String × NecessaryWork)) (total : NecessaryWork) (semantic : String) :
    Except String NecessaryWork :=
  match rows.lookup semantic with
  | none => .error ("mapped semantic row \"" ++ semantic ++ "\" is absent")
  | some row => .ok ⟨total.flops + row.flops, total.bytes + row.bytes,
      total.rooflineGpuS + row.rooflineGpuS, total.computeGpuS + row.computeGpuS⟩

/-- The work of one location in one label. -/
def ruleWork (gpuSpec : GpuSpec) (gpuCount occurrences : ℚ) (rows : List (String × NecessaryWork))
    (rule : LocationRule) : Except String KernelNecessaryWork := do
  let work ← rule.semantics.foldlM (addRow rows) ⟨0, 0, 0, 0⟩
  let located := KernelNecessaryWork.fromRatesWithRoofline rule.semantics work.flops work.bytes
    work.computeGpuS gpuSpec.memBandwidthGbps work.rooflineGpuS gpuCount
  .ok (located.scale occurrences)

/-- A location starts with its first label's own roofline; how later labels combine with it is
the policy's question. -/
def mergeWork (policy : NecessaryWorkPolicy) (location : String) (work : KernelNecessaryWork) :
    List (String × KernelNecessaryWork) → List (String × KernelNecessaryWork)
  | [] => [(location, work)]
  | entry :: entries =>
    if entry.1 = location then (location, entry.2.addForPolicy policy work) :: entries
    else entry :: mergeWork policy location work entries

structure Located where
  workByLocation : List (String × KernelNecessaryWork)
  expectedFloors : LabelFloors

def addRule (gpuSpec : GpuSpec) (gpuCount occurrences : ℚ) (policy : NecessaryWorkPolicy)
    (rows : List (String × NecessaryWork)) (work : List (String × KernelNecessaryWork))
    (rule : LocationRule) : Except String (List (String × KernelNecessaryWork)) := do
  let located ← ruleWork gpuSpec gpuCount occurrences rows rule
  .ok (mergeWork policy rule.location located work)

def addLabel (gpuSpec : GpuSpec) (gpuCount : ℚ) (policy : NecessaryWorkPolicy)
    (fallbackDtype : String) (locationMap : LocationMap) (kernelLocations : List KernelLocation)
    (state : Located) (label : IterationLabel × Nat) : Except String Located := do
  validateMapping locationMap kernelLocations label.1.segments
  let rows ← semanticWork gpuSpec fallbackDtype label.1.segments
  let work ← locationMap.locations.foldlM (addRule gpuSpec gpuCount label.2 policy rows)
    state.workByLocation
  .ok ⟨work, ⟨state.expectedFloors.fused + label.1.floors.fused * label.2,
    state.expectedFloors.segmented + label.1.floors.segmented * label.2⟩⟩

/-! ## Ladders -/

/-- A kernel for every location that does work and that the ladder does not list. -/
def missingKernels (locationMap : LocationMap) (kernelLocations : List KernelLocation)
    (work : List (String × KernelNecessaryWork)) (kernels : List KernelContribution) :
    List KernelContribution :=
  let listed := kernels.map (·.name)
  (locationMap.locations.filter fun rule => decide (rule.location ∉ listed) &&
      decide (0 < ((work.lookup rule.location).map (·.necessaryGpuS)).getD 0)).map fun rule =>
    -- of two locations with one name the last gives the kind
    let kind := (kernelLocations.reverse.find? fun location => location.name = rule.location).map
      (·.kind)
    ⟨rule.location, kind.getD "unknown", false, KernelRungs.default, none⟩

/-- Communication does no necessary work; every other kernel takes its location's, once. -/
def takeWork : List KernelContribution → List (String × KernelNecessaryWork) →
    List KernelContribution
  | [], _ => []
  | kernel :: kernels, work =>
    if kernel.isComm then
      { kernel with necessaryWork := some KernelNecessaryWork.zero } :: takeWork kernels work
    else
      { kernel with necessaryWork := work.lookup kernel.name } ::
        takeWork kernels (work.filter fun entry => entry.1 ≠ kernel.name)

/-- The ladder with its labels' work. -/
def attributed (locationMap : LocationMap) (kernelLocations : List KernelLocation)
    (policy : NecessaryWorkPolicy) (located : Located) (ladder : KernelLadder) :
    Except String KernelLadder := do
  let kernels := ladder.kernels ++
    missingKernels locationMap kernelLocations located.workByLocation ladder.kernels
  let ladder := { ladder with kernels := takeWork kernels located.workByLocation }
  let ladder ← ladder.finalizeNecessaryWork policy (some located.expectedFloors.fused)
  match ladder.rungs.segmentedNecessary, ladder.rungs.scopeFusedNecessary with
  | some segmented, some scopeFused =>
    let expected := located.expectedFloors
    let tolerance := max (|expected.segmented| * (1 / 10 ^ 7)) (1 / 10 ^ 12)
    ensure (¬(tolerance < |segmented - expected.segmented| ∨
        tolerance < |scopeFused - expected.fused|))
      ("mapped location floors (" ++ toString segmented ++ ", " ++ toString scopeFused ++
        ") do not reconcile with semantic floors (" ++ toString expected.segmented ++ ", " ++
        toString expected.fused ++ ")")
    .ok ladder
  | none, _ => .error "finalized ladder missing segmented floor"
  | _, none => .error "finalized ladder missing fused floor"

structure LocationAttribution where
  mappingId : String

/-- A computation that may fail, with the caller's ladder as its state. -/
abbrev Attributing := ExceptT String (StateM KernelLadder)

/-- What a call returns, and the caller's ladder after it. -/
def Attributing.call {α : Type} (action : Attributing α) (ladder : KernelLadder) :
    Except String α × KernelLadder := action.run.run ladder

namespace LocationCatalog

def poolSpec (catalog : LocationCatalog) (poolTag : String) : Except String PoolModelSpec :=
  match catalog.poolSpecs.lookup poolTag with
  | some spec => .ok spec
  | none => .error ("semantic attribution missing pool \"" ++ poolTag ++ "\"")

/-- The map of a worker's locations and the work its labels give them. -/
def locate (catalog : LocationCatalog) (poolTag : String) (kernelLocations : List KernelLocation)
    (labels : List (IterationLabel × Nat)) (gpuSpec : GpuSpec) (gpuCount : ℚ)
    (policy : NecessaryWorkPolicy) : Except String (LocationMap × Located) := do
  ensure (labels ≠ []) "semantic attribution has no workload labels"
  let poolSpec ← catalog.poolSpec poolTag
  let locationMap ← selectLocationMap catalog.maps poolSpec.archType kernelLocations
    (decide (poolTag ∈ catalog.pipelinedPools))
  ensure (0 < gpuSpec.memBandwidthGbps) "GPU spec lacks positive memory bandwidth"
  let located ← labels.foldlM
    (addLabel gpuSpec gpuCount policy poolSpec.fallbackDtype locationMap kernelLocations)
    ⟨[], ⟨0, 0⟩⟩
  let work := located.workByLocation.map fun entry => (entry.1, entry.2.setWorkerWallTime gpuCount)
  .ok (locationMap, { located with workByLocation := work })

def attributeLabelRefs (catalog : LocationCatalog) (poolTag : String)
    (kernelLocations : List KernelLocation) (labels : List (IterationLabel × Nat))
    (gpuSpec : GpuSpec) (gpuCount : ℚ) (policy : NecessaryWorkPolicy) :
    Attributing LocationAttribution := do
  let located ← catalog.locate poolTag kernelLocations labels gpuSpec gpuCount policy
  let ladder ← get
  let ladder ← attributed located.1 kernelLocations policy located.2 ladder
  set ladder
  return ⟨located.1.mappingId⟩

def attributeLadder (catalog : LocationCatalog) (poolTag : String)
    (kernelLocations : List KernelLocation) (label : IterationLabel) (gpuSpec : GpuSpec)
    (gpuCount : ℚ) (policy : NecessaryWorkPolicy) : Attributing LocationAttribution :=
  catalog.attributeLabelRefs poolTag kernelLocations [(label, 1)] gpuSpec gpuCount policy

def attributeComposedLadder (catalog : LocationCatalog) (poolTag : String)
    (kernelLocations : List KernelLocation) (composition : WorkerComposition) (gpuSpec : GpuSpec)
    (gpuCount : ℚ) (policy : NecessaryWorkPolicy) : Attributing LocationAttribution :=
  catalog.attributeLabelRefs poolTag kernelLocations composition.labels gpuSpec gpuCount policy

end LocationCatalog

end Optimality

end ServingSim
