import ServingSim.Lib.Binary64
import ServingSim.Lib.ForwardTree
import ServingSim.Optimality.LocationMap
import ServingSim.Timing.CostTree

/-
  Necessary work of a part of a cost tree (`optimality::scoped`).

  A selected node's leaves are locations; the location map names their semantic rows, and the
  floors are the rooflines of those rows: each row's own, and one over all of them. The rows'
  work is the worker's label's. The compute peak is that of the pool's precision.

  Nodes stand before their children, as `validate_manifest` has checked, so a walk down takes
  at most as many turns as there are nodes. Quotients and sums are rounded to doubles where
  the source's are; what is read is finite.
-/

namespace ServingSim

namespace Optimality

/-! ## Manifests -/

structure LeafDesc where
  name : String
  kind : String
  deriving DecidableEq

structure Manifest where
  slots : List LeafDesc
  nodes : List FlatCostNode

/-- A worker's sections and their cost trees. -/
structure ManifestDoc where
  sections : List (String × Manifest)

abbrev WorkerKey := String × Nat

/-- The node of one worker's section that is selected. -/
structure Occurrence where
  worker : WorkerKey
  sectionName : String
  nodeIdx : Nat

def communicationKinds : List String :=
  ["all_reduce", "all_gather", "reduce_scatter", "all_to_all", "moe_ep_all_gather",
    "moe_ep_quantized_all_gather", "moe_ep_reduce_scatter", "broadcast", "gather", "scatter",
    "send", "recv"]

def isCommunicationKind (kind : String) : Bool :=
  decide (kind ∈ communicationKinds) || kind.startsWith "p2p" || kind.startsWith "nccl" ||
    kind.startsWith "comm"

def ManifestDoc.slots (doc : ManifestDoc) : List LeafDesc := doc.sections.flatMap (·.2.slots)

/-- A worker's locations, each where its name comes first. -/
def addLocation (locations : List KernelLocation) (leaf : LeafDesc) : List KernelLocation :=
  if leaf.name ∈ locations.map (·.name) then locations
  else locations ++ [⟨leaf.name, leaf.kind, isCommunicationKind leaf.kind⟩]

def kernelLocationsOf (doc : ManifestDoc) : List KernelLocation :=
  doc.slots.foldl addLocation []

/-- The children of a node; of an invalid range there are none. -/
def nodeChildren (nodes : List FlatCostNode) (i : Nat) : List Nat :=
  match nodes[i]?.bind FlatCostNode.children with
  | none => []
  | some children =>
    if children.stop < children.start ∨ nodes.length < children.stop then []
    else List.range' children.start (children.stop - children.start)

/-- The leaves below a node, by the names of their slots. -/
def leafNames (manifest : Manifest) (i : Nat) (below : List (List String)) : List String :=
  match manifest.nodes[i]? with
  | some (.leaf slot) => ((manifest.slots[slot]?).map (·.name)).toList
  | some _ => below.flatten
  | none => []

def descendantLeaves (manifest : Manifest) (nodeIdx : Nat) : List String :=
  ForwardTree.value (nodeChildren manifest.nodes) manifest.nodes.length (leafNames manifest)
    nodeIdx

/-! ## Rows -/

def loadLocationMaps (maps : List LocationMap) : Except String (List LocationMap) := do
  maps.forM fun locationMap => do
    ensure (locationMap.schemaVersion = 1)
      ("unsupported location-map schema " ++ toString locationMap.schemaVersion)
    ensure (locationMap.locations.map (·.location)).Nodup
      ("location map \"" ++ locationMap.mappingId ++ "\" contains duplicate location")
  .ok maps

def consumeRow (semantics : List String) (semantic : String) : Except String (List String) := do
  ensure (semantic ∉ semantics)
    ("selected CostTree subtree maps semantic row \"" ++ semantic ++ "\" more than once")
  .ok (semantics ++ [semantic])

/-- The rows of one selected location; of two rules of one location the last stands. -/
def consumeLocation (locationMap : LocationMap) (semantics : List String) (location : String) :
    Except String (List String) :=
  match (locationMap.locations.reverse.find? fun rule => rule.location = location) with
  | none => .error ("location map has no rule for selected leaf \"" ++ location ++ "\"")
  | some rule => rule.semantics.foldlM consumeRow semantics

def selectedSemantics (locationMap : LocationMap) (doc : ManifestDoc) (occurrence : Occurrence) :
    Except String (List String) :=
  match doc.sections.lookup occurrence.sectionName with
  | none => .error "selected section missing while applying location map"
  | some manifest => do
    let semantics ← (descendantLeaves manifest occurrence.nodeIdx).foldlM
      (consumeLocation locationMap) []
    .ok (nameSet semantics)

def segmentOf (missing ambiguous : String → String) (segments : List SemanticWork)
    (name : String) : Except String SemanticWork :=
  match segments.filter fun segment => segment.name = name with
  | [segment] => .ok segment
  | [] => .error (missing name)
  | _ => .error (ambiguous name)

/-- Seconds of compute at a peak. -/
def computeSeconds (peak flops : ℚ) : ℚ := Binary64.div flops (Binary64.mul peak (10 ^ 12))

def memorySeconds (bandwidthGbps bytes : ℚ) : ℚ :=
  Binary64.div bytes (Binary64.mul bandwidthGbps (10 ^ 9))

/-- A roofline at a peak. -/
def rooflineAt (gpuSpec : GpuSpec) (peak flops bytes : ℚ) : ℚ :=
  max (computeSeconds peak flops) (memorySeconds gpuSpec.memBandwidthGbps bytes)

def semanticFloorValues (segments : List SemanticWork) (selected : List String)
    (gpuSpec : GpuSpec) (dtype : String) : Except String (ℚ × ℚ) := do
  let peak := gpuSpec.peakTflops dtype
  ensure (0 < peak ∧ 0 < gpuSpec.memBandwidthGbps)
    "semantic hardware spec has no positive compute peak or bandwidth"
  let rows ← selected.mapM (segmentOf
    (fun name => "semantic segment \"" ++ name ++ "\" is missing")
    (fun name => "semantic segment \"" ++ name ++ "\" is ambiguous") segments)
  .ok (Binary64.sum (rows.map fun row => rooflineAt gpuSpec peak row.flops row.bytes),
    rooflineAt gpuSpec peak (Binary64.sum (rows.map (·.flops)))
      (Binary64.sum (rows.map (·.bytes))))

/-- A selected row, checked. -/
def checkedSegment (segments : List SemanticWork) (semantic : String) :
    Except String SemanticWork := do
  let segment ← segmentOf
    (fun name => "model.work label has no semantic segment \"" ++ name ++ "\"")
    (fun name => "model.work label has ambiguous semantic segment \"" ++ name ++ "\"")
    segments semantic
  ensure (0 ≤ segment.flops ∧ 0 ≤ segment.bytes)
    ("model.work semantic segment \"" ++ semantic ++ "\" has invalid work")
  .ok segment

/-! ## Floors -/

/-- What a run's report reads. -/
structure ScopedRun where
  maps : List LocationMap
  poolSpecs : List (String × PoolModelSpec)
  /-- Each selected worker's GPU, by its canonical name. -/
  hardware : List (WorkerKey × String × GpuSpec)
  manifests : List (WorkerKey × ManifestDoc)
  /-- The workers that are pipeline stages. -/
  stages : List WorkerKey
  labels : List (WorkerKey × List IterationLabel)

structure SemanticFloors where
  r6GpuS : ℚ
  r7GpuS : ℚ
  mappingIds : List String
  semanticNames : List String

/-- The sums over the selected workers. -/
structure FloorTotals where
  mappingIds : List String
  semanticNames : List String
  commonHardware : Option (String × String × String × GpuSpec)
  flops : ℚ
  bytes : ℚ
  segmentedGpuS : ℚ

def required {α : Type} (message : String) : Option α → Except String α
  | some a => .ok a
  | none => .error message

namespace ScopedRun

def expectedLeaves (doc : ManifestDoc) : List String :=
  nameSet ((doc.slots.filter fun leaf => !isCommunicationKind leaf.kind).map (·.name))

/-- The map whose locations are exactly the worker's; a stage's need only contain them. -/
def selectLocationMap (maps : List LocationMap) (archType : String) (doc : ManifestDoc)
    (pipelineStage : Bool) : Except String LocationMap :=
  let expected := expectedLeaves doc
  let candidates := (maps.filter fun locationMap => archType ∈ locationMap.archTypes).filter
    fun locationMap => locationMap.mapsExactly pipelineStage expected
  match candidates with
  | [locationMap] => .ok locationMap
  | [] => .error ("no exact semantic location map for arch type \"" ++ archType ++
      "\" and selected run manifest")
  | _ => .error ("multiple exact semantic location maps for arch type \"" ++ archType ++ "\": " ++
      showNames (candidates.map (·.mappingId)))

/-- The GPU that all selected workers share. -/
def joinHardware (common : Option (String × String × String × GpuSpec))
    (key : String × String × String) (gpuSpec : GpuSpec) :
    Except String (Option (String × String × String × GpuSpec)) :=
  match common with
  | none => .ok (some (key.1, key.2.1, key.2.2, gpuSpec))
  | some known => do
    ensure (¬(known.1 ≠ key.1 ∨ known.2.1 ≠ key.2.1 ∨ known.2.2.1 ≠ key.2.2))
      "selected semantic scope spans heterogeneous model, dtype, or GPU specs"
    .ok (some known)

def addOccurrence (run : ScopedRun) (maps : List LocationMap) (totals : FloorTotals)
    (occurrence : Occurrence) : Except String FloorTotals := do
  let pool := occurrence.worker.1
  let poolSpec ← required ("params has no model spec for selected pool \"" ++ pool ++ "\"")
    (run.poolSpecs.lookup pool)
  let hardware ← required ("GPU spec unavailable for selected worker \"" ++ pool ++ "\"")
    (run.hardware.lookup occurrence.worker)
  let doc ← required ("cost manifest missing for selected worker \"" ++ pool ++ "\"")
    (run.manifests.lookup occurrence.worker)
  let locationMap ← selectLocationMap maps poolSpec.archType doc
    (decide (occurrence.worker ∈ run.stages))
  let common ← joinHardware totals.commonHardware
    (poolSpec.archType, poolSpec.fallbackDtype, hardware.1) hardware.2
  let selected ← selectedSemantics locationMap doc occurrence
  let labels ← required ("model.work label missing for selected worker \"" ++ pool ++ "\"")
    (run.labels.lookup occurrence.worker)
  let label ← required "model.work returned no worker label" labels.head?
  ensure (0 < hardware.2.peakTflops poolSpec.fallbackDtype ∧ 0 < hardware.2.memBandwidthGbps)
    "selected semantic scope has no positive hardware peak or bandwidth"
  let values ← semanticFloorValues label.segments selected hardware.2 poolSpec.fallbackDtype
  let rows ← selected.mapM (checkedSegment label.segments)
  .ok ⟨totals.mappingIds ++ [locationMap.mappingId], totals.semanticNames ++ selected, common,
    (rows.map (·.flops)).foldl Binary64.add totals.flops,
    (rows.map (·.bytes)).foldl Binary64.add totals.bytes,
    Binary64.add totals.segmentedGpuS values.1⟩

def computeSemanticFloors (run : ScopedRun) (occurrences : List Occurrence) :
    Except String SemanticFloors := do
  let maps ← loadLocationMaps run.maps
  let totals ← occurrences.foldlM (run.addOccurrence maps) ⟨[], [], none, 0, 0, 0⟩
  let common ← required "selected semantic scope has no workers" totals.commonHardware
  let gpuSpec := common.2.2.2
  let peak := gpuSpec.peakTflops common.2.1
  ensure (0 < peak ∧ 0 < gpuSpec.memBandwidthGbps)
    "selected semantic scope has no positive fused hardware ceiling"
  .ok ⟨totals.segmentedGpuS, rooflineAt gpuSpec peak totals.flops totals.bytes,
    nameSet totals.mappingIds, nameSet totals.semanticNames⟩

end ScopedRun

end Optimality

end ServingSim
