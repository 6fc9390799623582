import ServingSim.Common.Ensure

/-
  The cost structure of an iteration (`timing::cost_tree`): the recursive tree a
  model compiles to, the flat array it is lowered to, and the reverse pass that
  rolls a buffer of leaf metrics up the array.

  `CostNode.meaning` is the other reading of the tree, by recursion: a serial
  composition adds, a repeat multiplies, a fan-out takes the largest child time
  over its overlap and adds the work, a label changes nothing.

  Metrics are exact rationals. An index out of bounds is `none`; the slot
  descriptions are not read by these functions.
-/

namespace ServingSim

/-! ## Metrics -/

structure Metrics4 where
  timeMs : ℚ
  flops : ℚ
  bytes : ℚ
  energyJ : ℚ
  deriving DecidableEq, Repr

namespace Metrics4

def zero : Metrics4 := ⟨0, 0, 0, 0⟩

def addScaled (m other : Metrics4) (weight : ℚ) : Metrics4 where
  timeMs := m.timeMs + other.timeMs * weight
  flops := m.flops + other.flops * weight
  bytes := m.bytes + other.bytes * weight
  energyJ := m.energyJ + other.energyJ * weight

def scale (m : Metrics4) (factor : ℚ) : Metrics4 where
  timeMs := m.timeMs * factor
  flops := m.flops * factor
  bytes := m.bytes * factor
  energyJ := m.energyJ * factor

end Metrics4

/-- Extrapolated, just-in-time and no-coverage warnings, one bit each. -/
abbrev CoverageFlags := BitVec 8

structure LeafMetrics where
  m : Metrics4
  coverage : CoverageFlags
  backendIndex : UInt8
  deriving DecidableEq

namespace LeafMetrics

/-- No selected backend: an aggregate, or a leaf that did not run. -/
def noBackend : UInt8 := 255

def zero : LeafMetrics := ⟨.zero, 0, noBackend⟩

def add (acc other : LeafMetrics) : LeafMetrics :=
  { acc with m := acc.m.addScaled other.m 1, coverage := acc.coverage ||| other.coverage }

def scale (metrics : LeafMetrics) (factor : ℚ) : LeafMetrics :=
  { metrics with m := metrics.m.scale factor }

end LeafMetrics

/-! ## The tree and its flat form -/

inductive CostNode where
  | leaf (slot : Nat)
  | sum (children : List CostNode)
  /-- Rank fan-out. -/
  | max (overlap : ℚ) (children : List CostNode)
  /-- Concurrent streams on one device. -/
  | parallel (overlap : ℚ) (children : List CostNode)
  | scale (n : Nat) (child : CostNode)
  | labeled (label : String) (child : CostNode)

/-- A contiguous block of flat nodes. -/
structure ChildRange where
  start : Nat
  stop : Nat
  deriving DecidableEq, Repr

inductive FlatCostNode where
  | leaf (slot : Nat)
  | sum (children : ChildRange)
  | max (overlap : ℚ) (children : ChildRange)
  | parallel (overlap : ℚ) (children : ChildRange)
  | scale (n : Nat) (children : ChildRange)
  deriving DecidableEq, Repr

/-- The direct children of a composite. -/
def FlatCostNode.children : FlatCostNode → Option ChildRange
  | leaf _ => none
  | sum children | max _ children | parallel _ children | scale _ children => some children

namespace CostNode

mutual

/-- Nodes of the tree, labels included. -/
def size : CostNode → Nat
  | leaf _ => 1
  | sum children | max _ children | parallel _ children => sizes children + 1
  | scale _ child | labeled _ child => size child + 1

def sizes : List CostNode → Nat
  | [] => 0
  | child :: children => size child + sizes children

end

mutual

/-- The slots of the leaves. -/
def leafSlots : CostNode → List Nat
  | leaf slot => [slot]
  | sum children | max _ children | parallel _ children => leafSlotsAll children
  | scale _ child | labeled _ child => leafSlots child

def leafSlotsAll : List CostNode → List Nat
  | [] => []
  | child :: children => leafSlots child ++ leafSlotsAll children

end

end CostNode

/-! ## Lowering -/

/-- The arrays of a lowering under way, and the tree nodes still to be put at
their reserved places. -/
structure Lowering where
  out : List (Option FlatCostNode)
  labels : List (Option String)
  queue : List (CostNode × Nat)

/-- `Vec::resize`. -/
def resize {α : Type} (l : List α) (len : Nat) (fill : α) : List α :=
  (l ++ List.replicate (len - l.length) fill).take len

namespace Lowering

/-- Reserve a contiguous block for `children` and enqueue each of them. -/
def reserve (lowering : Lowering) (children : List CostNode) : Lowering × ChildRange :=
  let start := lowering.out.length
  let out := lowering.out ++ children.map fun _ => none
  ({ out := out
     labels := resize lowering.labels out.length none
     queue := lowering.queue ++ children.zipIdx start },
    ⟨start, start + children.length⟩)

def fill (lowering : Lowering) (idx : Nat) (node : FlatCostNode) : Lowering :=
  { lowering with out := lowering.out.set idx (some node) }

/-- Put one tree node at its place; a label is kept there, the outermost one, and
its child takes the place. -/
def lower (lowering : Lowering) (idx : Nat) : CostNode → Lowering
  | .leaf slot => lowering.fill idx (.leaf slot)
  | .sum children =>
    let (reserved, range) := lowering.reserve children
    reserved.fill idx (.sum range)
  | .max overlap children =>
    let (reserved, range) := lowering.reserve children
    reserved.fill idx (.max overlap range)
  | .parallel overlap children =>
    let (reserved, range) := lowering.reserve children
    reserved.fill idx (.parallel overlap range)
  | .scale n child =>
    let (reserved, range) := lowering.reserve [child]
    reserved.fill idx (.scale n range)
  | .labeled label child =>
    { lowering with
      labels :=
        if lowering.labels[idx]?.join = none then lowering.labels.set idx (some label)
        else lowering.labels
      queue := lowering.queue ++ [(child, idx)] }

/-- The breadth-first loop; the fuel counts the nodes left in the queue. -/
def drain : Nat → Lowering → Lowering
  | 0, lowering => lowering
  | fuel + 1, lowering =>
    match lowering.queue with
    | [] => lowering
    | (node, idx) :: rest => drain fuel ({ lowering with queue := rest }.lower idx node)

end Lowering

namespace CostNode

/-- The flat nodes, and at each the label that wrapped it. -/
def flattenLabeled (root : CostNode) : Except String (List FlatCostNode × List (Option String)) :=
  let drained := Lowering.drain root.size ⟨[none], [none], [(root, 0)]⟩
  match drained.out.mapM id with
  | some nodes => .ok (nodes, drained.labels)
  | none => .error "every reserved flat node is filled"

def flatten (root : CostNode) : Except String (List FlatCostNode) := do
  let (nodes, _) ← root.flattenLabeled
  return nodes

end CostNode

/-! ## Rolling up -/

/-- The metrics a range of flat nodes was rolled up to. -/
def childMetrics (scratch : List LeafMetrics) (children : ChildRange) : Option (List LeafMetrics) :=
  (List.range' children.start (children.stop - children.start)).mapM fun c => scratch[c]?

def addAll (metrics : List LeafMetrics) : LeafMetrics := metrics.foldl LeafMetrics.add .zero

/-- Work adds, the time is the largest child time over the overlap. -/
def overlapped (overlap : ℚ) (metrics : List LeafMetrics) : LeafMetrics :=
  let acc := addAll metrics
  let maxTime := metrics.foldl (fun time child => Max.max time child.m.timeMs) 0
  { acc with m := { acc.m with timeMs := maxTime / overlap } }

/-- One flat node's metrics, from its children's. -/
def combine (buf scratch : List LeafMetrics) : FlatCostNode → Option LeafMetrics
  | .leaf slot => buf[slot]?
  | .sum children => (childMetrics scratch children).map addAll
  | .scale n children => (childMetrics scratch children).map fun metrics => (addAll metrics).scale n
  | .max overlap children | .parallel overlap children =>
    (childMetrics scratch children).map (overlapped overlap)

/-- The reverse pass over the first `k` nodes. -/
def rollUp (flat : List FlatCostNode) (buf : List LeafMetrics) :
    Nat → List LeafMetrics → Option (List LeafMetrics)
  | 0, scratch => some scratch
  | i + 1, scratch => do
    let node ← flat[i]?
    let metrics ← combine buf scratch node
    rollUp flat buf i (scratch.set i metrics)

def aggregate (flat : List FlatCostNode) (buf : List LeafMetrics) : Option LeafMetrics :=
  if flat.isEmpty then some .zero
  else do
    let scratch ← rollUp flat buf flat.length (List.replicate flat.length .zero)
    scratch[0]?

/-! ## The recursive meaning -/

/-- Serial composition: every field adds, the warnings join. -/
def serial (metrics : List LeafMetrics) : LeafMetrics where
  m :=
    { timeMs := (metrics.map fun child => child.m.timeMs).sum
      flops := (metrics.map fun child => child.m.flops).sum
      bytes := (metrics.map fun child => child.m.bytes).sum
      energyJ := (metrics.map fun child => child.m.energyJ).sum }
  coverage := (metrics.map fun child => child.coverage).foldr (· ||| ·) 0
  backendIndex := LeafMetrics.noBackend

/-- The largest of the children's times, zero without children. -/
def largestTime (metrics : List LeafMetrics) : ℚ :=
  (metrics.map fun child => child.m.timeMs).max?.getD 0

/-- Fan-out: the work of all children, the time of the slowest over the overlap. -/
def fanOut (overlap : ℚ) (metrics : List LeafMetrics) : LeafMetrics :=
  { serial metrics with
    m := { (serial metrics).m with timeMs := largestTime metrics / overlap } }

/-- `n` times the same. -/
def repeated (n : Nat) (child : LeafMetrics) : LeafMetrics where
  m :=
    { timeMs := n * child.m.timeMs
      flops := n * child.m.flops
      bytes := n * child.m.bytes
      energyJ := n * child.m.energyJ }
  coverage := child.coverage
  backendIndex := LeafMetrics.noBackend

namespace CostNode

mutual

/-- What a tree says an iteration costs. -/
def meaning (buf : List LeafMetrics) : CostNode → LeafMetrics
  | leaf slot => buf.getD slot .zero
  | sum children => serial (meanings buf children)
  | max overlap children | parallel overlap children => fanOut overlap (meanings buf children)
  | scale n child => repeated n (meaning buf child)
  | labeled _ child => meaning buf child

def meanings (buf : List LeafMetrics) : List CostNode → List LeafMetrics
  | [] => []
  | child :: children => meaning buf child :: meanings buf children

end

mutual

/-- Every fan-out divides by a positive overlap. -/
def OverlapsPositive : CostNode → Prop
  | leaf _ => True
  | sum children => OverlapsPositiveAll children
  | max overlap children | parallel overlap children =>
    0 < overlap ∧ OverlapsPositiveAll children
  | scale _ child | labeled _ child => OverlapsPositive child

def OverlapsPositiveAll : List CostNode → Prop
  | [] => True
  | child :: children => OverlapsPositive child ∧ OverlapsPositiveAll children

end

/-- The buffer has a slot for every leaf, with a time that is not negative. -/
structure Fills (buf : List LeafMetrics) (root : CostNode) : Prop where
  slots : ∀ slot ∈ root.leafSlots, slot < buf.length
  times : ∀ metrics ∈ buf, 0 ≤ metrics.m.timeMs

end CostNode

end ServingSim
