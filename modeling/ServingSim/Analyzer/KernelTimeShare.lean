import ServingSim.Analyzer.BalancedFold
import ServingSim.Timing.CostAggregate

/-
  Kernel-time shares of one row (`breakdown::kernel_time_share`).

  A section's flat cost tree is evaluated from the back, and the root's time is then handed
  down: a sum gives every child its weight, a repeat multiplies it, a fan-out divides it
  among its slowest children. A leaf's share goes to the position of its slot. The shares of
  the last row are kept for a next row with the same times.

  Times are exact rationals; two floats of one value with different bits, the zeros, are
  evaluated again. The scratch arrays are written before they are read, so they are no part
  of the plan. `validate_tree` has checked the ranges and slots that the passes read.
-/

namespace ServingSim

namespace KernelTimeShare

def timeEpsilonMs : ℚ := 1 / 10 ^ 12

def tieRelEpsilon : ℚ := 1 / 10 ^ 9

/-! ## Plans -/

def checkNode (numNodes numSlots idx : Nat) (node : FlatCostNode) : Except String Unit := do
  let checkRange := fun children : ChildRange =>
    ensure (¬(children.stop ≤ children.start ∨ children.start ≤ idx ∨ numNodes < children.stop))
      ("node " ++ toString idx ++ " has invalid BFS child range " ++ toString children.start ++
        ".." ++ toString children.stop)
  match node with
  | .leaf slot =>
    ensure (slot < numSlots)
      ("leaf node " ++ toString idx ++ " references missing slot " ++ toString slot)
  | .sum children | .max _ children | .parallel _ children => checkRange children
  | .scale _ children =>
    ensure (children.stop = children.start + 1)
      ("Scale node " ++ toString idx ++ " must own exactly one child")
    checkRange children

def validateTree (nodes : List FlatCostNode) (numSlots : Nat) : Except String Unit := do
  ensure (nodes ≠ []) "cost manifest section has no root node"
  nodes.zipIdx.forM fun entry => checkNode nodes.length numSlots entry.2 entry.1

structure SectionPlan where
  nodes : List FlatCostNode
  slotPositionIds : List Nat
  lastSlots : List ℚ
  lastShares : List (Nat × ℚ)
  cacheHits : Nat
  cacheMisses : Nat

def SectionPlan.new (nodes : List FlatCostNode) (numSlots : Nat) (slotPositionIds : List Nat) :
    Except String SectionPlan := do
  validateTree nodes numSlots
  .ok ⟨nodes, slotPositionIds, [], [], 0, 0⟩

/-! ## Times -/

/-- The time of the slowest child, zero without one. -/
def maxChild (times : List ℚ) (children : ChildRange) : ℚ :=
  (children.places.map fun child => times.getD child 0).foldl Max.max 0

def overlapDivisor (overlap : ℚ) : ℚ := Max.max overlap timeEpsilonMs

def nodeTime (slotTimes times : List ℚ) : FlatCostNode → Except String ℚ
  | .leaf slot => do
    let value := slotTimes.getD slot 0
    ensure (0 ≤ value) ("slot " ++ toString slot ++ " has invalid time " ++ toString value)
    .ok value
  | .sum children => .ok (children.places.map fun child => times.getD child 0).sum
  | .max overlap children | .parallel overlap children =>
    .ok (maxChild times children / overlapDivisor overlap)
  | .scale n children => .ok (n * times.getD children.start 0)

/-- The reverse pass over the first `k` nodes. -/
def timesFrom (nodes : List FlatCostNode) (slotTimes : List ℚ) :
    Nat → List ℚ → Except String (List ℚ)
  | 0, times => .ok times
  | idx + 1, times => do
    let time ← nodeTime slotTimes times (nodes.getD idx (.leaf 0))
    timesFrom nodes slotTimes idx (times.set idx time)

def nodeTimes (nodes : List FlatCostNode) (slotTimes : List ℚ) : Except String (List ℚ) :=
  timesFrom nodes slotTimes nodes.length (List.replicate nodes.length 0)

/-! ## Shares -/

def addSparseShare (shares : List (Nat × ℚ)) (positionId : Nat) (share : ℚ) : List (Nat × ℚ) :=
  match shares with
  | [] => [(positionId, share)]
  | entry :: entries =>
    if entry.1 = positionId then (entry.1, entry.2 + share) :: entries
    else entry :: addSparseShare entries positionId share

/-- The children that the root's time is the time of. -/
def critical (times : List ℚ) (children : ChildRange) : List Nat :=
  let slowest := maxChild times children
  let tolerance := tieRelEpsilon * Max.max |slowest| 1
  children.places.filter fun child => |times.getD child 0 - slowest| ≤ tolerance

/-- Weights of the nodes and shares of the positions. -/
structure Attributed where
  weights : List ℚ
  shares : List (Nat × ℚ)

def Attributed.addWeight (state : Attributed) (weight : ℚ) (child : Nat) : Attributed :=
  { state with weights := state.weights.set child (state.weights.getD child 0 + weight) }

def attributeNode (slotPositionIds : List Nat) (slotTimes times : List ℚ) (state : Attributed)
    (entry : FlatCostNode × Nat) : Attributed :=
  let weight := state.weights.getD entry.2 0
  if weight = 0 then state
  else
    match entry.1 with
    | .leaf slot =>
      let share := slotTimes.getD slot 0 * weight
      if 0 < share then
        { state with
          shares := addSparseShare state.shares (slotPositionIds.getD slot 0) share }
      else state
    | .sum children => children.places.foldl (fun state child => state.addWeight weight child) state
    | .scale n children => state.addWeight (weight * n) children.start
    | .max overlap children | .parallel overlap children =>
      let slowest := critical times children
      if slowest = [] then state
      else
        let childWeight := weight / overlapDivisor overlap / slowest.length
        slowest.foldl (fun state child => state.addWeight childWeight child) state

/-- The forward pass: the root's time is handed down to the leaves. -/
def attributeRoot (nodes : List FlatCostNode) (slotPositionIds : List Nat)
    (slotTimes times : List ℚ) :
    Attributed :=
  let rootTime := times.getD 0 0
  let zeros := List.replicate nodes.length 0
  if timeEpsilonMs < rootTime then
    nodes.zipIdx.foldl (attributeNode slotPositionIds slotTimes times)
      ⟨zeros.set 0 (1 / rootTime), []⟩
  else ⟨zeros, []⟩

/-- Sort the shares and divide them by their sum. -/
def normalize (shares : List (Nat × ℚ)) : List (Nat × ℚ) :=
  let shares := shares.mergeSort fun left right => left.1 ≤ right.1
  let shareSum := (shares.map Prod.snd).sum
  if timeEpsilonMs < shareSum then shares.map fun share => (share.1, share.2 / shareSum)
  else shares

/-- The shares of a row, and the plan with them in its cache. -/
def SectionPlan.positionShares (plan : SectionPlan) (slotTimes : List ℚ) :
    Except String (List (Nat × ℚ)) × SectionPlan :=
  if slotTimes.length ≠ plan.slotPositionIds.length then
    (.error ("slot_time_ms length " ++ toString slotTimes.length ++ " != manifest slot count " ++
      toString plan.slotPositionIds.length), plan)
  else if slotTimes = plan.lastSlots then
    (.ok plan.lastShares, { plan with cacheHits := plan.cacheHits + 1 })
  else
    let plan := { plan with cacheMisses := plan.cacheMisses + 1 }
    match nodeTimes plan.nodes slotTimes with
    | .error message => (.error message, plan)
    | .ok times =>
      let shares := normalize (attributeRoot plan.nodes plan.slotPositionIds slotTimes times).shares
      (.ok shares, { plan with lastSlots := slotTimes, lastShares := shares })

end KernelTimeShare

end ServingSim
