import Mathlib.Data.Rat.Floor
import ServingSim.Analyzer.BalancedFold

/-
  Laying an iteration out as nested slices (`trace::place`).

  A walk over the flat cost tree emits, for every node, a slice on the worker's track: a
  leaf with its duration, a composite around what it lays out inside. A fan-out is either
  collapsed to its slowest branch, squeezed into the fan-out's own time, or expanded, each
  branch on a lane of its own. Two counters say beforehand how many slices there will be.

  A track's identifier is a hash of its parent's, the lane's number and its name, which is
  made of the number: a track is the list of the lanes that lead to it from the worker's.
  Nanoseconds are integers, scales and divisions exact rationals; `round` is to the nearest
  integer, halves away from zero. The walk takes turns, one for each node of the array; an
  index out of bounds is `none`. The writer's packets are the list of those appended.
-/

namespace ServingSim

namespace TracePlacement

/-- Identity of a leaf slot; the configuration as its text. -/
structure LeafDesc where
  name : String
  kind : String
  kernelConfig : String

structure Manifest where
  slots : List LeafDesc
  nodes : List FlatCostNode
  nodeLabels : List (Option String)

/-- To the nearest integer, halves away from zero. -/
def roundNs (x : ℚ) : Int := if 0 ≤ x then ⌊x + 1 / 2⌋ else -⌊-x + 1 / 2⌋

/-! ## Critical path -/

/-- Duration of the subtree at a node, as the simulator folds it. -/
def nodeTime (m : Manifest) (slotNs : List Int) : Nat → Nat → Option Int
  | 0, _ => none
  | turns + 1, idx => do
    let node ← m.nodes[idx]?
    match node with
    | .leaf slot => some (slotNs.getD slot 0)
    | .sum children => do
      let times ← children.places.mapM (nodeTime m slotNs turns)
      some times.sum
    | .max overlap children | .parallel overlap children => do
      let times ← children.places.mapM (nodeTime m slotNs turns)
      some (roundNs (times.max?.getD 0 / BalancedFold.overlapDivisor overlap))
    | .scale n children => do
      let time ← nodeTime m slotNs turns children.start
      some (n * time)

/-- Of children and their times, the last with the largest. -/
def lastSlowest : List (Nat × Int) → Option (Nat × Int)
  | [] => none
  | child :: children =>
    match lastSlowest children with
    | none => some child
    | some best => some (if child.2 ≤ best.2 then best else child)

/-- The child of a fan-out with the largest time. -/
def criticalChild (m : Manifest) (children : ChildRange) (slotNs : List Int) : Option Nat := do
  let times ← children.places.mapM fun c => (nodeTime m slotNs m.nodes.length c).map (Prod.mk c)
  let slowest ← lastSlowest times
  some slowest.1

/-! ## Packets -/

inductive Annotation where
  | str (name value : String)
  | dbl (name : String) (value : ℚ)

/-- The lanes that lead to a track from the worker's. -/
abbrev Track := List Nat

inductive Packet where
  | descriptor (track : Track) (name : String)
  | sliceBegin (track : Track) (tsNs : Int) (name : String) (anns : List Annotation)
  | sliceEnd (track : Track) (tsNs : Int)

/-- Last dotted segment of a slot name. -/
def leafShortName (name : String) : String :=
  String.ofList (name.toList.reverse.takeWhile (· ≠ '.')).reverse

/-- Per-iteration placement context. -/
structure Placer where
  manifest : Manifest
  slotNs : List Int
  slotInput : List String
  slotFlops : List ℚ
  slotBytes : List ℚ
  expanded : Bool

/-- Placed items in sequence, each from where the one before ended. -/
def inOrder {α : Type} (step : α → Int → Option (Int × List Packet)) :
    List α → Int → Option (Int × List Packet)
  | [], t => some (t, [])
  | item :: items, t => do
    let placed ← step item t
    let rest ← inOrder step items (t + placed.1)
    some (rest.1, placed.2 ++ rest.2)

namespace Placer

variable (p : Placer)

def labelOr (idx : Nat) (default : String) : String :=
  (p.manifest.nodeLabels[idx]?.join).getD default

/-- An achieved rate, where the row has one and the time is not zero. -/
def rateAnnotation (name : String) (amounts : List ℚ) (slot : Nat) (leafS unit : ℚ) :
    List Annotation :=
  match amounts[slot]? with
  | some amount => if 0 < leafS ∧ 0 < amount then [.dbl name (amount / leafS / unit)] else []
  | none => []

def leafAnnotations (slot : Nat) (desc : LeafDesc) (leafNs dur : Int) : List Annotation :=
  [.str "kind" desc.kind, .str "kernel_config" desc.kernelConfig, .dbl "dur_ms" (dur / 10 ^ 6)] ++
  rateAnnotation "tflops" p.slotFlops slot (leafNs / 10 ^ 9) (10 ^ 12) ++
  rateAnnotation "gbps" p.slotBytes slot (leafNs / 10 ^ 9) (10 ^ 9) ++
  match p.slotInput[slot]? with
  | some input => if input.isEmpty then [] else [.str "input" input]
  | none => []

def placeLeaf (track : Track) (slot : Nat) (t0 : Int) (scale : ℚ) : Option (Int × List Packet) := do
  let leafNs := p.slotNs.getD slot 0
  let dur := roundNs (leafNs * scale)
  let desc ← p.manifest.slots[slot]?
  some (dur,
    [.sliceBegin track t0 (leafShortName desc.name) (p.leafAnnotations slot desc leafNs dur),
      .sliceEnd track (t0 + dur)])

/-- A wrapper around what was placed from a time to another. -/
def wrap (track : Track) (t0 : Int) (name : String) (inner : List Packet) (t : Int) :
    List Packet :=
  .sliceBegin track t0 name [] :: (inner ++ [.sliceEnd track t])

def repeatName (idx l : Nat) : String :=
  match p.manifest.nodeLabels[idx]?.join with
  | some unit => unit ++ " " ++ toString l
  | none => "[" ++ toString l ++ "]"

def scaleName (idx n : Nat) : String :=
  match p.manifest.nodeLabels[idx]?.join with
  | some unit => unit ++ " ×" ++ toString n
  | none => "×" ++ toString n

/-- A branch on a lane of its own. -/
def placeLane (place : Track → Nat → Int → ℚ → Option (Int × List Packet)) (track : Track)
    (t0 : Int) (scale : ℚ) (branch : Nat × Nat) : Option (Int × List Packet) := do
  let lane := track ++ [branch.2]
  let placed ← place lane branch.1 t0 scale
  some (placed.1, .descriptor lane ("lane " ++ toString branch.2) :: placed.2)

/-- The inside of a fan-out: every branch on its lane, or the critical one inline. -/
def placeFanOut (place : Track → Nat → Int → ℚ → Option (Int × List Packet)) (track : Track)
    (overlap : ℚ) (children : ChildRange) (t0 : Int) (scale : ℚ) :
    Option (Int × List Packet) :=
  if p.expanded then do
    let lanes ← children.places.zipIdx.mapM (placeLane place track t0 scale)
    let maxd := (lanes.map Prod.fst).foldl max 0
    some (roundNs (maxd / overlap), lanes.flatMap Prod.snd)
  else do
    let crit ← criticalChild p.manifest children p.slotNs
    let time ← nodeTime p.manifest p.slotNs p.manifest.nodes.length crit
    let critNat := max time 1
    let effNat := roundNs (critNat / overlap)
    place track crit t0 (scale * effNat / critNat)

/-- Place a node, returning its displayed duration. -/
def place : Nat → Track → Nat → Int → ℚ → Option (Int × List Packet)
  | 0, _, _, _, _ => none
  | turns + 1, track, idx, t0, scale => do
    let node ← p.manifest.nodes[idx]?
    match node with
    | .leaf slot => p.placeLeaf track slot t0 scale
    | .sum children => do
      let inner ← inOrder (fun c t => place turns track c t scale) children.places t0
      some (inner.1 - t0, wrap track t0 (p.labelOr idx "sum") inner.2 inner.1)
    | .scale n children => do
      let inner ← inOrder (fun l t => do
        let placed ← place turns track children.start t scale
        some (placed.1, wrap track t (p.repeatName idx l) placed.2 (t + placed.1)))
        (List.range n) t0
      some (inner.1 - t0, wrap track t0 (p.scaleName idx n) inner.2 inner.1)
    | .max overlap children => do
      let inner ← p.placeFanOut (place turns) track overlap children t0 scale
      some (inner.1, wrap track t0 (p.labelOr idx "max") inner.2 (t0 + inner.1))
    | .parallel overlap children => do
      let inner ← p.placeFanOut (place turns) track overlap children t0 scale
      some (inner.1, wrap track t0 (p.labelOr idx "parallel") inner.2 (t0 + inner.1))

/-- Place the whole tree. -/
def placeRoot (track : Track) (t0 : Int) : Option (Int × List Packet) :=
  p.place p.manifest.nodes.length track 0 t0 1

end Placer

/-! ## Counters -/

def slicePairs (m : Manifest) : Nat → Nat → Option Nat
  | 0, _ => none
  | turns + 1, idx => do
    let node ← m.nodes[idx]?
    match node with
    | .leaf _ => some 1
    | .sum children | .max _ children | .parallel _ children => do
      let pairs ← children.places.mapM (slicePairs m turns)
      some (1 + pairs.sum)
    | .scale n children => do
      let pairs ← slicePairs m turns children.start
      some (1 + n * (1 + pairs))

/-- The slices of one expanded iteration, with the outer one. -/
def slicePairsPerIter (m : Manifest) : Option Nat := do
  let pairs ← slicePairs m m.nodes.length 0
  some (1 + pairs)

def criticalPairs (m : Manifest) (slotNs : List Int) : Nat → Nat → Option Nat
  | 0, _ => none
  | turns + 1, idx => do
    let node ← m.nodes[idx]?
    match node with
    | .leaf _ => some 1
    | .sum children => do
      let pairs ← children.places.mapM (criticalPairs m slotNs turns)
      some (1 + pairs.sum)
    | .max _ children | .parallel _ children => do
      let crit ← criticalChild m children slotNs
      let pairs ← criticalPairs m slotNs turns crit
      some (1 + pairs)
    | .scale n children => do
      let pairs ← criticalPairs m slotNs turns children.start
      some (1 + n * (1 + pairs))

/-- The slices of one collapsed iteration, with the outer one. -/
def criticalPairsPerIter (m : Manifest) (slotNs : List Int) : Option Nat := do
  let pairs ← criticalPairs m slotNs m.nodes.length 0
  some (1 + pairs)

end TracePlacement

end ServingSim
