import ServingSim.Common.Ensure
import ServingSim.Lib.SplitMix
import ServingSim.Lib.Systematic

/-
  Systematic top-k routing (`timing::routing`): one law for an expert distribution,
  as cells of `[0, TOTAL_PPM)` that each pick `top_k` experts.

  The shuffled experts are laid end to end, each as long as its inclusion mass
  `top_k * ppm[e]`, so the line is `top_k` periods of `TOTAL_PPM`. A cell lies between
  neighbouring residues of the ends; no end falls inside it in any period, so each
  of its offsets picks what its lower end picks. A mass is at most one period, so no
  expert is picked twice.

  Expert counts and masses fit the source's integers. The debug assertions are left
  out here and proved of the cells.
-/

namespace ServingSim

open Systematic

/-! ## The generator -/

abbrev RoutingRng := SplitMix.Word

namespace RoutingRng

def new (seed : SplitMix.Word) : RoutingRng := seed

def below (bound : Nat) (rng : RoutingRng) : Except String (Nat × RoutingRng) := do
  ensure (0 < bound) "random bound must be non-zero"
  match SplitMix.below bound rng with
  | some drawn => return drawn
  -- the rejection loop always ends (`SplitMix.below_spec`)
  | none => .error "no word reached the threshold"

theorem below_spec {bound : Nat} (hbound : 0 < bound) (rng : RoutingRng) :
    ∃ (value : Nat) (rng' : RoutingRng), rng.below bound = .ok (value, rng') ∧ value < bound := by
  obtain ⟨value, rng', hdraw, hlt⟩ := SplitMix.below_spec hbound rng
  refine ⟨value, rng', ?_, hlt⟩
  rw [below, ensure_eq_ok_iff.mpr hbound, hdraw]
  rfl

end RoutingRng

/-! ## Cells -/

/-- Parts per million. -/
def totalPpm : Nat := 1000000

structure SystematicCells where
  upperOffsets : List Nat
  /-- The experts of all cells, `topK` for each. -/
  experts : List Nat
  topK : Nat
  numExperts : Nat
  deriving DecidableEq, Repr

namespace SystematicCells

def swap (order : List Nat) (i j : Nat) : Except String (List Nat) := do
  let a ← index order i
  let b ← index order j
  return (order.set i b).set j a

/-- Swap the experts from `last` down to 1 with one at or before them. -/
def shuffle : Nat → List Nat → RoutingRng → Except String (List Nat × RoutingRng)
  | 0, order, rng => .ok (order, rng)
  | last + 1, order, rng => do
    let (other, rng) ← rng.below (last + 2)
    let order ← swap order (last + 1) other
    shuffle last order rng

/-- Lay the experts end to end: their ends, and the residues that are not zero. -/
def lay (ppm : List Nat) (topK : Nat) : Nat → List Nat → Except String (List Nat × List Nat)
  | _, [] => .ok ([], [])
  | cumulative, expert :: order => do
    let mass ← index ppm expert
    let inclusionMass := mass * topK
    ensure (inclusionMass ≤ totalPpm)
      (s!"infeasible distinct top-k marginals: top_k * ppm[{expert}] = {inclusionMass} " ++
        s!"exceeds {totalPpm}")
    let cumulative := cumulative + inclusionMass
    let residue := cumulative % totalPpm
    let (ends, residues) ← lay ppm topK cumulative order
    return (cumulative :: ends, if residue ≠ 0 then residue :: residues else residues)

/-- The experts an offset picks, one in each period. -/
def picks (ends order : List Nat) (topK offset : Nat) : Except String (List Nat) :=
  (List.range topK).mapM fun copy =>
    index order (partitionPoint (fun upper => decide (upper ≤ offset + copy * totalPpm)) ends)

/-- The cells for one order of the experts. -/
def ofOrder (ppm : List Nat) (topK : Nat) (order : List Nat) : Except String SystematicCells := do
  let (ends, residues) ← lay ppm topK 0 order
  ensure (ends.getLastD 0 = topK * totalPpm) "assertion left == right failed"
  let boundaries := dedupRuns ((0 :: residues).mergeSort (· ≤ ·)) ++ [totalPpm]
  let experts ← (boundaries.zip boundaries.tail).mapM fun bounds => picks ends order topK bounds.1
  let upperOffsets := boundaries.tail
  ensure (upperOffsets.getLast? = some totalPpm) "assertion left == right failed"
  return { upperOffsets, experts := experts.flatten, topK, numExperts := ppm.length }

def new (ppm : List Nat) (topK : Nat) (rng : RoutingRng) :
    Except String (SystematicCells × RoutingRng) := do
  let numExperts := ppm.length
  ensure (topK ≤ numExperts) s!"top_k {topK} exceeds expert count {numExperts}"
  ensure (ppm.sum = totalPpm)
    "systematic routing requires a normalized global ppm distribution"
  let (order, rng) ← shuffle (numExperts - 1) (List.range numExperts) rng
  let cells ← ofOrder ppm topK order
  return (cells, rng)

def cellExperts (cells : SystematicCells) (cell : Nat) : List Nat :=
  (cells.experts.drop (cell * cells.topK)).take cells.topK

/-- The cell an offset falls in. -/
def cellOf (cells : SystematicCells) (offset : Nat) : Nat :=
  partitionPoint (fun upper => decide (upper ≤ offset)) cells.upperOffsets

/-- The tokens of each cell. -/
def occupy (cells : SystematicCells) :
    Nat → List Nat → RoutingRng → Except String (List Nat × RoutingRng)
  | 0, occupancy, rng => .ok (occupancy, rng)
  | nTokens + 1, occupancy, rng => do
    let (offset, rng) ← rng.below totalPpm
    let occupancy ← bump occupancy (cells.cellOf offset) 1
    cells.occupy nTokens occupancy rng

/-- Give a cell's tokens to each of its experts. -/
def tally (cells : SystematicCells) (counts : List Nat) (cell count : Nat) :
    Except String (List Nat) :=
  if count = 0 then .ok counts
  else (cells.cellExperts cell).foldlM (fun counts expert => bump counts expert count) counts

def sampleCounts (cells : SystematicCells) (nTokens : Nat) (rng : RoutingRng) :
    Except String (List Nat × RoutingRng) := do
  let (occupancy, rng) ←
    cells.occupy nTokens (List.replicate cells.upperOffsets.length 0) rng
  let counts ← occupancy.zipIdx.foldlM (fun counts entry => cells.tally counts entry.2 entry.1)
    (List.replicate cells.numExperts 0)
  return (counts, rng)

end SystematicCells

/-- One complete global histogram. -/
def sampleTopkExpertCounts (ppm : List Nat) (topK nTokens : Nat) (seed : SplitMix.Word) :
    Except String (List Nat) := do
  let (cells, rng) ← SystematicCells.new ppm topK (RoutingRng.new seed)
  let (counts, _) ← cells.sampleCounts nTokens rng
  return counts

end ServingSim
