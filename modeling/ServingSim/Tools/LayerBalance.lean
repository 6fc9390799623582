import ServingSim.Common.Ensure
import Mathlib.Algebra.Order.Field.Rat
import Mathlib.Algebra.Order.Group.Abs
import Mathlib.Data.List.Sort
import Mathlib.Data.String.Basic
import Mathlib.Order.WithBot

/-
  The pipeline split that `pp_layer_balance` recommends.

  Finished runs give the cost of a layer of each kind and the fixed costs of the first, the
  last and every stage. A dynamic program finds the smallest bottleneck of a contiguous
  split; a depth-first search lists the splits within a tolerance of it, up to a cap; the
  recommendation is the split in use when it ties with the first of the list, else that one.

  Costs are exact rationals, an infinite cost is `⊤`. `fnmatch.fnmatch` is any function.
-/

namespace ServingSim

namespace LayerBalance

/-- Splits within tolerance are enumerated; past this many, nothing further. -/
def maxSplits : Nat := 100000

structure Run where
  path : String
  numStages : Nat
  /-- The layers of each stage, in order. -/
  stages : List (List Nat)
  layerCost : String → ℚ
  fixedFirst : ℚ
  fixedLast : ℚ
  fixedEvery : ℚ
  stageMs : List ℚ
  kindOfLayer : List String

def stageCost (run : Run) (lo hi index numStages : Nat) : ℚ :=
  let cost := ((List.range' lo (hi - lo)).map fun layer =>
    run.layerCost (run.kindOfLayer.getD layer "")).sum + run.fixedEvery
  let cost := if index = 0 then cost + run.fixedFirst else cost
  if index + 1 = numStages then cost + run.fixedLast else cost

/-- The remainder goes to the stages before the last, nearest it first. -/
def vllmDefault (numLayers pp : Nat) : List Nat :=
  (List.range' 2 (numLayers % pp)).foldl (fun sizes i => sizes.modify (pp - i) (· + 1))
    (List.replicate pp (numLayers / pp))

def rangesFrom (start : Nat) : List Nat → List (Nat × Nat)
  | [] => []
  | size :: sizes => (start, start + size) :: rangesFrom (start + size) sizes

def ranges (sizes : List Nat) : List (Nat × Nat) := rangesFrom 0 sizes

def stageRanges (run : Run) : List (Nat × Nat) :=
  run.stages.map fun layers => (layers.headD 0, layers.getLastD 0 + 1)

/-! ## What is asked -/

structure Args where
  run : Run
  /-- Further runs of the same model. -/
  runs : List Run
  ppSize : Option Int
  eachStageNeeds : List String
  top : Int
  tolerance : ℚ

def pyList (texts : List String) : String :=
  "[" ++ ", ".intercalate (texts.map fun text => "'" ++ text ++ "'") ++ "]"

/-- The rebuilt stage times agree with the report's. -/
def checkRun (run : Run) : Except String Unit := do
  let own := (stageRanges run).zipIdx.map fun e =>
    stageCost run e.1.1 e.1.2 e.2 run.numStages
  ensure (¬∃ ms ∈ run.stageMs, ms ≤ 0)
    (run.path ++ ": a stage reports no kernel time; use a run that loads every stage")
  let err := (List.zipWith (fun a b => |a - b| / b) own run.stageMs).foldl max 0
  ensure (err ≤ 1 / 100)
    "    rebuilt stage times disagree with the report by >1%; the attribution is wrong"

section fnmatch

variable (fnmatch : String → String → Bool)

/-- The pipeline depth, when nothing stands in the way. -/
def accept (args : Args) : Except String Nat := do
  let kinds := args.run.kindOfLayer
  args.runs.forM fun r =>
    ensure (r.kindOfLayer = kinds)
      (r.path ++ ": layer kinds differ from " ++ args.run.path ++ "; mix runs of one model only")
  let numLayers := kinds.length
  let pp := args.ppSize.getD args.run.numStages
  ensure (1 ≤ pp ∧ pp ≤ numLayers)
    ("--pp-size must be in 1.." ++ toString numLayers ++ ", got " ++ toString pp)
  ensure (¬(args.tolerance < 0 ∨ args.top < 1)) "--tolerance must be >= 0 and --top >= 1"
  args.eachStageNeeds.forM fun glob =>
    ensure (∃ k ∈ kinds, fnmatch k glob)
      ("--each-stage-needs '" ++ glob ++ "' matches no layer kind " ++
        pyList (kinds.dedup.insertionSort (· ≤ ·)))
  (args.run :: args.runs).forM checkRun
  .ok pp.toNat

/-! ## The search -/

structure Problem where
  runs : List Run
  kinds : List String
  needs : List String
  pp : Nat
  tolerance : ℚ

namespace Problem

def numLayers (problem : Problem) : Nat := problem.kinds.length

/-- Each run is normalized to its own total. -/
def cost (problem : Problem) (lo hi i : Nat) : ℚ :=
  (problem.runs.map fun r => stageCost r lo hi i problem.pp / r.stageMs.sum).sum

def feasible (problem : Problem) (lo hi : Nat) : Bool :=
  let present := (List.range' lo (hi - lo)).map fun layer => problem.kinds.getD layer ""
  problem.needs.all fun g => present.any fun k => fnmatch k g

/-- A segment's cost, infinite when it is not feasible. -/
def weight (problem : Problem) (key : Nat × Nat × Nat) : WithTop ℚ :=
  if problem.feasible fnmatch key.1 key.2.1 then (problem.cost key.1 key.2.1 key.2.2 : ℚ) else ⊤

/-- The memo table: start, end and index of a segment. -/
abbrev Memo := List ((Nat × Nat × Nat) × WithTop ℚ)

def segment (problem : Problem) (key : Nat × Nat × Nat) (seg : Memo) : WithTop ℚ × Memo :=
  match seg.lookup key with
  | some c => (c, seg)
  | none =>
    let c := problem.weight fnmatch key
    (c, (key, c) :: seg)

/-- `best[i + 1][hi]`, from the row before. -/
def cell (problem : Problem) (before : List (WithTop ℚ)) (i hi : Nat) (seg : Memo) :
    WithTop ℚ × Memo :=
  (List.range' i (hi - i)).foldl (fun state lo =>
    let reached := before.getD lo ⊤
    if reached = ⊤ then state
    else
      let found := problem.segment fnmatch (lo, hi, i) state.2
      (min state.1 (max reached found.1), found.2)) (⊤, seg)

def row (problem : Problem) (before : List (WithTop ℚ)) (i : Nat) (seg : Memo) :
    List (WithTop ℚ) × Memo :=
  (List.range' (i + 1) (problem.numLayers - i)).foldl (fun state hi =>
    let found := problem.cell fnmatch before i hi state.2
    (state.1.set hi found.1, found.2)) (List.replicate (problem.numLayers + 1) ⊤, seg)

/-- Row `i` of `best`, and the memo table behind it. -/
def table (problem : Problem) : Nat → List (WithTop ℚ) × Memo
  | 0 => ((List.replicate (problem.numLayers + 1) ⊤).set 0 0, [])
  | i + 1 =>
    let before := problem.table i
    problem.row fnmatch before.1 i before.2

structure Found where
  worst : ℚ
  sq : ℚ
  sizes : List Nat

structure Listing where
  found : List Found
  seg : Memo

/-- `dfs`, with so many stages left. -/
def dfs (problem : Problem) (bound : ℚ) : Nat → Nat → List Nat → ℚ → ℚ → Listing → Listing
  | 0, lo, sizes, worst, sq, state =>
    if maxSplits ≤ state.found.length then state
    else if lo = problem.numLayers then
      { state with found := state.found ++ [⟨worst, sq, sizes⟩] }
    else state
  | rest + 1, lo, sizes, worst, sq, state =>
    if maxSplits ≤ state.found.length then state
    else
      (List.range' (lo + 1) (problem.numLayers - rest - lo)).foldl (fun state hi =>
        let entry := problem.segment fnmatch (lo, hi, problem.pp - (rest + 1)) state.seg
        let state := { state with seg := entry.2 }
        if entry.1 ≤ (bound : WithTop ℚ) then
          let c := entry.1.untopD 0
          problem.dfs bound rest hi (sizes ++ [hi - lo]) (max worst c) (sq + c * c) state
        else state) state

def Found.before (left right : Found) : Prop :=
  left.worst < right.worst ∨ left.worst = right.worst ∧ left.sq ≤ right.sq

instance : DecidableRel Found.before := fun left right =>
  inferInstanceAs (Decidable (left.worst < right.worst ∨
    left.worst = right.worst ∧ left.sq ≤ right.sq))

/-- What the search found, sorted by bottleneck. -/
def found (problem : Problem) (optimum : ℚ) (seg : Memo) : List Found :=
  (problem.dfs fnmatch (optimum * (1 + problem.tolerance)) problem.pp 0 [] 0 0
    ⟨[], seg⟩).found.insertionSort Found.before

def pyMax : List ℚ → ℚ
  | [] => 0
  | c :: cs => cs.foldl max c

def stageCosts (problem : Problem) (sizes : List Nat) : List ℚ :=
  (ranges sizes).zipIdx.map fun e => problem.cost e.1.1 e.1.2 e.2

def allFeasible (problem : Problem) (sizes : List Nat) : Bool :=
  (ranges sizes).all fun range => problem.feasible fnmatch range.1 range.2

end Problem

/-! ## The report -/

structure Row where
  name : String
  layerPartition : List Nat
  bottleneck : ℚ
  imbalance : ℚ
  gain : ℚ
  stageCosts : List ℚ

/-- What is written; the rows of the reference splits stand before the listed ones. -/
structure Report where
  runs : List String
  ppSize : Nat
  eachStageNeeds : List String
  references : List Row
  listed : List Row
  layerPartition : List Nat
  /-- The note that the search stopped at the cap. -/
  stopped : Bool

def Problem.describe (problem : Problem) (base : ℚ) (name : String) (sizes : List Nat) : Row :=
  let cs := problem.stageCosts sizes
  let worst := Problem.pyMax cs
  ⟨name, sizes, worst, worst / (cs.sum / cs.length) - 1, base / worst - 1, cs⟩

/-- The splits in use: vLLM's, and the run's own at its own depth. -/
def references (args : Args) (pp : Nat) : List (String × List Nat) :=
  let default := vllmDefault args.run.kindOfLayer.length pp
  let own := (stageRanges args.run).map fun range => range.2 - range.1
  ("vLLM default", default) ::
    if pp = args.run.numStages ∧ own ≠ default then [("run's split", own)] else []

/-- The last reference split. -/
def reference (args : Args) (pp : Nat) : List Nat :=
  ((references args pp).getLastD ("", [])).2

def problem (args : Args) (pp : Nat) : Problem :=
  ⟨args.run :: args.runs, args.run.kindOfLayer, args.eachStageNeeds, pp, args.tolerance⟩

/-- A tie is no reason to move layers: the split that already runs stays. -/
def chosen (problem : Problem) (keep : List Nat) (found : List Problem.Found) : List Nat :=
  let first := found.headD ⟨0, 0, []⟩
  if problem.allFeasible fnmatch keep ∧
      Problem.pyMax (problem.stageCosts keep) ≤ first.worst * (1 + 1 / 10 ^ 9) then keep
  else first.sizes

def report (args : Args) (pp : Nat) : Except String Report := do
  let problem := problem args pp
  let last := problem.table fnmatch pp
  match last.1.getD problem.numLayers ⊤ with
  | none =>
    .error ("no PP" ++ toString pp ++ " split satisfies --each-stage-needs " ++
      pyList args.eachStageNeeds)
  | some optimum =>
    let found := problem.found fnmatch optimum last.2
    let keep := reference args pp
    let base := Problem.pyMax (problem.stageCosts keep)
    let listed := (found.take args.top.toNat).zipIdx.map fun e =>
      problem.describe base ("best #" ++ toString (e.2 + 1)) e.1.sizes
    .ok {
      runs := (args.run :: args.runs).map (·.path)
      ppSize := pp
      eachStageNeeds := args.eachStageNeeds
      references := (references args pp).map fun e => problem.describe base e.1 e.2
      listed := listed
      layerPartition := chosen fnmatch problem keep found
      stopped := maxSplits ≤ found.length }

def main (args : Args) : Except String Report := do
  let pp ← accept fnmatch args
  report fnmatch args pp

end fnmatch

end LayerBalance

end ServingSim
