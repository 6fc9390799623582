import ServingSim.Common.Ensure
import Mathlib.Algebra.Order.Field.Rat
import Mathlib.Data.List.Sort
import Mathlib.Data.String.Basic

/-
  A pipeline stage's share of a model's necessary work (`work.core`, `work.floors`).

  A row of a label repeats over the layers of one stack, or stands once in a forward: the
  embedding before the first layer, everything else after the last. A stage owns of a row the
  fraction of the layers it runs, and its floors are that fraction of the whole model's.

  Numbers are exact rationals. A GPU's peaks and bandwidth are given. The arrays of a group of
  shapes are lists with one entry for each name.
-/

namespace ServingSim

namespace PipelineStages

/-! ## Models and rows -/

structure LayerStack where
  tag : String
  count : Nat
  stage : Option String
  paramCount : Option Nat
  /-- The decoder layers the instances are. -/
  layers : List Nat

def LayerStack.distinctInstances (stack : LayerStack) : Nat := stack.paramCount.getD stack.count

structure Model where
  name : String
  layers : List LayerStack

def Model.body (model : Model) : List LayerStack :=
  model.layers.filter fun stack => stack.stage = none

def Model.numLayers (model : Model) : Nat := (model.body.map (·.distinctInstances)).sum

def Model.checkLayers (model : Model) : Except String Unit :=
  if ∃ stack ∈ model.body, stack.layers ≠ [] then
    let declared := model.body.flatMap (·.layers)
    ensure (¬((∃ stack ∈ model.body, stack.layers.length ≠ stack.count) ∨
        declared.insertionSort (· ≤ ·) ≠ List.range model.numLayers))
      (model.name ++ ": main-body stack layers must partition 0.." ++ toString model.numLayers ++
        ", one per instance")
  else .ok ()

structure Segment where
  name : String
  flops : ℚ
  bytes : ℚ
  count : Nat
  computeDtype : Option String
  /-- The tag of the stack whose layers the row repeats over. -/
  stack : Option String

def Segment.flopsTotal (segment : Segment) : ℚ := segment.flops * segment.count

def Segment.bytesTotal (segment : Segment) : ℚ := segment.bytes * segment.count

def embeddingSegment : String := "embedding"

/-- The fraction of a row's work that a stage with these layers performs. -/
def Model.pipelineStageShare (model : Model) (segment : Segment) (layers : Int × Int) :
    Except String ℚ := do
  ensure (0 ≤ layers.1 ∧ layers.1 < layers.2 ∧ layers.2 ≤ model.numLayers)
    (model.name ++ ": no pipeline stage runs layers " ++ toString layers.1 ++ ".." ++
      toString layers.2)
  match segment.stack with
  | none =>
    ensure (segment.count = 1)
      (model.name ++ ": row '" ++ segment.name ++ "' repeats " ++ toString segment.count ++
        " times without naming its layer stack; it cannot be placed on a pipeline stage")
    if segment.name = embeddingSegment then .ok (if layers.1 = 0 then 1 else 0)
    else .ok (if layers.2 = model.numLayers then 1 else 0)
  | some tag =>
    let bodies := model.layers.filter fun stack => stack.tag = tag ∧ stack.stage = none
    let stackLayers := (bodies.head?.map (·.layers)).getD []
    ensure (bodies.length = 1 ∧ stackLayers ≠ [])
      (model.name ++ ": row '" ++ segment.name ++ "' names stack '" ++ tag ++
        "', which is not one main-body stack with declared layers")
    .ok ((stackLayers.countP fun layer : Nat => layers.1 ≤ layer ∧ layer < layers.2 : Nat) /
      stackLayers.length)

/-- The order of tuples. -/
def tupleLe (left right : Int × Int) : Prop :=
  left.1 < right.1 ∨ left.1 = right.1 ∧ left.2 ≤ right.2

instance : DecidableRel tupleLe := fun left right =>
  inferInstanceAs (Decidable (left.1 < right.1 ∨ left.1 = right.1 ∧ left.2 ≤ right.2))

def showRanges (ranges : List (Int × Int)) : String :=
  "[" ++ ", ".intercalate (ranges.map fun range =>
    "(" ++ toString range.1 ++ ", " ++ toString range.2 ++ ")") ++ "]"

/-- Every layer belongs to exactly one stage. -/
def checkTiles (poolTag : String) (ranges : List (Int × Int)) (model : Model) :
    Except String Unit :=
  let ranges := ranges.insertionSort tupleLe
  let ends := 0 :: ranges.map Prod.snd
  ensure (¬(ranges.map Prod.fst ≠ ends.dropLast ∨ ends.getLastD 0 ≠ model.numLayers))
    ("pool '" ++ poolTag ++ "' stage layer ranges " ++ showRanges ranges ++
      " do not tile the model's " ++ toString model.numLayers ++ " decoder layers")

/-! ## Shares -/

structure StageShares where
  layers : Int × Int
  shareByName : List (String × ℚ)

def StageShares.learnRow (model : Model) (view : StageShares) (segment : Segment) :
    Except String StageShares :=
  match view.shareByName.lookup segment.name with
  | some _ => .ok view
  | none => do
    let share ← model.pipelineStageShare segment view.layers
    .ok { view with shareByName := view.shareByName ++ [(segment.name, share)] }

def StageShares.learn (model : Model) (view : StageShares) (segments : List Segment) :
    Except String StageShares :=
  segments.foldlM (StageShares.learnRow model) view

/-- The shares of some rows; a row that was not learned is a missing key. -/
def StageShares.vector (view : StageShares) (names : List String) : Except String (List ℚ) :=
  names.mapM fun name =>
    match view.shareByName.lookup name with
    | some share => .ok share
    | none => .error ("'" ++ name ++ "'")

/-! ## Floors -/

/-- The work of one whole-model shape, an entry for each name. -/
structure ShapeRow where
  occurrences : Nat
  flops : List ℚ
  bytes : List ℚ

structure FloorRow where
  name : String
  flops : ℚ
  bytes : ℚ
  computeDtype : String
  necessary : ℚ

structure Floors where
  fused : ℚ
  segmented : ℚ
  segments : List FloorRow

def dot (xs ys : List ℚ) : ℚ := (List.zipWith (· * ·) xs ys).sum

section roofline

variable (peak : String → ℚ) (bandwidthGbps : ℚ)

def computeSeconds (peaks : List ℚ) (row : ShapeRow) : List ℚ :=
  List.zipWith (fun flops peak => flops / (peak * 10 ^ 12)) row.flops peaks

def memorySeconds (row : ShapeRow) : List ℚ :=
  row.bytes.map fun bytes => bytes / (bandwidthGbps * 10 ^ 9)

def necessarySeconds (peaks : List ℚ) (row : ShapeRow) : List ℚ :=
  List.zipWith max (computeSeconds peaks row) (memorySeconds bandwidthGbps row)

/-- A column of an array, weighted by the shapes' occurrences. -/
def aggregate (rows : List ShapeRow) (values : ShapeRow → List ℚ) (index : Nat) : ℚ :=
  (rows.map fun row => row.occurrences * (values row).getD index 0).sum

/-- One stage's floors, from its shares of the rows. -/
def stageView (names : List String) (dtypes : List (String × String)) (rows : List ShapeRow)
    (share : List ℚ) : Floors :=
  let dtype := fun name => (dtypes.lookup name).getD ""
  let peaks := names.map fun name => peak (dtype name)
  { fused := (rows.map fun row =>
      let compute := computeSeconds peaks row
      -- the resource that binds the whole shape, not the stage
      row.occurrences *
        if row.bytes.sum / (bandwidthGbps * 10 ^ 9) ≤ compute.sum then dot compute share
        else dot (memorySeconds bandwidthGbps row) share).sum
    segmented := (rows.map fun row =>
      row.occurrences * dot (necessarySeconds bandwidthGbps peaks row) share).sum
    segments := names.zipIdx.filterMap fun entry =>
      let part := share.getD entry.2 0
      if 0 < part then
        some ⟨entry.1, aggregate rows (·.flops) entry.2 * part,
          aggregate rows (·.bytes) entry.2 * part, dtype entry.1,
          aggregate rows (necessarySeconds bandwidthGbps peaks) entry.2 * part⟩
      else none }

def stageViews (names : List String) (dtypes : List (String × String)) (rows : List ShapeRow)
    (views : List StageShares) : Except String (List Floors) :=
  views.mapM fun view => do
    let share ← view.vector names
    .ok (stageView peak bandwidthGbps names dtypes rows share)

/-! ## Labels -/

/-- A dictionary's entry, written. -/
def write {V : Type} (dict : List (String × V)) (key : String) (value : V) : List (String × V) :=
  match dict with
  | [] => [(key, value)]
  | entry :: entries =>
    if entry.1 = key then (key, value) :: entries else entry :: write entries key value

/-- A label's rows by their names. -/
def workByName (segments : List Segment) : List (String × Segment) :=
  segments.foldl (fun dict segment => write dict segment.name segment) []

def sortedNames {V : Type} (dict : List (String × V)) : List String :=
  (dict.map Prod.fst).insertionSort (· ≤ ·)

/-- The floors of one whole-model label. -/
def labelPayload (defaultDtype : String) (segments : List Segment) : Floors :=
  let work := workByName segments
  let rows := (sortedNames work).filterMap fun name =>
    (work.lookup name).map fun segment =>
      let dtype := segment.computeDtype.getD defaultDtype
      let compute := segment.flopsTotal / (peak dtype * 10 ^ 12)
      let memory := segment.bytesTotal / (bandwidthGbps * 10 ^ 9)
      (compute, FloorRow.mk name segment.flopsTotal segment.bytesTotal dtype (max compute memory))
  let compute := (rows.map Prod.fst).sum
  let bytes := (rows.map fun row => row.2.bytes).sum
  { fused := max compute (bytes / (bandwidthGbps * 10 ^ 9))
    segmented := (rows.map fun row => row.2.necessary).sum
    segments := rows.map Prod.snd }

/-- The names' precisions, each name at one. -/
def addDtype (defaultDtype : String) (dtypes : List (String × String)) (segment : Segment) :
    Except String (List (String × String)) :=
  let dtype := segment.computeDtype.getD defaultDtype
  match dtypes.lookup segment.name with
  | none => .ok (dtypes ++ [(segment.name, dtype)])
  | some known => do
    ensure (known = dtype)
      ("segment '" ++ segment.name ++ "' reported both '" ++ known ++ "' and '" ++ dtype ++
        "' as its compute dtype")
    .ok dtypes

structure Shape where
  occurrences : Nat
  /-- The whole-model label's rows. -/
  segments : List Segment

structure Learned where
  views : List StageShares
  dtypes : List (String × String)

def learnShape (model : Model) (defaultDtype : String) (state : Learned) (shape : Shape) :
    Except String Learned := do
  let views ← state.views.mapM fun view => view.learn model shape.segments
  let dtypes ← shape.segments.foldlM (addDtype defaultDtype) state.dtypes
  .ok ⟨views, dtypes⟩

/-- A shape's row of the arrays: zero where its label has no such row. -/
def shapeRow (names : List String) (shape : Shape) : ShapeRow :=
  let work := workByName shape.segments
  ⟨shape.occurrences, names.map fun name => ((work.lookup name).map (·.flopsTotal)).getD 0,
    names.map fun name => ((work.lookup name).map (·.bytesTotal)).getD 0⟩

def directGroupStageViews (model : Model) (defaultDtype : String) (shapes : List Shape)
    (views : List StageShares) : Except String (List Floors) := do
  let learned ← shapes.foldlM (learnShape model defaultDtype) ⟨views, []⟩
  let names := sortedNames learned.dtypes
  stageViews peak bandwidthGbps names learned.dtypes (shapes.map (shapeRow names)) learned.views

/-- A dictionary of rows by their names, listed in the order of the names. -/
def byName (rows : List FloorRow) : List FloorRow :=
  ((rows.foldl (fun dict row => write dict row.name row) []).map Prod.snd).insertionSort
    fun left right => left.name ≤ right.name

/-- One stage's floors of one aggregate workload, from its whole-model label. -/
def stagePayload (model : Model) (defaultDtype : String) (segments : List Segment)
    (view : StageShares) : Except String Floors := do
  let view ← view.learn model segments
  let names := (segments.map (·.name)).insertionSort (· ≤ ·)
  let work := workByName segments
  let dtypes := names.filterMap fun name =>
    (work.lookup name).map fun segment => (name, segment.computeDtype.getD defaultDtype)
  -- `_stage_views` of the one shape and the one stage
  let share ← view.vector names
  let stage := stageView peak bandwidthGbps names dtypes [shapeRow names ⟨1, segments⟩] share
  .ok { stage with segments := byName stage.segments }

end roofline

end PipelineStages

end ServingSim
