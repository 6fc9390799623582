import Mathlib.Data.Rat.Floor
import ServingSim.Lib.PiecewiseLinear
import ServingSim.Timing.CostTree

/-
  Grid caches of profiled kernel metrics (`timing::cache::linear_2d`, `linear_3d`,
  `interp`), over exact rationals.

  A cache sorts each axis of its grid by itself and permutes the samples with it.
  A lookup finds one segment on each axis and blends the corners of the cell that the
  segments span. A sample that is not finite leaves a dropped cell behind; corners that
  lean on one are blended over those that are left.

  Renamed (Rust ↔ Lean):
    `KernelMetrics`, `is_finite`, `flops`, `bytes` ↔ the same names, a float that is not
      finite as `none`
  The fit-time warnings go to a log and are left out. Indices that the source takes
  out of slices are read with a default here.
-/

namespace ServingSim

open PiecewiseLinear

/-! ## Samples -/

/-- A profiled float: a number, or one that is not finite. -/
abbrev Reading := Option ℚ

def finiteNonNegative : Reading → Bool
  | some value => decide (0 ≤ value)
  | none => false

structure KernelMetrics where
  timeMs : Reading
  tflops : Option Reading
  memoryBandwidthGbps : Option Reading
  algbwGbps : Option Reading
  busbwGbps : Option Reading
  energyJ : Reading

namespace KernelMetrics

def nonFinite : KernelMetrics := ⟨none, none, none, none, none, none⟩

/-- A sample that takes this long, without rates. -/
def timed (timeMs : ℚ) : KernelMetrics := ⟨some timeMs, none, none, none, none, some 0⟩

def isFinite (sample : KernelMetrics) : Bool :=
  finiteNonNegative sample.timeMs && finiteNonNegative sample.energyJ &&
    ([sample.tflops, sample.memoryBandwidthGbps, sample.algbwGbps, sample.busbwGbps].filterMap
      id).all finiteNonNegative

/-- `rate * (time_ms / 1000) * unit`, as `u64` if it is finite and not negative. -/
def amount (rate timeMs : Reading) (unit : ℚ) : ℚ :=
  match rate, timeMs with
  | some rate, some timeMs =>
    let value := rate * (timeMs / 1000) * unit
    if 0 ≤ value then min (⌊value⌋₊ : ℚ) (2 ^ 64 - 1) else 0
  | _, _ => 0

def flops (sample : KernelMetrics) : ℚ :=
  match sample.tflops with
  | none => 0
  | some tflops => amount tflops sample.timeMs 1000000000000

def bytes (sample : KernelMetrics) : ℚ :=
  match sample.memoryBandwidthGbps with
  | some memoryBandwidthGbps => amount memoryBandwidthGbps sample.timeMs 1000000000
  | none =>
    match sample.busbwGbps with
    | some busbwGbps => amount busbwGbps sample.timeMs 1000000000
    | none => 0

end KernelMetrics

/-- The four fields of `Metrics4`. -/
inductive Metric
  | timeMs
  | flops
  | bytes
  | energyJ
  deriving DecidableEq, Repr

namespace Metrics4

def fromSample (sample : KernelMetrics) : Metrics4 where
  timeMs := sample.timeMs.getD 0
  flops := sample.flops
  bytes := sample.bytes
  energyJ := sample.energyJ.getD 0

def clamped (m : Metrics4) : Metrics4 where
  timeMs := max m.timeMs 0
  flops := max m.flops 0
  bytes := max m.bytes 0
  energyJ := max m.energyJ 0

def get (m : Metrics4) : Metric → ℚ
  | .timeMs => m.timeMs
  | .flops => m.flops
  | .bytes => m.bytes
  | .energyJ => m.energyJ

def ofMetrics (f : Metric → ℚ) : Metrics4 := ⟨f .timeMs, f .flops, f .bytes, f .energyJ⟩

end Metrics4

namespace CoverageFlags

def empty : CoverageFlags := 0
def extrapolated : CoverageFlags := 1
def noCoverage : CoverageFlags := 4

end CoverageFlags

def LeafMetrics.miss : LeafMetrics := ⟨.zero, CoverageFlags.noCoverage, LeafMetrics.noBackend⟩

/-! ## Axes -/

/-- `f32::EPSILON`, the tolerance of `locate` and of the corner weights. -/
def epsilon : ℚ := 1 / 2 ^ 23

/-- `f64::EPSILON`. -/
def epsilon64 : ℚ := 1 / 2 ^ 52

/-- `SweepGrid::new` asserts that there is an axis and that no axis is empty. -/
structure SweepGrid where
  axes : List (List ℚ)
  some_axis : axes ≠ []
  filled : ∀ axis ∈ axes, axis ≠ []

/-- `order.sort_by(|&a, &b| axis[a].total_cmp(&axis[b]))`. -/
def axisOrder (axis : List ℚ) : List Nat :=
  (List.range axis.length).mergeSort fun a b => axis.getD a 0 ≤ axis.getD b 0

def sortedAxis (axis : List ℚ) : List ℚ := (axisOrder axis).map fun i => axis.getD i 0

/-- `while size > 1`, which takes at most `fuel` turns. -/
def searchSegment (xs : List ℚ) (x : ℚ) : Nat → Nat → Nat → Nat
  | 0, lo, _ => lo
  | fuel + 1, lo, size =>
    if 1 < size then
      let half := size / 2
      let mid := lo + half
      searchSegment xs x fuel (if xs.getD mid 0 ≤ x then mid else lo) (size - half)
    else lo

/-- The segment of a point, and whether the point lies beyond the axis. -/
def locate (xs : List ℚ) (x : ℚ) : PiecewiseLinear.Segment ℚ × Bool :=
  let n := xs.length
  if n = 1 then (⟨0, 0, 0⟩, decide (epsilon < |x - xs.getD 0 0|))
  else
    let last := n - 1
    let lo := min (searchSegment xs x n 0 n) (last - 1)
    let hi := lo + 1
    let width := xs.getD hi 0 - xs.getD lo 0
    let t := if |width| ≤ epsilon then 0 else (x - xs.getD lo 0) / width
    (⟨lo, hi, t⟩, decide (x < xs.getD 0 0 ∨ xs.getD last 0 < x))

/-! ## Corners -/

/-- A corner of the bracketing cell: its stored cell, whether that is a real sample, its
weight, and its squared distance to the query in cell coordinates. -/
structure Corner where
  cell : Metrics4
  valid : Bool
  weight : ℚ
  distance : ℚ

/-- `acc.add_scaled(cell, weight)` for each corner. -/
def accumulate (corners : List Corner) : Metrics4 :=
  corners.foldl (fun acc corner => acc.addScaled corner.cell corner.weight) .zero

/-- The first corner with the smallest distance. -/
def nearest : List Corner → Option Corner
  | [] => none
  | corner :: corners =>
    some (corners.foldl (fun best c => if c.distance < best.distance then c else best) corner)

/-- Blend the corners, and tell whether the value leans on less than the samples around
the query. -/
def blendCorners (allFinite outside : Bool) (corners : List Corner) : Option (Metrics4 × Bool) :=
  if allFinite then some (accumulate corners, outside)
  else
    let surviving := corners.filter (·.valid)
    let meaningfulDrop := corners.any fun corner => !corner.valid && epsilon < |corner.weight|
    if meaningfulDrop = false then some (accumulate surviving, outside)
    else
      let kept := surviving.map fun corner => { corner with weight := max corner.weight 0 }
      let weightSum := (kept.map (·.weight)).sum
      if epsilon < weightSum then some ((accumulate kept).scale (1 / weightSum), true)
      else (nearest surviving).map fun corner => (corner.cell, true)

/-- The distance to one corner along one axis, in widths of the segment. -/
def normalizedDistance (xs : List ℚ) (s : PiecewiseLinear.Segment ℚ) (x : ℚ) (idx : Nat) : ℚ :=
  let width := |xs.getD s.hi 0 - xs.getD s.lo 0|
  if width ≤ epsilon then 0 else |(x - xs.getD idx 0) / width|

/-! ## Slopes -/

inductive Extrapolation
  | product
  | weighted
  | clamp
  deriving DecidableEq, Repr

/-- One slope for each metric and axis. -/
structure AxisSlopes where
  axis0 : Metrics4
  axis1 : Metrics4

abbrev Matrix3 := Fin 3 → Fin 3 → ℚ

def determinant3x3 (m : Matrix3) : ℚ :=
  m 0 0 * (m 1 1 * m 2 2 - m 1 2 * m 2 1) - m 0 1 * (m 1 0 * m 2 2 - m 1 2 * m 2 0) +
    m 0 2 * (m 1 0 * m 2 1 - m 1 1 * m 2 0)

/-- `substituted[row][column] = rhs[row]`. -/
def substitute (m : Matrix3) (column : Fin 3) (rhs : Fin 3 → ℚ) : Matrix3 :=
  fun row col => if col = column then rhs row else m row col

def slopeBandFraction : ℚ := 1 / 4

/-- A cell of the band with its coordinates. -/
structure BandCell where
  x0 : ℚ
  x1 : ℚ
  cell : Metrics4

/-- The surviving cells in the top band of both axes. -/
def slopeBand (xs0 xs1 : List ℚ) (cells : List Metrics4) (valid : List Bool) : List BandCell :=
  let columns := xs1.length
  let floor0 := xs0.getD (xs0.length - 1) 0 * slopeBandFraction
  let floor1 := xs1.getD (columns - 1) 0 * slopeBandFraction
  (List.range xs0.length).flatMap fun i =>
    if xs0.getD i 0 < floor0 then []
    else (List.range columns).filterMap fun j =>
      if xs1.getD j 0 < floor1 ∨ valid.getD (i * columns + j) false = false then none
      else some ⟨xs0.getD i 0, xs1.getD j 0, cells.getD (i * columns + j) .zero⟩

def bandSum (band : List BandCell) (f : BandCell → ℚ) : ℚ := (band.map f).sum

/-- The normal matrix of the design `[1, x0, x1]`. -/
def normalMatrix (band : List BandCell) : Matrix3 :=
  let count : ℚ := band.length
  let sum0 := bandSum band fun b => b.x0
  let sum1 := bandSum band fun b => b.x1
  let sum00 := bandSum band fun b => b.x0 * b.x0
  let sum11 := bandSum band fun b => b.x1 * b.x1
  let sum01 := bandSum band fun b => b.x0 * b.x1
  ![![count, sum0, sum1], ![sum0, sum00, sum01], ![sum1, sum01, sum11]]

def bandRhs (band : List BandCell) (metric : Metric) : Fin 3 → ℚ :=
  ![bandSum band fun b => b.cell.get metric, bandSum band fun b => b.x0 * b.cell.get metric,
    bandSum band fun b => b.x1 * b.cell.get metric]

/-- The slope of a metric along the axis of a column, not below zero. -/
def fittedSlope (band : List BandCell) (column : Fin 3) (metric : Metric) : ℚ :=
  max (determinant3x3 (substitute (normalMatrix band) column (bandRhs band metric)) /
    determinant3x3 (normalMatrix band)) 0

def fitAxisSlopes (xs0 xs1 : List ℚ) (cells : List Metrics4) (valid : List Bool) :
    Option AxisSlopes :=
  let band := slopeBand xs0 xs1 cells valid
  if band.length < 3 then none
  else
    let normal := normalMatrix band
    if |determinant3x3 normal| ≤ epsilon64 * normal 0 0 * normal 1 1 * normal 2 2 then none
    else some
      { axis0 := Metrics4.ofMetrics (fittedSlope band 1),
        axis1 := Metrics4.ofMetrics (fittedSlope band 2) }

/-! ## The caches -/

/-- A stored cell and whether its sample survived. -/
def storedCell (sample : KernelMetrics) : Metrics4 × Bool :=
  if sample.isFinite then (Metrics4.fromSample sample, true) else (.zero, false)

/-- `x.clamp(lo, hi)`. -/
def clampTo (lo hi x : ℚ) : ℚ := if x < lo then lo else if hi < x then hi else x

/-- The value handed out for a blended cell. -/
def leafOf : Option (Metrics4 × Bool) → LeafMetrics
  | none => .miss
  | some (cell, extrapolated) =>
    { m := cell.clamped,
      coverage := if extrapolated then CoverageFlags.extrapolated else CoverageFlags.empty,
      backendIndex := LeafMetrics.noBackend }

structure Cache2DLinear where
  xs0 : List ℚ
  xs1 : List ℚ
  cells : List Metrics4
  valid : List Bool
  allFinite : Bool
  anyValid : Bool
  extrapolation : Extrapolation
  slopes : Option AxisSlopes

namespace Cache2DLinear

/-- The cache over two axes, its cells in the order of the sorted coordinates. -/
def build (axis0 axis1 : List ℚ) (samples : List KernelMetrics) (extrapolation : Extrapolation) :
    Cache2DLinear :=
  let c := axis1.length
  let stored := (axisOrder axis0).flatMap fun i => (axisOrder axis1).map fun j =>
    storedCell (samples.getD (i * c + j) .nonFinite)
  let xs0 := sortedAxis axis0
  let xs1 := sortedAxis axis1
  let cells := stored.map Prod.fst
  let valid := stored.map Prod.snd
  { xs0, xs1, cells, valid, extrapolation,
    allFinite := valid.all id,
    anyValid := valid.any id,
    slopes := match extrapolation with
      | .weighted => fitAxisSlopes xs0 xs1 cells valid
      | .product | .clamp => none }

def fromSamplesWith (grid : SweepGrid) (samples : List KernelMetrics)
    (extrapolation : Extrapolation) : Except String Cache2DLinear :=
  match grid.axes with
  | [axis0, axis1] => do
    ensure (axis0.length * axis1.length = samples.length)
      "sample count must match 2D sweep grid size (R*C)"
    return build axis0 axis1 samples extrapolation
  | _ => .error "Cache2DLinear requires a 2D grid"

variable (cache : Cache2DLinear)

def corner (s0 s1 : PiecewiseLinear.Segment ℚ) (x0 x1 : ℚ) (i j : Nat) (weight : ℚ) : Corner where
  cell := cache.cells.getD (i * cache.xs1.length + j) .zero
  valid := cache.valid.getD (i * cache.xs1.length + j) false
  weight := weight
  distance := normalizedDistance cache.xs0 s0 x0 i * normalizedDistance cache.xs0 s0 x0 i +
    normalizedDistance cache.xs1 s1 x1 j * normalizedDistance cache.xs1 s1 x1 j

def corners (s0 s1 : PiecewiseLinear.Segment ℚ) (x0 x1 : ℚ) : List Corner :=
  [cache.corner s0 s1 x0 x1 s0.lo s1.lo ((1 - s0.t) * (1 - s1.t)),
    cache.corner s0 s1 x0 x1 s0.lo s1.hi ((1 - s0.t) * s1.t),
    cache.corner s0 s1 x0 x1 s0.hi s1.lo (s0.t * (1 - s1.t)),
    cache.corner s0 s1 x0 x1 s0.hi s1.hi (s0.t * s1.t)]

def interpolateCell (x0 x1 : ℚ) : Option (Metrics4 × Bool) :=
  let (s0, out0) := locate cache.xs0 x0
  let (s1, out1) := locate cache.xs1 x1
  blendCorners cache.allFinite (out0 || out1) (cache.corners s0 s1 x0 x1)

/-- The blended value, with the policy's increment past the grid. -/
def lookup (x0 x1 : ℚ) : Option (Metrics4 × Bool) :=
  if cache.extrapolation = .product then cache.interpolateCell x0 x1
  else
    let lo0 := cache.xs0.getD 0 0
    let hi0 := cache.xs0.getD (cache.xs0.length - 1) 0
    let lo1 := cache.xs1.getD 0 0
    let hi1 := cache.xs1.getD (cache.xs1.length - 1) 0
    let clamped0 := clampTo lo0 hi0 x0
    let clamped1 := clampTo lo1 hi1 x1
    match cache.interpolateCell clamped0 clamped1 with
    | none => none
    | some (cell, leaning) =>
      if clamped0 = x0 ∧ clamped1 = x1 then some (cell, leaning)
      else match cache.slopes with
        | some slopes =>
          -- only overshoot above the grid is priced, each axis on its own
          some ((cell.addScaled slopes.axis0 (max (x0 - hi0) 0)).addScaled slopes.axis1
            (max (x1 - hi1) 0), true)
        | none => some (cell, true)

def eval (x0 x1 : ℚ) : LeafMetrics :=
  if cache.anyValid = false then .miss else leafOf (cache.lookup x0 x1)

end Cache2DLinear

structure Cache3DLinear where
  axes : Fin 3 → List ℚ
  dims : Fin 3 → Nat
  cells : List Metrics4
  valid : List Bool
  allFinite : Bool
  anyValid : Bool

def flatIndex (dims indices : Fin 3 → Nat) : Nat :=
  (indices 0 * dims 1 + indices 1) * dims 2 + indices 2

namespace Cache3DLinear

def build (axes : Fin 3 → List ℚ) (samples : List KernelMetrics) : Cache3DLinear :=
  let dims := fun axis => (axes axis).length
  let stored := (axisOrder (axes 0)).flatMap fun i => (axisOrder (axes 1)).flatMap fun j =>
    (axisOrder (axes 2)).map fun k =>
      storedCell (samples.getD ((i * dims 1 + j) * dims 2 + k) .nonFinite)
  let cells := stored.map Prod.fst
  let valid := stored.map Prod.snd
  { axes := fun axis => sortedAxis (axes axis), dims, cells, valid,
    allFinite := valid.all id,
    anyValid := valid.any id }

def fromSamples (grid : SweepGrid) (samples : List KernelMetrics) : Except String Cache3DLinear :=
  match grid.axes with
  | [axis0, axis1, axis2] => do
    ensure (axis0.length * axis1.length * axis2.length = samples.length)
      "sample count must match 3D sweep grid size (A*B*C)"
    return build ![axis0, axis1, axis2] samples
  | _ => .error "Cache3DLinear requires a 3D grid"

variable (cache : Cache3DLinear)

/-- The corner of a mask: bit `axis` chooses the upper end on that axis. -/
def corner (s : Fin 3 → PiecewiseLinear.Segment ℚ) (query : Fin 3 → ℚ) (mask : Nat) : Corner :=
  let indices := fun axis => if mask.testBit axis.val then (s axis).hi else (s axis).lo
  let weight := fun axis => if mask.testBit axis.val then (s axis).t else 1 - (s axis).t
  let distance := fun axis =>
    normalizedDistance (cache.axes axis) (s axis) (query axis) (indices axis) *
      normalizedDistance (cache.axes axis) (s axis) (query axis) (indices axis)
  { cell := cache.cells.getD (flatIndex cache.dims indices) .zero,
    valid := cache.valid.getD (flatIndex cache.dims indices) false,
    weight := weight 0 * weight 1 * weight 2,
    distance := distance 0 + distance 1 + distance 2 }

def interpolateCell (query : Fin 3 → ℚ) : Option (Metrics4 × Bool) :=
  let located := fun axis => locate (cache.axes axis) (query axis)
  blendCorners cache.allFinite ((located 0).2 || (located 1).2 || (located 2).2)
    ((List.range 8).map (cache.corner (fun axis => (located axis).1) query))

def eval (query : Fin 3 → ℚ) : LeafMetrics :=
  if cache.anyValid = false then .miss else leafOf (cache.interpolateCell query)

end Cache3DLinear

end ServingSim
