import Mathlib.Data.String.Basic
import ServingSim.Admission.Config
import ServingSim.Lib.Grouped
import ServingSim.Lib.StepFunction

/-
  Request-stage populations over time (`concurrency::request_state`).

  A request's transitions become paired deltas, one for the place it leaves and one for
  the place it enters, kept per category and per category of each worker. A series of
  deltas is swept in time order into equal-width bins.

  Times are exact rationals, and finite. A vector holds fewer than `2^63` deltas of one,
  so their sums do not overflow and are integers here. An event set keeps its pushes in
  order, and the ordered maps are these grouped by their keys (`Grouped`). The merging of
  equal times is `StepFunction.merge`.
-/

namespace ServingSim.RequestState

structure Transition where
  timeMs : ℚ
  code : Nat
  pool : Nat
  worker : Nat
  deriving DecidableEq, Repr

structure TimedDelta where
  timeMs : ℚ
  delta : ℤ
  deriving DecidableEq, Repr

def TimedDelta.jump (event : TimedDelta) : ℚ × ℤ := (event.timeMs, event.delta)

/-- Where a request is: a category, at a worker of a pool. -/
structure Place where
  category : String
  pool : Nat
  worker : Nat
  deriving DecidableEq, Repr

/-- One delta, pushed to its category and to the category of its worker. -/
structure Push where
  place : Place
  delta : TimedDelta
  deriving DecidableEq, Repr

structure EventSet where
  spanMs : ℚ := 0
  requestsWithHistory : Nat := 0
  transitions : Nat := 0
  pushes : List Push := []
  deriving DecidableEq, Repr

/-- The deltas of each category. -/
def byCategory (pushes : List Push) : List (String × List TimedDelta) :=
  (Grouped.group (fun push : Push => push.place.category) pushes).map fun g =>
    (g.1, g.2.map Push.delta)

namespace EventSet

def cluster (events : EventSet) : List (String × List TimedDelta) := byCategory events.pushes

def categoriesByWorker (events : EventSet) :
    List ((Nat ×ₗ Nat) × List (String × List TimedDelta)) :=
  (Grouped.group (fun push : Push => toLex (push.place.pool, push.place.worker))
    events.pushes).map fun g => (g.1, byCategory g.2)

end EventSet

/-! ## Events -/

/-- The text before and behind the first separator. -/
def splitOnce (separator : Char) (text : String) : Option (String × String) :=
  match text.toList.span fun c => c ≠ separator with
  | (_, []) => none
  | (before, _ :: after) => some (String.ofList before, String.ofList after)

def categoryOf (name : String) : Except String String := do
  let split ← required (splitOnce ':' name)
    s!"stage vocab entry {name.quote} is not category:detail"
  return split.1

/-- A transition leaves the previous place and enters the next. -/
def pushTransition (categories : List String) (state : EventSet × Option Place × ℚ)
    (transition : Transition) : Except String (EventSet × Option Place × ℚ) := do
  let (out, previous, previousTime) := state
  ensure (previousTime ≤ transition.timeMs) "request stage times are invalid or non-monotonic"
  let category ← required categories[transition.code]?
    (s!"request stage code {transition.code} is outside vocab length {categories.length}")
  let place : Place := ⟨category, transition.pool, transition.worker⟩
  let left := previous.elim [] fun old => [⟨old, ⟨transition.timeMs, -1⟩⟩]
  return ({ out with
    pushes := out.pushes ++ left ++ [⟨place, ⟨transition.timeMs, 1⟩⟩]
    spanMs := max out.spanMs transition.timeMs
    transitions := out.transitions + 1 }, some place, transition.timeMs)

/-- The transitions of one request; its logging time counts towards the span. -/
def pushTimeline (categories : List String) (out : EventSet) (timeline : ℚ × List Transition) :
    Except String EventSet := do
  ensure (0 ≤ timeline.1) s!"invalid request_slo logging_time {timeline.1}"
  let out := { out with spanMs := max out.spanMs timeline.1 }
  if timeline.2.isEmpty then return out
  let pushed ← timeline.2.foldlM (pushTransition categories)
    ({ out with requestsWithHistory := out.requestsWithHistory + 1 }, none, 0)
  return pushed.1

def buildEventSet (timelines : List (ℚ × List Transition)) (names : List String) :
    Except String EventSet := do
  let categories ← names.mapM categoryOf
  timelines.foldlM (pushTimeline categories) {}

/-! ## Bins -/

structure BinnedSeries where
  values : List ℚ
  peak : Nat
  mean : ℚ
  deriving DecidableEq, Repr

/-- Spread a population over the bins of an interval. -/
def addIntervalArea (bins : List ℚ) (binWidth startMs endMs active : ℚ) : List ℚ :=
  let firstBin := min ⌊startMs / binWidth⌋.toNat (bins.length - 1)
  let lastBin := min (⌈endMs / binWidth⌉.toNat - 1) (bins.length - 1)
  bins.mapIdx fun bin area =>
    if firstBin ≤ bin ∧ bin ≤ lastBin then
      let overlapStart := max startMs (bin * binWidth)
      let overlapEnd := min endMs ((bin + 1 : Nat) * binWidth)
      if overlapEnd > overlapStart then area + active * (overlapEnd - overlapStart) else area
    else area

/-- What the sweep carries from one time to the next. -/
structure Sweep where
  area : List ℚ
  current : ℤ
  peak : Nat
  previousTime : ℚ

/-- Sweep up to the next time, and take its deltas. -/
def sweepTime (spanMs binWidthMs : ℚ) (state : Sweep) (event : ℚ × ℤ) : Except String Sweep := do
  ensure (state.previousTime ≤ event.1 ∧ event.1 ≤ spanMs)
    s!"request-state event time {event.1} is outside [0, {spanMs}]"
  let area :=
    if event.1 > state.previousTime then
      addIntervalArea state.area binWidthMs state.previousTime event.1 state.current
    else state.area
  let current := state.current + event.2
  ensure (0 ≤ current) s!"request-state population became negative at {event.1} ms"
  return {
    area := area
    current := current
    peak := max state.peak current.toNat
    previousTime := event.1 }

def binDeltas (events : List TimedDelta) (spanMs : ℚ) (nBins : Nat) :
    Except String BinnedSeries := do
  ensure (0 < spanMs ∧ nBins ≠ 0)
    "request-state binning requires a positive span and bin count"
  let sorted := (events.map TimedDelta.jump).insertionSort fun left right => left.1 ≤ right.1
  let binWidthMs := spanMs / nBins
  let swept ← (StepFunction.merge sorted).foldlM (sweepTime spanMs binWidthMs)
    ⟨List.replicate nBins 0, 0, 0, 0⟩
  let area :=
    if swept.previousTime < spanMs then
      addIntervalArea swept.area binWidthMs swept.previousTime spanMs swept.current
    else swept.area
  return {
    values := area.map fun value => value / binWidthMs
    peak := swept.peak
    mean := area.sum / spanMs }

end ServingSim.RequestState
