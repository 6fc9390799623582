import Mathlib.Tactic

/-
  Where a retained KV entry can be resumed (`ResumePositions` in
  `kv_accounting`): up to two explicit positions plus, optionally, every
  multiple of a spacing, all at or below the last one.
-/

namespace ServingSim

structure ResumePositions where
  /-- Context tokens the entry keeps; also its last position. -/
  lastPosition : Nat
  explicit : Option Nat × Option Nat
  every : Option Nat
  deriving DecidableEq, Repr

namespace ResumePositions

/-- The explicit positions that are there, in order. -/
def explicitPoints (positions : ResumePositions) : List Nat :=
  [positions.explicit.1, positions.explicit.2].reduceOption

/-- The largest multiple of an optional spacing at or below a length. -/
def seriesFloor (every : Option Nat) (tokens : Nat) : Nat :=
  match every with
  | some spacing => tokens / spacing * spacing
  | none => 0

def everyUpTo (spacing last : Nat) : ResumePositions where
  lastPosition := last
  explicit := (none, none)
  every := some spacing

def ofExplicit (explicit : Option Nat × Option Nat) (every : Option Nat) (contextTokens : Nat) :
    ResumePositions :=
  let points := (([explicit.1, explicit.2].reduceOption.filter
    fun point => 0 < point ∧ point ≤ contextTokens).insertionSort (· ≤ ·)).destutter (· ≠ ·)
  { lastPosition := max (points.getLast?.getD 0) (seriesFloor every contextTokens)
    explicit := (points.head?, points[1]?)
    every := every }

/-- The largest position at or below `tokens`, or 0. -/
def floor (positions : ResumePositions) (tokens : Nat) : Nat :=
  let limit := min tokens positions.lastPosition
  (positions.explicitPoints.filter (· ≤ limit)).foldl max (seriesFloor positions.every limit)

/-- The same positions, cut at `last`. -/
def truncated (positions : ResumePositions) (last : Nat) : ResumePositions where
  lastPosition := min last positions.lastPosition
  explicit := (positions.explicit.1.filter (· ≤ last), positions.explicit.2.filter (· ≤ last))
  every := positions.every

def seriesCount (positions : ResumePositions) : Nat :=
  match positions.every with
  | some spacing => positions.lastPosition / spacing
  | none => 0

def onSeries (positions : ResumePositions) (point : Nat) : Bool :=
  match positions.every with
  | some spacing => point % spacing = 0
  | none => false

def offSeries (positions : ResumePositions) : List Nat :=
  positions.explicitPoints.filter fun point => !positions.onSeries point

/-- Number of distinct positions. -/
def count (positions : ResumePositions) : Nat :=
  positions.seriesCount + positions.offSeries.length

/-! ## Window tails -/

/-- Tail tokens between two neighbouring positions. -/
def gapCover (tail start stop : Nat) : Nat := min (stop - start) tail

/-- The explicit points inside one series gap: what they cover, the last of
them, and the points behind the gap. -/
def splitGap (tail gapEnd : Nat) : Nat → Nat → List Nat → Nat × Nat × List Nat
  | split, previous, [] => (split, previous, [])
  | split, previous, point :: rest =>
    if point < gapEnd then splitGap tail gapEnd (split + gapCover tail previous point) point rest
    else (split, previous, point :: rest)

/-- The gaps the off-series points split, one a round; `fuel` counts points. -/
def coverSplits (tail spacing last : Nat) : Nat → Nat → List Nat → Nat
  | 0, covered, _ => covered
  | _, covered, [] => covered
  | fuel + 1, covered, point :: rest =>
    let gapStart := point / spacing * spacing
    let gapEnd := gapStart + spacing
    let (split, previous, behind) := splitGap tail gapEnd 0 gapStart (point :: rest)
    if gapEnd ≤ last then
      coverSplits tail spacing last fuel
        (covered - min spacing tail + (split + gapCover tail previous gapEnd)) behind
    else
      coverSplits tail spacing last fuel (covered + split) behind

/-- Tokens covered by the `tail`-token windows ending at each position, counted
once where windows overlap. -/
def windowTailUnion (positions : ResumePositions) (tail : Nat) : Nat :=
  match positions.every with
  | none =>
    (positions.offSeries.foldl
      (fun (previous, covered) point => (point, covered + gapCover tail previous point))
      (0, 0)).2
  | some spacing =>
    coverSplits tail spacing positions.lastPosition positions.offSeries.length
      (positions.seriesCount * min spacing tail) positions.offSeries

/-! ## Bounds -/

theorem seriesFloor_le (every : Option Nat) (tokens : Nat) : seriesFloor every tokens ≤ tokens := by
  cases every with
  | none => exact Nat.zero_le _
  | some spacing => exact Nat.div_mul_le_self tokens spacing

theorem foldl_max_le {bound : Nat} (points : List Nat) (start : Nat) (hs : start ≤ bound)
    (hp : ∀ p ∈ points, p ≤ bound) : points.foldl max start ≤ bound := by
  induction points generalizing start with
  | nil => exact hs
  | cons p points ih =>
    exact ih (max start p) (max_le hs (hp p (by simp))) fun q hq => hp q (by simp [hq])

theorem floor_le_min (positions : ResumePositions) (tokens : Nat) :
    positions.floor tokens ≤ min tokens positions.lastPosition := by
  refine foldl_max_le _ _ (seriesFloor_le _ _) fun p hp => ?_
  simpa using (List.mem_filter.mp hp).2

theorem floor_le (positions : ResumePositions) (tokens : Nat) : positions.floor tokens ≤ tokens :=
  (positions.floor_le_min tokens).trans (min_le_left _ _)

theorem floor_le_end (positions : ResumePositions) (tokens : Nat) :
    positions.floor tokens ≤ positions.lastPosition :=
  (positions.floor_le_min tokens).trans (min_le_right _ _)

@[simp] theorem floor_zero (positions : ResumePositions) : positions.floor 0 = 0 :=
  Nat.le_zero.mp (positions.floor_le 0)

@[simp] theorem end_truncated_zero (positions : ResumePositions) :
    (positions.truncated 0).lastPosition = 0 := Nat.zero_min _

end ResumePositions

end ServingSim
