import ServingSim.Timing.SystematicCells

/-
  Folding layer histograms into one, and choosing the central one of several draws
  (`timing::routing`, `timing::token_corpus`).

  Every layer histogram is put in canonical form: experts sorted within their rank,
  ranks sorted by active experts, rows and shape. Equal canonical places are averaged
  over the layers, and the remainders go to the largest residuals.
-/

namespace ServingSim

/-- `chunks_exact`: the blocks of `size`, a shorter rest left out; empty for size 0. -/
def chunksExact {α : Type} (size : Nat) (l : List α) : List (List α) :=
  (List.range (l.length / size)).map fun chunk => (l.drop (chunk * size)).take size

/-! ## The fold -/

def activeExperts (rank : List Nat) : Nat := (rank.filter (0 < ·)).length

/-- Ranks with more active experts first, then more rows, then the larger shape. -/
def rankBefore (left right : List Nat) : Bool :=
  if activeExperts left ≠ activeExperts right then activeExperts right < activeExperts left
  else if left.sum ≠ right.sum then right.sum < left.sum
  else decide (right ≤ left)

/-- A layer histogram with experts sorted within their rank and ranks sorted. -/
def canonical (expertsPerRank : Nat) (counts : List Nat) : List Nat :=
  (((chunksExact expertsPerRank counts).map fun rank => rank.mergeSort (· ≥ ·)).mergeSort
    rankBefore).flatten

/-- Give one more to each of the chosen experts. -/
def roundUp (folded : List Nat) (experts : List Nat) : List Nat :=
  experts.foldl (fun folded expert => folded.modify expert (· + 1)) folded

def foldLayerwise (layerCounts : List (List Nat)) (expertsPerRank : Nat) :
    Except String (List Nat) := do
  ensure (layerCounts ≠ []) "cannot fold zero routing layers"
  ensure (0 < expertsPerRank) "experts_per_rank must be non-zero"
  let numExperts := (layerCounts.headD []).length
  ensure (0 < numExperts) "cannot fold empty expert histograms"
  ensure (numExperts % expertsPerRank = 0) "expert count must divide evenly into EP ranks"
  ensure (∀ counts ∈ layerCounts, counts.length = numExperts)
    "all routing layers must have the same expert count"
  let target := (layerCounts.headD []).sum
  ensure (∀ counts ∈ layerCounts, counts.sum = target)
    "all routing layers must contain the same assignment count"
  let sums := layerCounts.foldl
    (fun sums counts => List.zipWith (· + ·) sums (canonical expertsPerRank counts))
    (List.replicate numExperts 0)
  let divisor := layerCounts.length
  let folded := sums.map (· / divisor)
  let residual := fun expert => sums.getD expert 0 % divisor
  let residuals := (List.range numExperts).mergeSort fun left right =>
    if residual left ≠ residual right then residual right < residual left else left ≤ right
  return roundUp folded (residuals.take (target - folded.sum))

/-! ## Layerwise sampling -/

/-- One histogram for each layer, all from one generator. -/
def sampleLayers (topK nTokens : Nat) :
    List (List Nat) → RoutingRng → Except String (List (List Nat))
  | [], _ => .ok []
  | ppm :: layerPpm, rng => do
    let (cells, rng) ← SystematicCells.new ppm topK rng
    let (counts, rng) ← cells.sampleCounts nTokens rng
    let layers ← sampleLayers topK nTokens layerPpm rng
    return counts :: layers

def sampleLayerwise (layerPpm : List (List Nat)) (topK nTokens : Nat) (seed : SplitMix.Word) :
    Except String (List (List Nat)) :=
  sampleLayers topK nTokens layerPpm (RoutingRng.new seed)

def sampleAndFoldLayerwise (layerPpm : List (List Nat)) (topK nTokens expertsPerRank : Nat)
    (seed : SplitMix.Word) : Except String (List Nat) := do
  let layers ← sampleLayerwise layerPpm topK nTokens seed
  foldLayerwise layers expertsPerRank

/-! ## The central candidate -/

/-- The larger pair in lexicographic order. -/
def maxFeature (a b : Nat × Nat) : Nat × Nat :=
  if a.1 < b.1 ∨ a.1 = b.1 ∧ a.2 ≤ b.2 then b else a

/-- The active experts and rows of a histogram's heaviest rank. -/
def heaviestRank (expertsPerRank : Nat) (counts : List Nat) : Except String (Nat × Nat) := do
  ensure (counts.length % expertsPerRank = 0) "assertion left == right failed"
  match (chunksExact expertsPerRank counts).map fun rank => (activeExperts rank, rank.sum) with
  | [] => .error "at least one rank"
  | feature :: features => return features.foldl maxFeature feature

/-- Squared distance of a value from the middle of the candidates' values. -/
def centralDistance (values : List Nat) (value : Nat) : Int :=
  let less := (values.filter (· < value)).length
  let equal := (values.filter (· = value)).length
  let centered : Int := 2 * less + equal - values.length
  centered * centered

/-- The first entry with the smallest score. -/
def firstMin : List (Int × Nat) → Option (Int × Nat)
  | [] => none
  | entry :: entries => some (entries.foldl (fun best e => if e.1 < best.1 then e else best) entry)

/-- The index of the candidate whose heaviest rank is the most central. -/
def medianCandidate (candidates : List (List Nat)) (expertsPerRank : Nat) : Except String Nat := do
  ensure (candidates ≠ [] ∧ 0 < expertsPerRank) "assertion failed"
  let features ← candidates.mapM (heaviestRank expertsPerRank)
  let scores := features.map fun feature =>
    centralDistance (features.map Prod.fst) feature.1 +
      centralDistance (features.map Prod.snd) feature.2
  match firstMin scores.zipIdx with
  | some best => return best.2
  | none => .error "candidates is non-empty"

def selectCandidate (candidates : List (List Nat)) (expertsPerRank : Nat) :
    Except String (List Nat) := do
  let selected ← medianCandidate candidates expertsPerRank
  match candidates[selected]? with
  | some candidate => return candidate
  | none => .error "median_candidate returns an in-range index"

end ServingSim
