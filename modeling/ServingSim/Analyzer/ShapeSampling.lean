import Mathlib.Data.String.Basic
import Mathlib.Data.Prod.Lex
import Mathlib.Data.List.Lex
import ServingSim.Common.Ensure
import ServingSim.Lib.LargestRemainder
import ServingSim.Lib.SplitMix

/-
  Stratified sampling of iteration shapes (`conservation::workload`).

  The rows of a cost log are summed up to iterations. Of each worker's iterations, those
  that run prefill are drawn by a hash of their number and the others by its remainder;
  what is drawn is counted by shape, and the counts of either stratum are scaled up to the
  stratum by largest remainders.

  Renamed (Rust ↔ Lean):
    `WorkloadTotals`, `WorkloadShape` ↔ `ShapeSampling.WorkloadTotals`; a shape is totals
      that were read as exact counts
    `sort_shapes_with_flags` ↔ `sortShapes`
  The floats of the totals and of the iteration numbers hold whole numbers, read as naturals
  (each exact below 2 ^ 53, which `Readable` asks of a log); the share of the prefill
  iterations to keep is the double nearest to its quotient. The counts of iterations are
  naturals: a log has fewer than 2 ^ 32 of them. A hash map from a key is the list of its
  keys, each once, with their values: its order is not visible, since the shapes are sorted
  by all of their fields and the samples are looked up by worker.
-/

namespace ServingSim

namespace ShapeSampling

open LargestRemainder

/-! ## Workloads -/

/-- One group of a logged batch, the columns the labeler's workload is made of. -/
structure WorkloadGroup where
  batchTokens : Nat
  prefillTokens : Nat
  decodeRequestCount : Nat
  decodeKvTotal : Nat
  prefillPrefixLens : Option (List Nat)
  prefillAppendLens : Option (List Nat)
  speculativeGeometry : Option String
  decodeKvLens : Option (List Nat)

structure CostRow where
  poolTag : String
  workerId : Nat
  iterId : Nat
  groups : List WorkloadGroup

structure WorkloadTotals where
  matmulTokens : Nat
  prefillTokens : Nat
  decodePasses : Nat
  prefillPairs : Nat
  prefillCached : Nat
  decodeKv : Nat
  prefillRequests : Nat
  prefillStatefulRequests : Nat
  /-- Raw group geometries and multiplicities, by geometry. -/
  speculativeGeometry : List (String × Nat)
  requestGeometry : List (String × Nat)
  deriving DecidableEq

def WorkloadTotals.default : WorkloadTotals := ⟨0, 0, 0, 0, 0, 0, 0, 0, [], []⟩

/-- `entry(key).or_default() += 1` in an ordered map. -/
def bumpEntry (key : String) : List (String × Nat) → List (String × Nat)
  | [] => [(key, 1)]
  | entry :: entries =>
    if key = entry.1 then (key, entry.2 + 1) :: entries
    else if key < entry.1 then (key, 1) :: entry :: entries
    else entry :: bumpEntry key entries

/-- `add_prefill_request`. -/
def addPrefillRequest (totals : WorkloadTotals) (prefixLength appendLength : Nat) :
    WorkloadTotals :=
  { totals with
    prefillPairs := totals.prefillPairs +
      (appendLength * prefixLength + appendLength * (appendLength + 1) / 2)
    prefillCached := totals.prefillCached + prefixLength
    prefillRequests := totals.prefillRequests + 1
    prefillStatefulRequests := totals.prefillStatefulRequests + if 0 < prefixLength then 1 else 0 }

/-- One prefill chunk; its geometry is kept where the group logs request geometries. -/
def addChunk (requestGeometry : Bool) (totals : WorkloadTotals) (chunk : Nat × Nat) :
    WorkloadTotals :=
  let geometry := "prefill:" ++ toString chunk.1 ++ ":" ++ toString chunk.2
  let entries :=
    if requestGeometry then bumpEntry geometry totals.requestGeometry else totals.requestGeometry
  addPrefillRequest { totals with requestGeometry := entries } chunk.1 chunk.2

/-- The prefill chunks of a group, as far as both lists go. -/
def WorkloadGroup.chunks (g : WorkloadGroup) : List (Nat × Nat) :=
  match g.prefillPrefixLens, g.prefillAppendLens with
  | some prefixes, some appends => prefixes.zip appends
  | _, _ => []

def addScalars (totals : WorkloadTotals) (g : WorkloadGroup) : WorkloadTotals :=
  { totals with
    speculativeGeometry := match g.speculativeGeometry with
      | some geometry => bumpEntry geometry totals.speculativeGeometry
      | none => totals.speculativeGeometry
    matmulTokens := totals.matmulTokens + g.batchTokens
    prefillTokens := totals.prefillTokens + g.prefillTokens
    decodePasses := totals.decodePasses + g.decodeRequestCount
    decodeKv := totals.decodeKv + g.decodeKvTotal }

def addDecodeLens (totals : WorkloadTotals) (g : WorkloadGroup) :
    Except String WorkloadTotals := do
  match g.decodeKvLens with
  | none => .ok totals
  | some kvLens =>
    ensure (kvLens.length = g.decodeRequestCount)
      ("decode_kv_lens has " ++ toString kvLens.length ++ " entries but decode_request_count is " ++
        toString g.decodeRequestCount)
    let entries := kvLens.foldl
      (fun entries kvLen => bumpEntry ("decode:" ++ toString kvLen) entries) totals.requestGeometry
    .ok { totals with requestGeometry := entries }

def addGroup (totals : WorkloadTotals) (g : WorkloadGroup) : Except String WorkloadTotals := do
  let totals ← addDecodeLens (addScalars totals g) g
  .ok (g.chunks.foldl (addChunk g.decodeKvLens.isSome) totals)

def addRange (totals : WorkloadTotals) (groups : List WorkloadGroup) :
    Except String WorkloadTotals := groups.foldlM addGroup totals

/-- Did this iteration run any prefill? -/
def carriesPrefill (totals : WorkloadTotals) : Bool :=
  decide (0 < totals.prefillTokens) || decide (0 < totals.prefillPairs) ||
    decide (0 < totals.prefillRequests)

/-! ## Shapes -/

abbrev WorkloadShape := WorkloadTotals

def exactCount (value : Nat) (fieldName : String) : Except String Nat := do
  ensure (value ≤ 2 ^ 64) ("workload field \"" ++ fieldName ++
    "\" is not a non-negative exact u64: " ++ toString value)
  .ok (min value (2 ^ 64 - 1))

def exactEntries (entries : List (String × Nat)) (fieldName : String) :
    Except String (List (String × Nat)) :=
  entries.mapM fun entry => do
    let count ← exactCount entry.2 fieldName
    .ok (entry.1, count)

def fromTotals (totals : WorkloadTotals) : Except String WorkloadShape := do
  let matmulTokens ← exactCount totals.matmulTokens "matmul_tokens"
  let prefillTokens ← exactCount totals.prefillTokens "prefill_tokens"
  let decodePasses ← exactCount totals.decodePasses "decode_passes"
  let prefillPairs ← exactCount totals.prefillPairs "prefill_pairs"
  let prefillCached ← exactCount totals.prefillCached "prefill_cached"
  let decodeKv ← exactCount totals.decodeKv "decode_kv"
  let prefillRequests ← exactCount totals.prefillRequests "prefill_requests"
  let prefillStatefulRequests ←
    exactCount totals.prefillStatefulRequests "prefill_stateful_requests"
  let speculativeGeometry ← exactEntries totals.speculativeGeometry "geometry count"
  let requestGeometry ← exactEntries totals.requestGeometry "request count"
  .ok ⟨matmulTokens, prefillTokens, decodePasses, prefillPairs, prefillCached, decodeKv,
    prefillRequests, prefillStatefulRequests, speculativeGeometry, requestGeometry⟩

/-- One exact fixed-batch workload and the number of iterations with that shape. -/
structure WeightedWorkload where
  totals : WorkloadTotals
  occurrences : Nat
  deriving DecidableEq

/-- The order of the labeler's request: the scalars, then the geometries. -/
def shapeKey (totals : WorkloadTotals) : List Nat ×ₗ List (String ×ₗ Nat) ×ₗ List (String ×ₗ Nat) :=
  toLex ([totals.matmulTokens, totals.prefillTokens, totals.decodePasses, totals.decodeKv,
    totals.prefillPairs, totals.prefillCached, totals.prefillRequests,
    totals.prefillStatefulRequests],
    toLex (totals.speculativeGeometry.map toLex, totals.requestGeometry.map toLex))

def sortShapes (shapes : List WorkloadShape) : List WorkloadShape :=
  shapes.insertionSort fun left right => shapeKey left ≤ shapeKey right

/-! ## Reweighting -/

/-- The places of a stratum's shapes. -/
def stratumIndices (prefillFlags : List Bool) (carries : Bool) : List Nat :=
  (List.range prefillFlags.length).filter fun index => prefillFlags.getD index false = carries

/-- Scale one stratum's sampled occurrences up to its exact iteration count. -/
def reweightStratum (occurrences : List Nat) (prefillFlags : List Bool) (carries : Bool)
    (stratumIterations sampledIterations : Nat) : List Nat :=
  if sampledIterations = 0 ∨ stratumIterations = sampledIterations then occurrences
  else
    let indices := stratumIndices prefillFlags carries
    let weight := fun index => occurrences.getD index 0 * stratumIterations / sampledIterations
    let remainder := fun index => occurrences.getD index 0 * stratumIterations % sampledIterations
    let assigned := (indices.map weight).sum
    let floored := occurrences.zipIdx.map fun shape =>
      if shape.2 ∈ indices then weight shape.2 else shape.1
    give floored ((indices.mergeSort (largerFirst remainder)).take (stratumIterations - assigned))

/-! ## Drawing -/

/-- SplitMix64's finalizer on the number of an iteration. -/
def splitmix64 (value : Nat) : Nat := (SplitMix.mix (BitVec.ofNat 64 value + SplitMix.gamma)).toNat

/-- The nearest whole number to a quotient, the even one of two. -/
def roundQuotient (numerator denominator : Nat) : Nat :=
  let quotient := numerator / denominator
  let rest := numerator % denominator
  if 2 * rest < denominator ∨ 2 * rest = denominator ∧ quotient % 2 = 0 then quotient
  else quotient + 1

/-- A fraction below one as a double: so many times a power of a half. -/
def toDouble (numerator denominator : Nat) : Nat × Nat :=
  let exponent := 52 + Nat.log2 denominator - Nat.log2 numerator
  let exponent :=
    if numerator * 2 ^ exponent < denominator * 2 ^ 52 then exponent + 1 else exponent
  (roundQuotient (numerator * 2 ^ exponent) denominator, exponent)

/-- The bound on the hashes of the iterations that are kept. -/
def prefillCutoff (target prefillIterations : Nat) : Nat :=
  let target := max target 1
  let iterations := max prefillIterations 1
  let keep := toDouble target iterations
  if iterations ≤ target ∨ 2 ^ keep.2 ≤ keep.1 then 2 ^ 64 - 1
  else keep.1 * 2 ^ 64 / 2 ^ keep.2

def decodeStride (target decodeIterations : Nat) : Nat := max (decodeIterations / max target 1) 1

/-- The sampling targets. -/
structure Targets where
  decode : Nat
  prefill : Nat

/-- Is an iteration drawn from its stratum, which has so many iterations? -/
def drawn (targets : Targets) (stratumIterations : Nat) (carries : Bool) (iterationId : Nat) :
    Bool :=
  if carries then
    let cutoff := prefillCutoff targets.prefill stratumIterations
    decide (cutoff = 2 ^ 64 - 1) || decide (splitmix64 iterationId ≤ cutoff)
  else iterationId % decodeStride targets.decode stratumIterations = 0

/-! ## Collecting -/

/-- The pools in the order they are met. -/
def internPools (rows : List CostRow) : List String :=
  rows.foldl (fun tags row => if row.poolTag ∈ tags then tags else tags ++ [row.poolTag]) []

/-- A pool's index, and a worker's number in the pool. -/
abbrev WorkerKey := Nat × Nat

/-- The index of a pool is kept in sixteen bits. -/
def workerKey (tags : List String) (row : CostRow) : WorkerKey :=
  (tags.idxOf row.poolTag % 2 ^ 16, row.workerId)

/-- One iteration of a worker and its workload. -/
structure Iteration where
  worker : WorkerKey
  id : Nat
  totals : WorkloadTotals

/-- A row, with its iteration number as the reader has it. -/
def readRow (row : CostRow) : Except String CostRow := do
  let iterationId ← exactCount row.iterId "iter_id"
  .ok { row with iterId := iterationId }

/-- Rows sharing a worker and an iteration number are summed. -/
def totalsByIteration (rows : List CostRow) : Except String (List Iteration) := do
  let rows ← rows.mapM readRow
  let tags := internPools rows
  let key := fun row : CostRow => (workerKey tags row, row.iterId)
  (rows.map key).dedup.mapM fun k => do
    let totals ← (rows.filter fun row => key row = k).foldlM
      (fun totals row => addRange totals row.groups) WorkloadTotals.default
    .ok ⟨k.1, k.2, totals⟩

/-- A worker's iterations of one stratum. -/
def stratumOf (iterations : List Iteration) (worker : WorkerKey) (carries : Bool) :
    List Iteration :=
  iterations.filter fun iteration =>
    iteration.worker = worker ∧ carriesPrefill iteration.totals = carries

/-- Is an iteration part of the sample? -/
def sampled (targets : Targets) (iterations : List Iteration) (iteration : Iteration) : Bool :=
  let carries := carriesPrefill iteration.totals
  drawn targets (stratumOf iterations iteration.worker carries).length carries iteration.id

/-- A sampled iteration: its worker, whether it runs prefill, and its shape. -/
structure SampledShape where
  worker : WorkerKey
  carries : Bool
  shape : WorkloadShape

def sampledShapes (targets : Targets) (iterations : List Iteration) :
    Except String (List SampledShape) :=
  (iterations.filter (sampled targets iterations)).mapM fun iteration => do
    let shape ← fromTotals iteration.totals
    .ok ⟨iteration.worker, carriesPrefill iteration.totals, shape⟩

/-- One worker's labelable shape set, and what it stands for. -/
structure WorkerShapeSample where
  shapes : List WeightedWorkload
  iterations : Nat
  labeledIterations : Nat
  decodeStride : Nat
  prefillIterations : Nat
  sampledPrefillIterations : Nat

def workerSample (targets : Targets) (iterations : List Iteration) (kept : List SampledShape)
    (worker : WorkerKey) : WorkerShapeSample :=
  let mine := kept.filter fun k => k.worker = worker
  let shapes := sortShapes (mine.map SampledShape.shape).dedup
  let prefillFlags := shapes.map fun shape =>
    decide (∃ k ∈ mine, k.carries = true ∧ k.shape = shape)
  let occurrences := shapes.map fun shape => mine.countP fun k => k.shape = shape
  let decodeIterations := (stratumOf iterations worker false).length
  let prefillIterations := (stratumOf iterations worker true).length
  let sampledDecode := mine.countP fun k => !k.carries
  let sampledPrefill := mine.countP fun k => k.carries
  let occurrences := reweightStratum occurrences prefillFlags false decodeIterations sampledDecode
  let occurrences := reweightStratum occurrences prefillFlags true prefillIterations sampledPrefill
  { shapes := shapes.zipWith WeightedWorkload.mk occurrences
    iterations := iterations.countP fun iteration => iteration.worker = worker
    labeledIterations := shapes.length
    decodeStride := ShapeSampling.decodeStride targets.decode decodeIterations
    prefillIterations := prefillIterations
    sampledPrefillIterations := sampledPrefill }

/-- The samples of a run, by pool tag and worker. -/
def collectWorkloadShapesByWorker (rows : List CostRow) (targets : Targets) :
    Except String (List ((String × Nat) × WorkerShapeSample)) := do
  let tags := internPools rows
  let iterations ← totalsByIteration rows
  let kept ← sampledShapes targets iterations
  .ok ((kept.map SampledShape.worker).dedup.map fun worker =>
    ((tags.getD worker.1 "", worker.2), workerSample targets iterations kept worker))

end ShapeSampling

end ServingSim
