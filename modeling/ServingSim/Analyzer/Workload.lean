import Mathlib.Tactic

/-
  The workload-conservation check of the analyzer (`conservation::workload`), over exact
  rationals.

  Two paths must agree: the actual work is summed over the logged batches, the expected
  work is a closed form of each request's terminal observations. A retraction's re-prefill
  computes the context again and replaces one decode pass.

  The floats of the source hold whole numbers here, or halves of products of them, and are
  read as rationals without a bound. The source's totals are these as long as twice every
  running total stays below 2^53; from there on an f64 rounds and the two paths may differ.
-/

namespace ServingSim

inductive WorkloadMode
  | iterwise
  | afd
  | pp (stages : Nat)
  deriving DecidableEq, Repr

namespace WorkloadMode

/-- How many times one request's attention work appears in the log. -/
def layerMultiplier (numLayers : Nat) : WorkloadMode → ℚ
  | iterwise => 1
  | afd => numLayers
  | pp stages => stages

/-- How many times one request's FFN token pass appears in the log. -/
def ffnMultiplier (numLayers : Nat) : WorkloadMode → ℚ
  | iterwise => 1
  | afd => numLayers + 3
  | pp stages => stages

end WorkloadMode

/-! ## Actual work -/

/-- One group of a logged batch; a prefill chunk is its prefix and what it appends. -/
structure GroupInputLog where
  batchTokens : Nat
  prefillTokens : Nat
  decodeRequestCount : Nat
  decodeKvTotal : Nat
  prefillChunkPairs : List (Nat × Nat)
  deriving DecidableEq, Repr

def triangular (tokens : ℚ) : ℚ := tokens * (tokens + 1) / 2

/-- Causal attention work of one chunk: `a·prefix + a(a+1)/2`. -/
def chunkWork (chunk : Nat × Nat) : ℚ :=
  (chunk.2 : ℚ) * chunk.1 + (chunk.2 : ℚ) * (chunk.2 + 1) / 2

def causalWork (groups : List GroupInputLog) : ℚ :=
  (groups.map fun g => (g.prefillChunkPairs.map chunkWork).sum).sum

structure Actual where
  prefillTokens : ℚ
  decodePasses : ℚ
  attnBatchTokens : ℚ
  batchTokens : ℚ
  decodeKv : ℚ
  causal : ℚ
  iters : Nat
  deriving DecidableEq, Repr

/-- Sum a column over all groups of all rows. -/
def sumField (rows : List (List GroupInputLog)) (field : GroupInputLog → Nat) : ℚ :=
  (rows.map fun groups => (groups.map fun g => (field g : ℚ)).sum).sum

def collectActual (rows : List (List GroupInputLog)) : Actual where
  prefillTokens := sumField rows fun g => g.prefillTokens
  decodePasses := sumField rows fun g => g.decodeRequestCount
  attnBatchTokens := sumField rows fun g => g.batchTokens
  batchTokens := sumField rows fun g => g.batchTokens
  decodeKv := sumField rows fun g => g.decodeKvTotal
  causal := (rows.map causalWork).sum
  iters := rows.length

/-! ## Expected work -/

structure ReprocessedPrefillWorkInput where
  outputTokensBefore : ℚ
  prefixCacheHitTokens : ℚ
  prefillTokensProcessed : ℚ
  completed : Bool
  deriving DecidableEq, Repr

structure RequestSloWorkInput where
  completed : Bool
  freshPromptTokens : ℚ
  declaredPrefixTokens : ℚ
  prefixCacheHitTokens : Option ℚ
  prefillTokensProcessed : ℚ
  numOutputTokens : ℚ
  reprocessedPrefills : List ReprocessedPrefillWorkInput
  deriving DecidableEq, Repr

structure Expected where
  prefillTokens : ℚ
  decodePasses : ℚ
  batchTokens : ℚ
  decodeKv : ℚ
  causal : ℚ
  savedCausal : ℚ
  coldCausal : ℚ
  prefixTokenBalanceActual : ℚ
  prefixTokenBalanceExpected : ℚ
  missingPrefixResolutionRequests : Nat
  prefixHitBoundViolations : Nat
  prefixTokenBalanceViolations : Nat
  reprocessedTokenBalanceViolations : Nat
  reprocessedPrefillEpisodes : Nat
  requests : Nat
  contextReadyRequests : Nat
  incompleteRequests : Nat
  boundaryDecodeRequests : Nat
  maxContextLen : ℚ
  deriving DecidableEq, Repr

/-- `Expected::default()`. -/
def Expected.default : Expected :=
  ⟨0, 0, 0, 0, 0, 0, 0, 0, 0, 0, 0, 0, 0, 0, 0, 0, 0, 0, 0⟩

/-- `contributes_boundary_allowance`. -/
def contributesBoundaryAllowance (completed : Bool) (numOutputTokens : ℚ) : Bool :=
  !completed && decide (0 < numOutputTokens)

/-- What the last loop of `add_request` does for one episode. -/
def Expected.addEpisode (logicalContextTokens layerMultiplier : ℚ) (expected : Expected)
    (episode : ReprocessedPrefillWorkInput) : Expected :=
  let episodeContext := episode.prefixCacheHitTokens + episode.prefillTokensProcessed
  let expectedContext := logicalContextTokens + episode.outputTokensBefore
  { expected with
    reprocessedTokenBalanceViolations := expected.reprocessedTokenBalanceViolations +
      if episode.completed ∧ episodeContext ≠ expectedContext then 1 else 0
    causal := expected.causal + (episode.prefillTokensProcessed * episode.prefixCacheHitTokens +
      triangular episode.prefillTokensProcessed) * layerMultiplier
    savedCausal := expected.savedCausal + triangular episode.prefixCacheHitTokens * layerMultiplier
    coldCausal := expected.coldCausal +
      triangular (if episode.completed then expectedContext else episodeContext) * layerMultiplier }

def Expected.addRequest (mode : WorkloadMode) (numLayers : Nat) (expected : Expected)
    (input : RequestSloWorkInput) : Expected :=
  let contextReady := decide (0 < input.numOutputTokens)
  let prefixCacheHitTokens := input.prefixCacheHitTokens.getD 0
  let logicalContextTokens := prefixCacheHitTokens + input.prefillTokensProcessed
  let requestedContextTokens := input.freshPromptTokens + input.declaredPrefixTokens
  let layerMultiplier := mode.layerMultiplier numLayers
  let ffnMultiplier := mode.ffnMultiplier numLayers
  let completedReprocessed : ℚ :=
    (input.reprocessedPrefills.filter fun episode => episode.completed).length
  let decodeForwardPasses := max (input.numOutputTokens - 1 - completedReprocessed) 0
  let reprocessedPrefillTokens :=
    (input.reprocessedPrefills.map fun episode => episode.prefillTokensProcessed).sum
  let baseDecodePasses := max (input.numOutputTokens - 1) 0
  let decodeKv := input.reprocessedPrefills.foldl
    (fun decodeKv episode =>
      if episode.completed then
        decodeKv - max (logicalContextTokens + episode.outputTokensBefore - 1) 0
      else decodeKv)
    (baseDecodePasses * logicalContextTokens + baseDecodePasses * (baseDecodePasses - 1) / 2)
  let coldEquivalentContextTokens :=
    if contextReady then requestedContextTokens else logicalContextTokens
  let added : Expected :=
    { prefillTokens := expected.prefillTokens +
        (input.prefillTokensProcessed + reprocessedPrefillTokens) * layerMultiplier
      decodePasses := expected.decodePasses + decodeForwardPasses * layerMultiplier
      batchTokens := expected.batchTokens +
        (input.prefillTokensProcessed + reprocessedPrefillTokens + decodeForwardPasses) *
          ffnMultiplier
      decodeKv := expected.decodeKv + decodeKv * layerMultiplier
      causal := expected.causal + (input.prefillTokensProcessed * prefixCacheHitTokens +
        triangular input.prefillTokensProcessed) * layerMultiplier
      savedCausal := expected.savedCausal + triangular prefixCacheHitTokens * layerMultiplier
      coldCausal := expected.coldCausal + triangular coldEquivalentContextTokens * layerMultiplier
      prefixTokenBalanceActual := expected.prefixTokenBalanceActual +
        if contextReady then logicalContextTokens else 0
      prefixTokenBalanceExpected := expected.prefixTokenBalanceExpected +
        if contextReady then requestedContextTokens else 0
      missingPrefixResolutionRequests := expected.missingPrefixResolutionRequests +
        if contextReady ∧ input.prefixCacheHitTokens = none then 1 else 0
      prefixHitBoundViolations := expected.prefixHitBoundViolations +
        if ∃ hitTokens ∈ input.prefixCacheHitTokens, hitTokens > input.declaredPrefixTokens
          then 1 else 0
      prefixTokenBalanceViolations := expected.prefixTokenBalanceViolations +
        if contextReady ∧ logicalContextTokens ≠ requestedContextTokens then 1 else 0
      reprocessedTokenBalanceViolations := expected.reprocessedTokenBalanceViolations
      reprocessedPrefillEpisodes :=
        expected.reprocessedPrefillEpisodes + input.reprocessedPrefills.length
      requests := expected.requests + 1
      contextReadyRequests := expected.contextReadyRequests + if contextReady then 1 else 0
      incompleteRequests := expected.incompleteRequests + if input.completed then 0 else 1
      boundaryDecodeRequests := expected.boundaryDecodeRequests +
        if contributesBoundaryAllowance input.completed input.numOutputTokens then 1 else 0
      maxContextLen := max expected.maxContextLen (logicalContextTokens + input.numOutputTokens) }
  input.reprocessedPrefills.foldl (Expected.addEpisode logicalContextTokens layerMultiplier) added

/-! ## Closed forms -/

namespace RequestSloWorkInput

variable (input : RequestSloWorkInput)

def hitTokens : ℚ := input.prefixCacheHitTokens.getD 0

def logicalContextTokens : ℚ := input.hitTokens + input.prefillTokensProcessed

def completedReprocessed : ℚ :=
  (input.reprocessedPrefills.filter fun episode => episode.completed).length

/-- Every computed prompt token, over the first prefill and the re-prefills. -/
def prefillTokens : ℚ :=
  input.prefillTokensProcessed +
    (input.reprocessedPrefills.map fun episode => episode.prefillTokensProcessed).sum

def decodePasses : ℚ := max (input.numOutputTokens - 1 - input.completedReprocessed) 0

/-- The KV that the pass read which a completed re-prefill replaced. -/
def replacedKv (episode : ReprocessedPrefillWorkInput) : ℚ :=
  if episode.completed then
    max (input.logicalContextTokens + episode.outputTokensBefore - 1) 0
  else 0

def decodeKv : ℚ :=
  max (input.numOutputTokens - 1) 0 * input.logicalContextTokens +
    max (input.numOutputTokens - 1) 0 * (max (input.numOutputTokens - 1) 0 - 1) / 2 -
      (input.reprocessedPrefills.map input.replacedKv).sum

/-- A prefill computed in one shot. -/
def episodeCausal (episode : ReprocessedPrefillWorkInput) : ℚ :=
  episode.prefillTokensProcessed * episode.prefixCacheHitTokens +
    triangular episode.prefillTokensProcessed

def causal : ℚ :=
  input.prefillTokensProcessed * input.hitTokens + triangular input.prefillTokensProcessed +
    (input.reprocessedPrefills.map episodeCausal).sum

def savedCausal : ℚ :=
  triangular input.hitTokens +
    (input.reprocessedPrefills.map fun episode => triangular episode.prefixCacheHitTokens).sum

/-- The context a cold prefill would compute. -/
def coldContext : ℚ :=
  if decide (0 < input.numOutputTokens) then input.freshPromptTokens + input.declaredPrefixTokens
  else input.logicalContextTokens

def coldEpisodeContext (episode : ReprocessedPrefillWorkInput) : ℚ :=
  if episode.completed then input.logicalContextTokens + episode.outputTokensBefore
  else episode.prefixCacheHitTokens + episode.prefillTokensProcessed

def coldCausal : ℚ :=
  triangular input.coldContext + (input.reprocessedPrefills.map fun episode =>
      triangular (input.coldEpisodeContext episode)).sum

end RequestSloWorkInput

/-! ## The totals that are checked -/

inductive Quantity
  | prefillTokens
  | decodePasses
  | batchTokens
  | decodeKv
  | causal
  deriving DecidableEq, Repr

/-- An amount of each quantity. -/
abbrev Work : Type := Quantity → ℚ

def Actual.work (actual : Actual) : Work
  | .prefillTokens => actual.prefillTokens
  | .decodePasses => actual.decodePasses
  | .batchTokens => actual.batchTokens
  | .decodeKv => actual.decodeKv
  | .causal => actual.causal

def Expected.work (expected : Expected) : Work
  | .prefillTokens => expected.prefillTokens
  | .decodePasses => expected.decodePasses
  | .batchTokens => expected.batchTokens
  | .decodeKv => expected.decodeKv
  | .causal => expected.causal

/-- What a request asks of one pass over the model. -/
def RequestSloWorkInput.work (input : RequestSloWorkInput) : Work
  | .prefillTokens => input.prefillTokens
  | .decodePasses => input.decodePasses
  | .batchTokens => input.prefillTokens + input.decodePasses
  | .decodeKv => input.decodeKv
  | .causal => input.causal

/-- What one chunk of a batch costs. -/
def chunkShare (chunk : Nat × Nat) : Work
  | .prefillTokens => chunk.2
  | .decodePasses => 0
  | .batchTokens => chunk.2
  | .decodeKv => 0
  | .causal => chunkWork chunk

/-- What one decode row of a batch costs. -/
def rowShare (currentKv : Nat) : Work
  | .prefillTokens => 0
  | .decodePasses => 1
  | .batchTokens => 1
  | .decodeKv => currentKv
  | .causal => 0

theorem foldl_replaced (input : RequestSloWorkInput) (episodes : List ReprocessedPrefillWorkInput)
    (start : ℚ) :
    episodes.foldl
      (fun decodeKv episode =>
        if episode.completed then
          decodeKv - max (input.logicalContextTokens + episode.outputTokensBefore - 1) 0
        else decodeKv) start = start - (episodes.map input.replacedKv).sum := by
  induction episodes generalizing start with
  | nil => simp
  | cons episode episodes ih =>
    rw [List.foldl_cons, ih, List.map_cons, List.sum_cons, RequestSloWorkInput.replacedKv]
    split
    · ring
    · ring

theorem foldl_addEpisode (input : RequestSloWorkInput) (multiplier : ℚ)
    (episodes : List ReprocessedPrefillWorkInput) (expected : Expected) :
    let final := episodes.foldl (Expected.addEpisode input.logicalContextTokens multiplier) expected
    final.prefillTokens = expected.prefillTokens ∧ final.decodePasses = expected.decodePasses ∧
      final.batchTokens = expected.batchTokens ∧ final.decodeKv = expected.decodeKv ∧
      final.causal = expected.causal +
        (episodes.map RequestSloWorkInput.episodeCausal).sum * multiplier ∧
      final.savedCausal = expected.savedCausal +
        (episodes.map fun episode => triangular episode.prefixCacheHitTokens).sum * multiplier ∧
      final.coldCausal = expected.coldCausal +
        (episodes.map fun episode => triangular (input.coldEpisodeContext episode)).sum *
          multiplier := by
  induction episodes generalizing expected with
  | nil => simp
  | cons episode episodes ih =>
    obtain ⟨hprefill, hpasses, hbatch, hkv, hcausal, hsaved, hcold⟩ :=
      ih (Expected.addEpisode input.logicalContextTokens multiplier expected episode)
    dsimp only at hprefill hpasses hbatch hkv hcausal hsaved hcold ⊢
    rw [List.foldl_cons]
    simp only [List.map_cons, List.sum_cons]
    refine ⟨hprefill, hpasses, hbatch, hkv, ?_, ?_, ?_⟩
    · rw [hcausal, Expected.addEpisode, RequestSloWorkInput.episodeCausal]
      ring
    · rw [hsaved, Expected.addEpisode]
      ring
    · rw [hcold, Expected.addEpisode, RequestSloWorkInput.coldEpisodeContext]
      ring

theorem addRequest_eq (mode : WorkloadMode) (numLayers : Nat) (expected : Expected)
    (input : RequestSloWorkInput) :
    let added := expected.addRequest mode numLayers input
    let multiplier := mode.layerMultiplier numLayers
    added.prefillTokens = expected.prefillTokens + input.prefillTokens * multiplier ∧
      added.decodePasses = expected.decodePasses + input.decodePasses * multiplier ∧
      added.batchTokens = expected.batchTokens +
        (input.prefillTokens + input.decodePasses) * mode.ffnMultiplier numLayers ∧
      added.decodeKv = expected.decodeKv + input.decodeKv * multiplier ∧
      added.causal = expected.causal + input.causal * multiplier ∧
      added.savedCausal = expected.savedCausal + input.savedCausal * multiplier ∧
      added.coldCausal = expected.coldCausal + input.coldCausal * multiplier := by
  dsimp only
  unfold Expected.addRequest
  dsimp only
  have hloop := foldl_addEpisode input (mode.layerMultiplier numLayers) input.reprocessedPrefills
  have hkvLoop := foldl_replaced input input.reprocessedPrefills
  simp only [RequestSloWorkInput.logicalContextTokens, RequestSloWorkInput.hitTokens]
    at hloop hkvLoop
  obtain ⟨hprefill, hpasses, hbatch, hkv, hcausal, hsaved, hcold⟩ := hloop _
  rw [hprefill, hpasses, hbatch, hkv, hcausal, hsaved, hcold, hkvLoop]
  simp only [RequestSloWorkInput.prefillTokens, RequestSloWorkInput.decodePasses,
    RequestSloWorkInput.completedReprocessed, RequestSloWorkInput.decodeKv,
    RequestSloWorkInput.causal, RequestSloWorkInput.savedCausal, RequestSloWorkInput.coldCausal,
    RequestSloWorkInput.coldContext, RequestSloWorkInput.logicalContextTokens,
    RequestSloWorkInput.hitTokens]
  refine ⟨trivial, trivial, trivial, trivial, ?_, ?_, ?_⟩ <;> ring

theorem addRequest_work (numLayers : Nat) (expected : Expected) (input : RequestSloWorkInput) :
    (expected.addRequest .iterwise numLayers input).work = expected.work + input.work := by
  obtain ⟨hprefill, hpasses, hbatch, hkv, hcausal, -, -⟩ :=
    addRequest_eq .iterwise numLayers expected input
  simp only [WorkloadMode.layerMultiplier, WorkloadMode.ffnMultiplier, mul_one]
    at hprefill hpasses hbatch hkv hcausal
  funext quantity
  rw [Pi.add_apply]
  cases quantity with
  | prefillTokens => exact hprefill
  | decodePasses => exact hpasses
  | batchTokens => exact hbatch
  | decodeKv => exact hkv
  | causal => exact hcausal

theorem foldl_addRequest (numLayers : Nat) (inputs : List RequestSloWorkInput)
    (expected : Expected) :
    let final := inputs.foldl (Expected.addRequest .iterwise numLayers) expected
    final.work = expected.work + (inputs.map RequestSloWorkInput.work).sum ∧ final.savedCausal =
        expected.savedCausal + (inputs.map RequestSloWorkInput.savedCausal).sum ∧
      final.coldCausal = expected.coldCausal + (inputs.map RequestSloWorkInput.coldCausal).sum := by
  induction inputs generalizing expected with
  | nil => simp
  | cons input inputs ih =>
    obtain ⟨hwork, hsaved, hcold⟩ := ih (expected.addRequest .iterwise numLayers input)
    obtain ⟨-, -, -, -, -, hsaved', hcold'⟩ := addRequest_eq .iterwise numLayers expected input
    simp only [WorkloadMode.layerMultiplier, mul_one] at hsaved' hcold'
    dsimp only at hwork hsaved hcold ⊢
    simp only [List.foldl_cons, List.map_cons, List.sum_cons]
    refine ⟨?_, ?_, ?_⟩
    · rw [hwork, addRequest_work, add_assoc]
    · rw [hsaved, hsaved', add_assoc]
    · rw [hcold, hcold', add_assoc]

/-! ## One step of a request -/

namespace RequestSloWorkInput

variable {input after : RequestSloWorkInput} {chunk : Nat × Nat}

theorem work_congr (hhit : after.hitTokens = input.hitTokens)
    (hprocessed : after.prefillTokensProcessed = input.prefillTokensProcessed)
    (hemitted : after.numOutputTokens = input.numOutputTokens)
    (hepisodes : after.reprocessedPrefills = input.reprocessedPrefills) :
    after.work = input.work := by
  have hlogical : after.logicalContextTokens = input.logicalContextTokens := by
    rw [logicalContextTokens, hhit, hprocessed, logicalContextTokens]
  have hreplaced : after.replacedKv = input.replacedKv := by
    funext episode
    rw [replacedKv, hlogical, replacedKv]
  funext quantity
  cases quantity with
  | prefillTokens | decodePasses | batchTokens | decodeKv | causal =>
    simp only [work, prefillTokens, decodePasses, completedReprocessed, decodeKv, causal, hhit,
      hprocessed, hemitted, hepisodes, hlogical, hreplaced]

theorem work_of_prefill (hemitted : input.numOutputTokens ≤ 1)
    (hnone : input.reprocessedPrefills = []) :
    input.decodePasses = 0 ∧ input.decodeKv = 0 ∧
      input.prefillTokens = input.prefillTokensProcessed ∧
      input.causal = input.prefillTokensProcessed * input.hitTokens +
        triangular input.prefillTokensProcessed := by
  have hbase : max (input.numOutputTokens - 1) 0 = 0 := by
    apply max_eq_right
    linarith
  refine ⟨?_, ?_, ?_, ?_⟩
  · simp [decodePasses, completedReprocessed, hnone, hemitted]
  · simp [decodeKv, hbase, hnone]
  · simp [prefillTokens, hnone]
  · simp [causal, hnone]

theorem chunk_telescopes (hbefore : input.numOutputTokens ≤ 1) (hafter : after.numOutputTokens ≤ 1)
    (hnone : input.reprocessedPrefills = []) (hnone' : after.reprocessedPrefills = [])
    (hhit : after.hitTokens = input.hitTokens)
    (hstart : input.hitTokens + input.prefillTokensProcessed = chunk.1)
    (hprocessed : after.prefillTokensProcessed = input.prefillTokensProcessed + chunk.2) :
    after.work = input.work + chunkShare chunk := by
  obtain ⟨hpasses, hkv, hprefill, hcausal⟩ := work_of_prefill hbefore hnone
  obtain ⟨hpasses', hkv', hprefill', hcausal'⟩ := work_of_prefill hafter hnone'
  funext quantity
  rw [Pi.add_apply]
  cases quantity with
  | prefillTokens => simp only [work, chunkShare, hprefill, hprefill', hprocessed]
  | decodePasses => simp only [work, chunkShare, hpasses, hpasses', add_zero]
  | batchTokens =>
    simp only [work, chunkShare, hprefill, hprefill', hprocessed, hpasses, hpasses', add_zero]
  | decodeKv => simp only [work, chunkShare, hkv, hkv', add_zero]
  | causal =>
    simp only [work, chunkShare, hcausal, hcausal', hprocessed, hhit, chunkWork, triangular,
      ← hstart]
    ring

theorem reprocessed_telescopes {earlier : List ReprocessedPrefillWorkInput}
    {last closed : ReprocessedPrefillWorkInput}
    (hepisodes : input.reprocessedPrefills = earlier ++ [last])
    (hepisodes' : after.reprocessedPrefills = earlier ++ [closed]) (hopen : last.completed = false)
    (hhit : closed.prefixCacheHitTokens = last.prefixCacheHitTokens)
    (hstart : last.prefixCacheHitTokens + last.prefillTokensProcessed = chunk.1)
    (hprocessed : closed.prefillTokensProcessed = last.prefillTokensProcessed + chunk.2)
    (hfirst : after.hitTokens = input.hitTokens ∧
      after.prefillTokensProcessed = input.prefillTokensProcessed)
    (hemitted : after.numOutputTokens = input.numOutputTokens + if closed.completed then 1 else 0)
    (hreplaced : closed.completed = true → 1 ≤ input.numOutputTokens ∧
      closed.outputTokensBefore = input.numOutputTokens ∧ 0 ≤ input.logicalContextTokens) :
    after.work = input.work + chunkShare chunk := by
  have hlogical : after.logicalContextTokens = input.logicalContextTokens := by
    rw [logicalContextTokens, hfirst.1, hfirst.2, logicalContextTokens]
  have hreplacedKv : after.replacedKv = input.replacedKv := by
    funext episode
    rw [replacedKv, hlogical, replacedKv]
  have hpasses : after.decodePasses = input.decodePasses := by
    cases hclosed : closed.completed with
    | false => simp [decodePasses, completedReprocessed, hepisodes, hepisodes', hemitted,
        hopen, hclosed]
    | true =>
      have hcount : after.completedReprocessed = input.completedReprocessed + 1 := by
        simp [completedReprocessed, hepisodes, hepisodes', hopen, hclosed]
      rw [decodePasses, decodePasses, hcount, hemitted, hclosed, if_pos rfl]
      congr 1
      ring
  -- a closed episode replaces the pass that would have read the same context
  have hkv : after.decodeKv = input.decodeKv := by
    have hlast : input.replacedKv last = 0 := by simp [replacedKv, hopen]
    simp only [decodeKv, hepisodes, hepisodes', List.map_append, List.sum_append, hreplacedKv,
      hlogical, List.map_cons, List.map_nil, List.sum_cons, List.sum_nil, hlast]
    cases hclosed : closed.completed with
    | false => simp [hemitted, hclosed, replacedKv]
    | true =>
      obtain ⟨hpositive, hbefore, hnonneg⟩ := hreplaced hclosed
      have hpass : input.replacedKv closed =
          input.logicalContextTokens + input.numOutputTokens - 1 := by
        rw [replacedKv, if_pos hclosed, hbefore]
        apply max_eq_left
        linarith
      have hbase : max (input.numOutputTokens - 1) 0 = input.numOutputTokens - 1 := by
        apply max_eq_left
        linarith
      have hbase' : max (after.numOutputTokens - 1) 0 = input.numOutputTokens := by
        rw [hemitted, hclosed, if_pos rfl, add_sub_cancel_right]
        apply max_eq_left
        linarith
      rw [hpass, hbase, hbase']
      ring
  have hprefill : after.prefillTokens = input.prefillTokens + chunk.2 := by
    simp only [prefillTokens, hepisodes, hepisodes', hfirst.2, List.map_append, List.sum_append,
      List.map_cons, List.map_nil, List.sum_cons, List.sum_nil, hprocessed]
    ring
  funext quantity
  rw [Pi.add_apply]
  cases quantity with
  | prefillTokens => exact hprefill
  | decodePasses => simpa only [work, chunkShare, add_zero] using hpasses
  | batchTokens =>
    simp only [work, chunkShare, hprefill, hpasses]
    ring
  | decodeKv => simpa only [work, chunkShare, add_zero] using hkv
  | causal =>
    simp only [work, chunkShare, causal, hepisodes, hepisodes', hfirst.1, hfirst.2,
      List.map_append, List.sum_append, List.map_cons, List.map_nil, List.sum_cons, List.sum_nil,
      episodeCausal, hhit, hprocessed, chunkWork, triangular, ← hstart]
    ring

theorem decode_telescopes {currentKv : Nat}
    (hpositive : input.completedReprocessed + 1 ≤ input.numOutputTokens)
    (hkv : input.logicalContextTokens + input.numOutputTokens = currentKv + 1)
    (hemitted : after.numOutputTokens = input.numOutputTokens + 1)
    (hhit : after.hitTokens = input.hitTokens)
    (hprocessed : after.prefillTokensProcessed = input.prefillTokensProcessed)
    (hepisodes : after.reprocessedPrefills = input.reprocessedPrefills) :
    after.work = input.work + rowShare currentKv := by
  have hlogical : after.logicalContextTokens = input.logicalContextTokens := by
    rw [logicalContextTokens, hhit, hprocessed, logicalContextTokens]
  have hreplaced : after.replacedKv = input.replacedKv := by
    funext episode
    rw [replacedKv, hlogical, replacedKv]
  have hcount : (0 : ℚ) ≤ input.completedReprocessed := Nat.cast_nonneg _
  have hcompleted : after.completedReprocessed = input.completedReprocessed := by
    rw [completedReprocessed, hepisodes, completedReprocessed]
  have hpasses : after.decodePasses = input.decodePasses + 1 := by
    rw [decodePasses, decodePasses, hcompleted, hemitted, max_eq_left, max_eq_left]
    · ring
    · linarith
    · linarith
  have hread : after.decodeKv = input.decodeKv + currentKv := by
    have hbase : max (input.numOutputTokens - 1) 0 = input.numOutputTokens - 1 := by
      apply max_eq_left
      linarith
    have hbase' : max (after.numOutputTokens - 1) 0 = input.numOutputTokens := by
      rw [hemitted, add_sub_cancel_right]
      apply max_eq_left
      linarith
    have hcurrent : (currentKv : ℚ) = input.logicalContextTokens + input.numOutputTokens - 1 := by
      linarith
    rw [decodeKv, decodeKv, hbase, hbase', hepisodes, hreplaced, hlogical, hcurrent]
    ring
  have hprefill : after.prefillTokens = input.prefillTokens := by
    rw [prefillTokens, hprocessed, hepisodes, prefillTokens]
  funext quantity
  rw [Pi.add_apply]
  cases quantity with
  | prefillTokens => simpa only [work, rowShare, add_zero] using hprefill
  | decodePasses => exact hpasses
  | batchTokens =>
    simp only [work, rowShare, hprefill, hpasses]
    ring
  | decodeKv => exact hread
  | causal =>
    simp only [work, rowShare, add_zero, causal, hhit, hprocessed, hepisodes]

/-! ## Saved work -/

theorem triangular_add (hit processed : ℚ) :
    processed * hit + triangular processed + triangular hit = triangular (hit + processed) := by
  simp only [triangular]
  ring

/-- Hits and computed tokens make up the contexts: of the first prefill, once it is over, and
of each re-prefill that is. -/
structure ContextsFilled (input : RequestSloWorkInput) : Prop where
  first : 0 < input.numOutputTokens →
    input.logicalContextTokens = input.freshPromptTokens + input.declaredPrefixTokens
  again : ∀ episode ∈ input.reprocessedPrefills, episode.completed = true →
    episode.prefixCacheHitTokens + episode.prefillTokensProcessed =
      input.logicalContextTokens + episode.outputTokensBefore

theorem causal_add_saved (h : input.ContextsFilled) :
    input.causal + input.savedCausal = input.coldCausal := by
  have hcontext : input.coldContext = input.logicalContextTokens := by
    unfold coldContext
    split
    · next hready => exact (h.first (of_decide_eq_true hready)).symm
    · rfl
  have hepisodes : ∀ episodes : List ReprocessedPrefillWorkInput,
      (∀ episode ∈ episodes, episode ∈ input.reprocessedPrefills) →
      (episodes.map episodeCausal).sum +
          (episodes.map fun episode => triangular episode.prefixCacheHitTokens).sum =
        (episodes.map fun episode => triangular (input.coldEpisodeContext episode)).sum := by
    intro episodes
    induction episodes with
    | nil => simp
    | cons episode episodes ih =>
      intro hmem
      have hrest := ih fun other hother => hmem other (List.mem_cons_of_mem _ hother)
      have hcold : input.coldEpisodeContext episode =
          episode.prefixCacheHitTokens + episode.prefillTokensProcessed := by
        unfold coldEpisodeContext
        split
        · next hcompleted =>
            exact (h.again episode (hmem episode List.mem_cons_self) hcompleted).symm
        · rfl
      simp only [List.map_cons, List.sum_cons, hcold, ← triangular_add, ← hrest, episodeCausal]
      ring
  have hall := hepisodes input.reprocessedPrefills fun _ hmem => hmem
  rw [causal, savedCausal, coldCausal, hcontext, logicalContextTokens, ← triangular_add, ← hall]
  ring

end RequestSloWorkInput

end ServingSim
