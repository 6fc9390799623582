import ServingSim.Common.Ensure
import ServingSim.Common.Request

/-
  The record a worker keeps of one text-generation request (`common::request`,
  `common::request_family::text_generation`).

  A record is the request's definition, its progress in prefill tokens and
  emitted output tokens, the stage it was last stamped with, and what is observed
  about its prefix hit and its recomputations. The asserting methods fail with
  the message of the source's panic.

  Of the output times only their number is kept, with token logging on; the stage log
  and the speculative observations are written and never read back by a worker and are
  left out. Counts are natural numbers, so the source's overflow checks have no
  counterpart.
-/

namespace ServingSim

/-- Stages of a request in a unified worker. -/
inductive UnifiedStage where
  | pending
  | prefill
  | decode
  | done
  deriving DecidableEq, Repr

/-- One recomputation episode after decode retraction. -/
structure ReprocessedPrefillEpisode where
  outputTokensBefore : Nat
  prefixCacheHitTokens : Nat
  prefillTokensProcessed : Nat
  completed : Bool
  deriving DecidableEq, Repr

structure RequestRecord where
  id : RequestId
  arrivalTime : Time
  promptTokens : Nat
  targetOutputTokens : Nat
  session : SessionInput
  prefillTokensProcessed : Nat
  outputTokensEmitted : Nat
  admitted : Bool
  completed : Bool
  /-- The stage last stamped; `none` before a worker accepts the request. -/
  stage : Option UnifiedStage
  prefixCacheHitTokens : Option Nat
  /-- How many output times were logged: one for each token. -/
  outputTimes : Nat
  retractionCount : Nat
  reprocessedPrefills : List ReprocessedPrefillEpisode
  deriving DecidableEq, Repr

namespace RequestRecord

/-- A request that has just arrived. -/
def fromRequest (id : RequestId) (arrivalTime : Time) (promptTokens targetOutputTokens : Nat)
    (session : SessionInput) : RequestRecord where
  id := id
  arrivalTime := arrivalTime
  promptTokens := promptTokens
  targetOutputTokens := targetOutputTokens
  session := session
  prefillTokensProcessed := 0
  outputTokensEmitted := 0
  admitted := false
  completed := false
  stage := none
  prefixCacheHitTokens := none
  outputTimes := 0
  retractionCount := 0
  reprocessedPrefills := []

variable (record : RequestRecord)

/-- Nothing happened to the request yet. -/
def Fresh : Prop :=
  record = fromRequest record.id record.arrivalTime record.promptTokens record.targetOutputTokens
    record.session

instance : Decidable record.Fresh := inferInstanceAs (Decidable (_ = _))

def isComplete : Bool := record.outputTokensEmitted ≥ record.targetOutputTokens

/-- Output tokens still to emit. -/
def remainingOutputTokens : Nat := record.targetOutputTokens - record.outputTokensEmitted

def stampStage (stage : UnifiedStage) : RequestRecord := { record with stage := some stage }

def markAdmitted : RequestRecord := { record with admitted := true }

def recordFirstToken : RequestRecord :=
  let emitted := { record with outputTokensEmitted := 1, outputTimes := record.outputTimes + 1 }
  { emitted with completed := emitted.isComplete }

def recordToken : RequestRecord :=
  let emitted := { record with
    outputTokensEmitted := record.outputTokensEmitted + 1
    outputTimes := record.outputTimes + 1 }
  if emitted.isComplete then { emitted with completed := true } else emitted

def recordPrefixCacheHitTokens (prefixCacheHitTokens : Nat) : Except String RequestRecord := do
  ensure (prefixCacheHitTokens ≤ record.session.declaredPrefixTokens)
    (s!"request {record.id} hit {prefixCacheHitTokens} prefix tokens " ++
      s!"but declared only {record.session.declaredPrefixTokens}")
  ensure (record.prefixCacheHitTokens = none)
    s!"request {record.id} recorded prefix-cache hit tokens more than once"
  return { record with prefixCacheHitTokens := some prefixCacheHitTokens }

def recordRetraction : RequestRecord :=
  { record with retractionCount := record.retractionCount + 1 }

def beginReprocessedPrefill (prefixCacheHitTokens : Nat) : Except String RequestRecord := do
  ensure (∀ episode ∈ record.reprocessedPrefills.getLast?, episode.completed = true)
    s!"request {record.id} began overlapping reprocessed-prefill episodes"
  return { record with
    reprocessedPrefills := record.reprocessedPrefills ++
      [⟨record.outputTokensEmitted, prefixCacheHitTokens, 0, false⟩] }

/-- Replace the last episode, which must be there and still open. -/
def updateEpisode (missing closed : String)
    (f : ReprocessedPrefillEpisode → ReprocessedPrefillEpisode) : Except String RequestRecord :=
  match record.reprocessedPrefills.getLast? with
  | none => .error missing
  | some episode => do
    ensure (episode.completed = false) closed
    return { record with
      reprocessedPrefills := record.reprocessedPrefills.dropLast ++ [f episode] }

def recordReprocessedPrefillTokens (tokens : Nat) : Except String RequestRecord :=
  record.updateEpisode "reprocessed prefill tokens require an active episode"
    "reprocessed prefill episode already completed" fun episode =>
      { episode with prefillTokensProcessed := episode.prefillTokensProcessed + tokens }

def completeReprocessedPrefill : Except String RequestRecord :=
  record.updateEpisode "reprocessed prefill completion requires an active episode"
    "reprocessed prefill completed twice" fun episode => { episode with completed := true }

/-! ## What the methods change

Progress and definition are what admission reads back; the observations never
reach them. -/

/-- The request's definition: what no step changes. -/
structure Definition where
  id : RequestId
  arrivalTime : Time
  promptTokens : Nat
  targetOutputTokens : Nat
  session : SessionInput
  deriving DecidableEq, Repr

def definition : Definition :=
  ⟨record.id, record.arrivalTime, record.promptTokens, record.targetOutputTokens, record.session⟩

@[simp] theorem definition_stampStage (stage : UnifiedStage) :
    (record.stampStage stage).definition = record.definition := rfl

@[simp] theorem outputTokensEmitted_stampStage (stage : UnifiedStage) :
    (record.stampStage stage).outputTokensEmitted = record.outputTokensEmitted := rfl

@[simp] theorem definition_markAdmitted : record.markAdmitted.definition = record.definition := rfl

@[simp] theorem definition_recordFirstToken :
    record.recordFirstToken.definition = record.definition := rfl

@[simp] theorem outputTokensEmitted_recordFirstToken :
    record.recordFirstToken.outputTokensEmitted = 1 := rfl

@[simp] theorem definition_recordToken : record.recordToken.definition = record.definition := by
  unfold recordToken
  dsimp only
  split <;> rfl

@[simp] theorem outputTokensEmitted_recordToken :
    record.recordToken.outputTokensEmitted = record.outputTokensEmitted + 1 := by
  unfold recordToken
  dsimp only
  split <;> rfl

@[simp] theorem outputTimes_recordToken :
    record.recordToken.outputTimes = record.outputTimes + 1 := by
  unfold recordToken
  dsimp only
  split <;> rfl

@[simp] theorem reprocessedPrefills_recordToken :
    record.recordToken.reprocessedPrefills = record.reprocessedPrefills := by
  unfold recordToken
  dsimp only
  split <;> rfl

@[simp] theorem definition_recordRetraction :
    record.recordRetraction.definition = record.definition := rfl

variable {record} {record' : RequestRecord}

theorem Fresh.stage (h : record.Fresh) : record.stage = none := by
  rw [h]
  rfl

theorem Fresh.outputTokensEmitted (h : record.Fresh) : record.outputTokensEmitted = 0 := by
  rw [h]
  rfl

theorem recordPrefixCacheHitTokens_spec {hit : Nat}
    (h : record.recordPrefixCacheHitTokens hit = .ok record') :
    record' = { record with prefixCacheHitTokens := some hit } := by
  simp only [recordPrefixCacheHitTokens, bind_eq_ok_iff] at h
  obtain ⟨-, -, -, -, h⟩ := h
  exact (Except.ok.inj h).symm

theorem beginReprocessedPrefill_spec {hit : Nat}
    (h : record.beginReprocessedPrefill hit = .ok record') :
    record' = { record with
      reprocessedPrefills := record.reprocessedPrefills ++
        [⟨record.outputTokensEmitted, hit, 0, false⟩] } := by
  simp only [beginReprocessedPrefill, bind_eq_ok_iff] at h
  obtain ⟨-, -, h⟩ := h
  exact (Except.ok.inj h).symm

theorem updateEpisode_spec {missing closed : String}
    {f : ReprocessedPrefillEpisode → ReprocessedPrefillEpisode}
    (h : record.updateEpisode missing closed f = .ok record') :
    ∃ episode, record.reprocessedPrefills.getLast? = some episode ∧ episode.completed = false ∧
      record' = { record with
        reprocessedPrefills := record.reprocessedPrefills.dropLast ++ [f episode] } := by
  unfold updateEpisode at h
  split at h
  · cases h
  · next episode hlast =>
    simp only [bind_eq_ok_iff] at h
    obtain ⟨_, hopen, h⟩ := h
    exact ⟨episode, hlast, ensure_eq_ok_iff.mp hopen, (Except.ok.inj h).symm⟩

end RequestRecord

end ServingSim
