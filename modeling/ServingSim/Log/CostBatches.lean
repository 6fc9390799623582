import ServingSim.Common.Ensure

/-
  How a chunk of the cost log becomes record batches (`log/rows.rs`).

  A chunk keeps the rows' metadata in one list and their groups, slots and slot inputs
  back to back in flat buffers; a row only knows how many entries of each are its own. The
  writer walks the buffers with cursors and cuts a new batch before the row whose slot
  inputs would pass the byte limit. The slot lists grow row by row in builders that are
  reused; the scalar and group columns are cut out of the chunk by index when a batch is
  finished.

  A builder is the list of what was appended to it. A chunk's numbers are only moved, so
  their type is a parameter; so are the texts that serde writes.
-/

namespace ServingSim

namespace CostBatches

/-- Raw speculative request geometry. -/
structure SpeculativeGeometryLog where
  draftTokens : Nat
  maxModelLen : Nat
  decode : List (Nat × Nat)
  deriving DecidableEq, Repr

/-- One group's input context. -/
structure GroupInputLog where
  batchTokens : Nat
  prefillTokens : Nat
  decodeRequestCount : Nat
  decodeKvTotal : Nat
  prefillChunkPairs : List (Nat × Nat)
  decodeQueryRows : Nat
  speculativeGeometry : Option SpeculativeGeometryLog
  decodeKvLens : Option (List Nat)
  deriving DecidableEq, Repr

structure CostLogEntry (Num : Type) where
  workerId : Nat
  iterId : Nat
  batchId : Nat
  wallStartMs : Num
  totalTimeMs : Num
  energyJ : Num
  sectionName : String
  layer : Int
  groupLen : Nat
  slotLen : Nat
  slotInputLen : Nat

/-- A transfer unit: the rows, and what they own back to back. -/
structure CostLogChunk (Num SlotInput : Type) where
  poolTag : String
  entries : List (CostLogEntry Num)
  groupLogs : List GroupInputLog
  slotTimes : List Num
  slotCovs : List Nat
  slotFlops : List Num
  slotBytes : List Num
  slotBackends : List Nat
  slotInputs : List SlotInput

/-- One struct of the `groups` column. -/
structure GroupRow where
  batchTokens : Nat
  prefillTokens : Nat
  decodeRequestCount : Nat
  decodeKvTotal : Nat
  prefillPrefixLens : List Nat
  prefillAppendLens : List Nat
  decodeQueryRows : Nat
  speculativeGeometry : Option String
  decodeKvLens : Option (List Nat)
  deriving DecidableEq, Repr

/-- A batch of the cost log, column by column. -/
structure RecordBatch (Num : Type) where
  poolTag : List String
  workerId : List Nat
  iterId : List Nat
  batchId : List Nat
  wallStartMs : List Num
  totalTimeMs : List Num
  energyJ : List Num
  groups : List (List GroupRow)
  slotTimeMs : List (List Num)
  slotCoverage : List (List Nat)
  slotInput : List (List String)
  sectionName : List String
  layer : List Int
  slotFlops : List (List Num)
  slotBytes : List (List Num)
  slotBackend : List (List Nat)

/-- The texts that serde writes: a slot input's bytes, unless it fails, and a geometry's. -/
structure Serializer (SlotInput : Type) where
  slotInput : SlotInput → Option (List UInt8)
  geometry : SpeculativeGeometryLog → List (Nat × Nat) → String

variable {Num SlotInput : Type}

/-- `l[start..stop]`. -/
def slice {α : Type} (l : List α) (start stop : Nat) : List α := (l.take stop).drop start

/-! ## Columns -/

def groupRow (serde : Serializer SlotInput) (group : GroupInputLog) : GroupRow where
  batchTokens := group.batchTokens
  prefillTokens := group.prefillTokens
  decodeRequestCount := group.decodeRequestCount
  decodeKvTotal := group.decodeKvTotal
  prefillPrefixLens := group.prefillChunkPairs.map Prod.fst
  prefillAppendLens := group.prefillChunkPairs.map Prod.snd
  decodeQueryRows := group.decodeQueryRows
  speculativeGeometry := group.speculativeGeometry.map fun geometry =>
    serde.geometry geometry group.prefillChunkPairs
  decodeKvLens := group.decodeKvLens

/-- One list of groups a row, from `groupCursor` on. -/
def buildGroupsColumn (serde : Serializer SlotInput) (groupLogs : List GroupInputLog) :
    List (CostLogEntry Num) → Nat → List (List GroupRow)
  | [], _ => []
  | entry :: entries, groupCursor =>
    let groupEnd := groupCursor + entry.groupLen
    (slice groupLogs groupCursor groupEnd).map (groupRow serde) ::
      buildGroupsColumn serde groupLogs entries groupEnd

/-- The columns of a batch have one length. -/
def RecordBatch.tryNew (batch : RecordBatch Num) : Except String (RecordBatch Num) := do
  let rows := batch.poolTag.length
  ensure (∀ length ∈ [batch.workerId.length, batch.iterId.length, batch.batchId.length,
      batch.wallStartMs.length, batch.totalTimeMs.length, batch.energyJ.length,
      batch.groups.length, batch.slotTimeMs.length, batch.slotCoverage.length,
      batch.slotInput.length, batch.sectionName.length, batch.layer.length,
      batch.slotFlops.length, batch.slotBytes.length, batch.slotBackend.length], length = rows)
    "all columns in a record batch must have the same length"
  return batch

/-! ## Slot lists -/

/-- The bytes of `null`. -/
def nullBytes : List UInt8 := [110, 117, 108, 108]

/-- A slot input's bytes; what cannot be written is null. -/
def slotBytes (serde : Serializer SlotInput) (slot : SlotInput) : List UInt8 :=
  (serde.slotInput slot).getD nullBytes

def textOf (bytes : List UInt8) : String := (String.fromUTF8? ⟨bytes.toArray⟩).getD "null"

/-- One row's slot inputs as JSON, and where each ends. -/
def rowJson (serde : Serializer SlotInput) (slots : List SlotInput) : List UInt8 × List Nat :=
  slots.foldl (fun written slot =>
    let json := written.1 ++ slotBytes serde slot
    (json, written.2 ++ [json.length])) ([], [])

/-- The texts between consecutive ends. -/
def textsFrom (json : List UInt8) : List Nat → Nat → List String
  | [], _ => []
  | stop :: ends, start => textOf (slice json start stop) :: textsFrom json ends stop

/-- The per-slot columns of the batch being built. -/
structure SlotListBuilders (Num : Type) where
  time : List (List Num) := []
  coverage : List (List Nat) := []
  flops : List (List Num) := []
  bytes : List (List Num) := []
  backend : List (List Nat) := []
  input : List (List String) := []
  slotInputBytes : Nat := 0

def SlotListBuilders.appendRow (lists : SlotListBuilders Num) (chunk : CostLogChunk Num SlotInput)
    (start stop : Nat) (json : List UInt8) (ends : List Nat) : SlotListBuilders Num where
  time := lists.time ++ [slice chunk.slotTimes start stop]
  coverage := lists.coverage ++ [slice chunk.slotCovs start stop]
  flops := lists.flops ++ [slice chunk.slotFlops start stop]
  bytes := lists.bytes ++ [slice chunk.slotBytes start stop]
  backend := lists.backend ++ [slice chunk.slotBackends start stop]
  input := lists.input ++ [textsFrom json ends 0]
  slotInputBytes := lists.slotInputBytes + json.length

/-- The batch of some rows and their groups; the builders start over. -/
def finish (serde : Serializer SlotInput) (chunk : CostLogChunk Num SlotInput)
    (lists : SlotListBuilders Num) (firstRow stopRow firstGroup stopGroup : Nat) :
    Except String (RecordBatch Num × SlotListBuilders Num) := do
  let entries := slice chunk.entries firstRow stopRow
  ensure (firstGroup ≤ stopGroup ∧ stopGroup ≤ chunk.groupLogs.length)
    "range out of bounds of the group logs"
  let batch ← RecordBatch.tryNew
    { poolTag := entries.map fun _ => chunk.poolTag
      workerId := entries.map (·.workerId)
      iterId := entries.map (·.iterId)
      batchId := entries.map (·.batchId)
      wallStartMs := entries.map (·.wallStartMs)
      totalTimeMs := entries.map (·.totalTimeMs)
      energyJ := entries.map (·.energyJ)
      groups := buildGroupsColumn serde (slice chunk.groupLogs firstGroup stopGroup) entries 0
      slotTimeMs := lists.time
      slotCoverage := lists.coverage
      slotInput := lists.input
      sectionName := entries.map (·.sectionName)
      layer := entries.map (·.layer)
      slotFlops := lists.flops
      slotBytes := lists.bytes
      slotBackend := lists.backend }
  return (batch, {})

/-! ## The loop -/

structure Cutting (Num : Type) where
  lists : SlotListBuilders Num := {}
  batches : List (RecordBatch Num) := []
  batchFirstRow : Nat := 0
  batchFirstGroup : Nat := 0
  slotCursor : Nat := 0
  slotInputCursor : Nat := 0
  groupCursor : Nat := 0

/-- The slots up to `stop` are in every buffer. -/
def SlotsWithin (chunk : CostLogChunk Num SlotInput) (stop : Nat) : Prop :=
  stop ≤ chunk.slotTimes.length ∧ stop ≤ chunk.slotCovs.length ∧
    stop ≤ chunk.slotFlops.length ∧ stop ≤ chunk.slotBytes.length ∧
    stop ≤ chunk.slotBackends.length

instance (chunk : CostLogChunk Num SlotInput) (stop : Nat) : Decidable (SlotsWithin chunk stop) :=
  inferInstanceAs (Decidable (_ ∧ _ ∧ _ ∧ _ ∧ _))

/-- Every slot is in a row. -/
def SlotsUsed (chunk : CostLogChunk Num SlotInput) (stop : Nat) : Prop :=
  stop = chunk.slotTimes.length ∧ stop = chunk.slotCovs.length ∧
    stop = chunk.slotFlops.length ∧ stop = chunk.slotBytes.length ∧
    stop = chunk.slotBackends.length

instance (chunk : CostLogChunk Num SlotInput) (stop : Nat) : Decidable (SlotsUsed chunk stop) :=
  inferInstanceAs (Decidable (_ ∧ _ ∧ _ ∧ _ ∧ _))

/-- Close the batch before `row` when the row's bytes no longer fit. -/
def cutBefore (serde : Serializer SlotInput) (chunk : CostLogChunk Num SlotInput)
    (maxSlotInputBytes : Nat) (cutting : Cutting Num) (row bytes : Nat) :
    Except String (Cutting Num) :=
  if row > cutting.batchFirstRow ∧ cutting.lists.slotInputBytes + bytes > maxSlotInputBytes then do
    let (batch, lists) ← finish serde chunk cutting.lists cutting.batchFirstRow row
      cutting.batchFirstGroup cutting.groupCursor
    return { cutting with
      batches := cutting.batches ++ [batch]
      lists := lists
      batchFirstRow := row
      batchFirstGroup := cutting.groupCursor }
  else .ok cutting

def cutRow (serde : Serializer SlotInput) (chunk : CostLogChunk Num SlotInput)
    (maxSlotInputBytes : Nat) (cutting : Cutting Num) (entry : CostLogEntry Num × Nat) :
    Except String (Cutting Num) := do
  let slotEnd := cutting.slotCursor + entry.1.slotLen
  ensure (SlotsWithin chunk slotEnd) "cost_log slot slice exceeds chunk buffer"
  let slotInputEnd := cutting.slotInputCursor + entry.1.slotInputLen
  ensure (slotInputEnd ≤ chunk.slotInputs.length) "cost_log slot_input slice exceeds chunk buffer"
  let written := rowJson serde (slice chunk.slotInputs cutting.slotInputCursor slotInputEnd)
  ensure (written.1.length ≤ maxSlotInputBytes)
    ("cost_log row " ++ toString entry.2 ++ " (iter " ++ toString entry.1.iterId ++ ") has " ++
      toString written.1.length ++ " bytes of slot_input, over the " ++
      toString maxSlotInputBytes ++ " per batch")
  let cut ← cutBefore serde chunk maxSlotInputBytes cutting entry.2 written.1.length
  return { cut with
    lists := cut.lists.appendRow chunk cutting.slotCursor slotEnd written.1 written.2
    slotCursor := slotEnd
    slotInputCursor := slotInputEnd
    groupCursor := cutting.groupCursor + entry.1.groupLen }

/-- A chunk's record batches, none with more slot-input bytes than the limit. -/
def costToRecordBatchesWithin (serde : Serializer SlotInput) (chunk : CostLogChunk Num SlotInput)
    (maxSlotInputBytes : Nat) : Except String (List (RecordBatch Num)) := do
  let cutting ← chunk.entries.zipIdx.foldlM (cutRow serde chunk maxSlotInputBytes) {}
  ensure (cutting.slotInputCursor = chunk.slotInputs.length)
    "cost_log chunk has unused slot_input values"
  ensure (SlotsUsed chunk cutting.slotCursor)
    "cost_log chunk has unused slot time/coverage/flops/bytes/backend values"
  if cutting.batchFirstRow < chunk.entries.length ∨ cutting.batches = [] then
    let (batch, _) ← finish serde chunk cutting.lists cutting.batchFirstRow chunk.entries.length
      cutting.batchFirstGroup cutting.groupCursor
    return cutting.batches ++ [batch]
  else return cutting.batches

end CostBatches

end ServingSim
