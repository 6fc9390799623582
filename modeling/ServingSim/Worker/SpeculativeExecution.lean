import ServingSim.Admission.ChunkedPrefill

/-
  What an iteration of a speculating worker submits to the model
  (`execution::speculative_iter_execution`).

  The input differs from an ordinary one in its decode rows: a resident decode submits
  a window of query rows (`verifyQueryLen`), so each row says how many there are and
  which context the last of them sees. The model checks every row it is given
  (`check_verify_row`): a full window may end anywhere within the model's length, a
  clipped one only at its last position.

  A request without a declared acceptance cannot reach a speculating worker.
-/

namespace ServingSim

/-- The rows of one verify: how many there are, and the context the last one sees. -/
structure SpeculativeDecodeInput where
  kvLen : Nat
  queryLen : Nat
  deriving DecidableEq, Repr

/-- Check a row against the width and the model's length; whether it is clipped. -/
def SpeculativeDecodeInput.checkVerifyRow (row : SpeculativeDecodeInput)
    (draftTokens maxModelLen : Nat) : Except String Bool := do
  let width := draftTokens + 1
  ensure (1 ≤ row.queryLen ∧ row.queryLen ≤ width)
    s!"query_len {row.queryLen} must be in 1..={width} (draft_tokens + 1)"
  ensure (row.queryLen ≤ row.kvLen ∧ row.kvLen ≤ maxModelLen)
    s!"kv_len {row.kvLen} must be in {row.queryLen}..={maxModelLen}"
  ensure (row.queryLen < width → row.kvLen + 1 = maxModelLen)
    (s!"a clipped verify row ({row.queryLen} of {width} queries) must end at " ++
      s!"max_model_len - 1 ({maxModelLen - 1}), not kv_len {row.kvLen}")
  return decide (row.queryLen < width)

/-- The verify row of a resident decode with `currentKv` keys. -/
def verifyRow (draftTokens maxModelLen : Nat) (request : RequestId) (currentKv : Nat)
    (record : RequestRecord) : Except String SpeculativeDecodeInput := do
  ensure (record.remainingOutputTokens > 0)
    s!"completed request {request} remained in speculative decode membership"
  let queryLen := verifyQueryLen currentKv draftTokens maxModelLen
  ensure (queryLen > 0)
    (s!"speculative request {request} has no room below max_model_len {maxModelLen} " ++
      s!"for its pending token: resident_kv={currentKv}")
  return ⟨currentKv + queryLen, queryLen⟩

structure SpeculativeArchGroupInput where
  batchTokens : Nat
  prefillTokens : Nat
  decodeTokens : Nat
  prefillChunkPairs : List (Nat × Nat)
  decodeRequests : List SpeculativeDecodeInput
  totalKvLen : Nat
  deriving DecidableEq, Repr

structure SpeculativeArchInput where
  draftTokens : Nat
  groups : List SpeculativeArchGroupInput
  tokensPerSourceRank : List Nat
  deriving DecidableEq, Repr

namespace ChunkedPrefillWorker

variable {P : Type} {acc : KvAccounting} {n : Nat}

def speculativeGroup (w : ChunkedPrefillWorker P acc n) (draftTokens maxModelLen : Nat)
    (p : Fin n) : Except String SpeculativeArchGroupInput := do
  let prefillChunkPairs ← (w.store.partitions p).prefillAdmits.mapM fun request => do
    let resolvedPrefill ← w.resolvedPrefillContext request
    return resolvedPrefill.activeChunk
  let members := if w.batchPlan p then (w.store.partitions p).decodeMembers else []
  let decodeRequests ← members.mapM fun e =>
    verifyRow draftTokens maxModelLen e.1 e.2 (w.requests e.1)
  let prefillTokens := (prefillChunkPairs.map Prod.snd).sum
  -- query rows, not requests
  let decodeTokens := (decodeRequests.map fun row => row.queryLen).sum
  return {
    batchTokens := prefillTokens + decodeTokens
    prefillTokens := prefillTokens
    decodeTokens := decodeTokens
    prefillChunkPairs := prefillChunkPairs
    decodeRequests := decodeRequests
    totalKvLen := (members.map Prod.snd).sum }

def speculativeInput (w : ChunkedPrefillWorker P acc n) (draftTokens maxModelLen : Nat) :
    Except String SpeculativeArchInput := do
  let groups ← (List.finRange n).mapM (w.speculativeGroup draftTokens maxModelLen)
  return {
    draftTokens := draftTokens
    groups := groups
    tokensPerSourceRank := if n > 1 then groups.map fun group => group.batchTokens else [] }

end ChunkedPrefillWorker

/-! ## The rows -/

section rows

variable {draftTokens maxModelLen currentKv : Nat} {request : RequestId} {record : RequestRecord}
  {row : SpeculativeDecodeInput}

theorem verifyRow_eq_ok_iff : verifyRow draftTokens maxModelLen request currentKv record = .ok row ↔
      0 < record.remainingOutputTokens ∧ currentKv + 1 < maxModelLen ∧
        row = ⟨currentKv + verifyQueryLen currentKv draftTokens maxModelLen,
          verifyQueryLen currentKv draftTokens maxModelLen⟩ := by
  have hroom : verifyQueryLen currentKv draftTokens maxModelLen > 0 ↔
      currentKv + 1 < maxModelLen := by
    unfold verifyQueryLen
    omega
  simp only [verifyRow, check_then_eq_ok_iff, ensure_eq_ok_iff]
  rw [hroom, eq_comm (a := row)]
  exact and_congr_right fun _ => and_congr_right fun _ => (Except.ok.injEq _ _).to_iff

theorem verifyRow_passes
    (h : verifyRow draftTokens maxModelLen request currentKv record = .ok row) :
    row.checkVerifyRow draftTokens maxModelLen = .ok (decide (row.queryLen < draftTokens + 1)) := by
  obtain ⟨-, hroom, rfl⟩ := verifyRow_eq_ok_iff.mp h
  have hwidth : verifyQueryLen currentKv draftTokens maxModelLen =
    min (draftTokens + 1) (maxModelLen - (currentKv + 1)) := rfl
  -- a window is clipped where the model's length ends
  simp only [SpeculativeDecodeInput.checkVerifyRow, check_then_eq_ok_iff, ensure_eq_ok_iff]
  exact ⟨by omega, by omega, by omega, rfl⟩

variable {P : Type} {acc : KvAccounting} {n : Nat} {w : ChunkedPrefillWorker P acc n}

theorem speculativeGroup_rows {p : Fin n} {group : SpeculativeArchGroupInput}
    (h : w.speculativeGroup draftTokens maxModelLen p = .ok group) :
    ∀ row ∈ group.decodeRequests, row.checkVerifyRow draftTokens maxModelLen =
      .ok (decide (row.queryLen < draftTokens + 1)) := by
  simp only [ChunkedPrefillWorker.speculativeGroup, bind_eq_ok_iff] at h
  obtain ⟨chunks, -, rows, hrows, h⟩ := h
  obtain rfl := Except.ok.inj h
  intro row hrow
  obtain ⟨member, -, hbuilt⟩ := exists_mem_of_mapM hrows hrow
  exact verifyRow_passes hbuilt

theorem speculativeInput_rows {input : SpeculativeArchInput}
    (h : w.speculativeInput draftTokens maxModelLen = .ok input) :
    ∀ group ∈ input.groups, ∀ row ∈ group.decodeRequests,
      row.checkVerifyRow draftTokens maxModelLen =
        .ok (decide (row.queryLen < draftTokens + 1)) := by
  simp only [ChunkedPrefillWorker.speculativeInput, bind_eq_ok_iff] at h
  obtain ⟨groups, hgroups, h⟩ := h
  obtain rfl := Except.ok.inj h
  intro group hgroup
  obtain ⟨p, -, hbuilt⟩ := exists_mem_of_mapM hgroups hgroup
  exact speculativeGroup_rows hbuilt

end rows

end ServingSim
