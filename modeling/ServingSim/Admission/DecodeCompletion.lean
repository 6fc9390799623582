import ServingSim.Common.RequestRecord
import ServingSim.Kv.IssuedStore

/-
  How many tokens one resident decode retires per iteration
  (`admission::decode_completion`).

  An ordinary engine retires one token per live decode and advances the whole
  partition once. A speculating engine verifies a window of `draftTokens + 1`
  rows, clipped at the context limit, and retires the target's token plus the
  leading run of accepted drafts; decodes that retired the same number advance
  together.

  Whether a draft is accepted is a seeded draw against the request's acceptance
  rate, a comparison of floating-point numbers; it is the parameter `accepts`,
  a function of the request, its emitted tokens and the draft's position as in
  the source. A request without a declared acceptance cannot reach a speculating
  worker.
-/

namespace ServingSim

/-- The requests' records by id. -/
abbrev Requests := RequestId → RequestRecord

inductive DecodeCompletion where
  | singleToken
  | speculative (draftTokens maxModelLen : Nat) (accepts : RequestId → Nat → Nat → Bool)
      (draft_pos : draftTokens > 0)

/-- Rows a verify of a request with `residentKv` keys submits. -/
def verifyQueryLen (residentKv draftTokens maxModelLen : Nat) : Nat :=
  min (draftTokens + 1) (maxModelLen - (residentKv + 1))

/-- Length of the leading run of accepted positions among the next `left`. -/
def leadingRun (accepted : Nat → Bool) (position : Nat) : Nat → Nat
  | 0 => 0
  | left + 1 => if accepted position then leadingRun accepted (position + 1) left + 1 else 0

/-- Tokens a verify retires. -/
def acceptedLength (accepted : Nat → Bool) (draftTokens remainingOutputTokens queryRows : Nat) :
    Nat :=
  min (min (1 + leadingRun accepted 0 draftTokens) remainingOutputTokens) queryRows

theorem leadingRun_le (accepted : Nat → Bool) (position left : Nat) :
    leadingRun accepted position left ≤ left := by
  induction left generalizing position with
  | zero => exact Nat.le_refl _
  | succ left ih =>
    unfold leadingRun
    split
    · exact Nat.succ_le_succ (ih _)
    · exact Nat.zero_le _

namespace DecodeCompletion

/-- Query rows reserved per resident decode. -/
def queryTokensPerRequest : DecodeCompletion → Nat
  | singleToken => 1
  | speculative draftTokens _ _ _ => draftTokens + 1

/-- Query rows a decode with `residentKv` keys submits. -/
def queryTokensAt (residentKv : Nat) : DecodeCompletion → Nat
  | singleToken => 1
  | speculative draftTokens maxModelLen _ _ => verifyQueryLen residentKv draftTokens maxModelLen

/-- Tokens a live decode retires this iteration. -/
def retiredTokens (request : RequestId) (residentKv : Nat) (record : RequestRecord) :
    DecodeCompletion → Except String Nat
  | singleToken => .ok 1
  | speculative draftTokens maxModelLen accepts _ => do
    ensure (record.remainingOutputTokens > 0)
      s!"completed request {request} remained in speculative decode membership"
    return acceptedLength (accepts request record.outputTokensEmitted) draftTokens
      record.remainingOutputTokens (verifyQueryLen residentKv draftTokens maxModelLen)

/-- Emit `tokens` of a request and stamp it when that finishes it. -/
def retire (requests : Requests) (request : RequestId) (tokens : Nat) : Requests :=
  let record := RequestRecord.recordToken^[tokens] (requests request)
  Function.update requests request
    (if record.isComplete then record.stampStage .done else record)

/-- Records after the members retired their tokens, the requests that finished
and the tokens each member retired. -/
def retireMembers (completion : DecodeCompletion) : List (RequestId × Nat) → Requests →
      Except String (Requests × List RequestId × List (RequestId × Nat))
  | [], requests => .ok (requests, [], [])
  | (request, residentKv) :: members, requests => do
    let tokens ← completion.retiredTokens request residentKv (requests request)
    let retired := retire requests request tokens
    let (final, completed, assigned) ← completion.retireMembers members retired
    return (final,
      if (retired request).isComplete then request :: completed else completed,
      (request, tokens) :: assigned)

/-- The requests that retired `tokens` tokens. -/
def requestBucket (assigned : List (RequestId × Nat)) (tokens : Nat) : List RequestId :=
  (assigned.filter fun e => e.2 = tokens).map Prod.fst

variable {acc : KvAccounting} {n : Nat}

/-- Advance one bucket by its distance, if anything is in it. -/
def advanceBucket (p : Fin n) (assigned : List (RequestId × Nat)) (kv : IssuedStore acc n)
    (tokens : Nat) : IssuedStore acc n :=
  if requestBucket assigned tokens = [] then kv
  else kv.issue (.advance (.requestSubset p (requestBucket assigned tokens)) tokens)

/-- Grow the partition's KV by what its decodes retired. -/
def advanceRetired (completion : DecodeCompletion) (p : Fin n) (assigned : List (RequestId × Nat))
    (kv : IssuedStore acc n) : IssuedStore acc n :=
  match completion with
  | singleToken => kv.issue (.advance (.wholePartition p) 1)
  | speculative draftTokens _ _ _ =>
    (List.range' 1 (draftTokens + 1)).foldl (advanceBucket p assigned) kv

/-- Retire this iteration's tokens on one partition. -/
def completeDecodes (completion : DecodeCompletion) (kv : IssuedStore acc n) (requests : Requests)
    (p : Fin n) : Except String (IssuedStore acc n × Requests × List RequestId) := do
  let (final, completed, assigned) ←
    completion.retireMembers (kv.store.partitions p).decodeMembers requests
  return (completion.advanceRetired p assigned kv, final, completed)

end DecodeCompletion

end ServingSim
