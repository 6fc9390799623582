import ServingSim.Common.Ensure

/-
  Admission settings (`worker::config`) and partition placement
  (`admission::placement`).

  A `BoundedFutureKvAdmissionConfig` carries what `KvAdmissionSpec::resolve` checked
  when it built it. Ratios are exact rationals.
-/

namespace ServingSim

/-- Batch composition of the chunked-prefill worker. -/
inductive BatchPolicy where
  | mix
  | separatePrefillPriority
  deriving DecidableEq, Repr

inductive DecodeRetractionPolicy where
  /-- Fewest emitted tokens first, requeued behind waiting requests. -/
  | length
  /-- The most recently admitted request first, requeued ahead of every waiting
  request. -/
  | fcfs
  deriving DecidableEq, Repr

structure BoundedFutureKvAdmissionConfig where
  pageSize : Nat
  maxFutureTokens : Nat
  initialNewTokenRatio : ℚ
  minimumNewTokenRatio : ℚ
  newTokenRatioDecaySteps : Nat
  retractDecodeSteps : Nat
  retractionPolicy : DecodeRetractionPolicy
  pageSize_one : pageSize = 1
  maxFuture_pos : maxFutureTokens > 0
  initial_mem : 0 ≤ initialNewTokenRatio ∧ initialNewTokenRatio ≤ 1
  minimum_mem : 0 ≤ minimumNewTokenRatio ∧ minimumNewTokenRatio ≤ initialNewTokenRatio
  decaySteps_pos : newTokenRatioDecaySteps > 0
  retractSteps_pos : retractDecodeSteps > 0

inductive KvAdmissionConfig where
  | fullFootprint
  | boundedFuture (config : BoundedFutureKvAdmissionConfig)

/-- A knob bounded-future admission cannot do without. -/
def required {α : Type} (knob : Option α) (message : String) : Except String α :=
  match knob with
  | some value => .ok value
  | none => .error message

@[simp] theorem required_eq_ok_iff {α : Type} {knob : Option α} {message : String} {a : α} :
    required knob message = .ok a ↔ knob = some a := by
  cases knob <;> simp [required]

/-! ## Placement -/

inductive LoadBalance where
  | single
  | roundRobin (next : Nat)
  | leastLoaded (next : Nat)
  deriving DecidableEq, Repr

/-- One partition's load. -/
structure PartitionLoad where
  waiting : Nat
  running : Nat
  /-- Fraction of the partition's KV capacity in use. -/
  kvUsage : ℚ

/-- Waiting and running requests, the waiting ones penalised as the KV fills. -/
def PartitionLoad.vllmScore (load : PartitionLoad) : ℚ :=
  (load.waiting : ℚ) + load.running +
    if load.waiting > 0 then (load.waiting : ℚ) * 6 * max (load.kvUsage - 1 / 2) 0 else 0

namespace LoadBalance

variable {n : Nat}

/-- The partition `offset` places after `start`, around. -/
def partitionAt (hn : 0 < n) (start offset : Nat) : Fin n :=
  ⟨(start + offset) % n, Nat.mod_lt _ hn⟩

def choose (hn : 0 < n) : LoadBalance → Except String (LoadBalance × Fin n)
  | single => .ok (single, ⟨0, hn⟩)
  | roundRobin next => .ok (roundRobin ((next + 1) % n), partitionAt hn next 0)
  | leastLoaded _ => .error "LeastLoaded placement needs partition loads; use choose_by_load"

def needsLoad : LoadBalance → Bool
  | leastLoaded _ => true
  | _ => false

/-- Scan the partitions from `next` on; the first lowest score wins. -/
def chooseByLoad (hn : 0 < n) (loads : Fin n → PartitionLoad) :
    LoadBalance → Except String (LoadBalance × Fin n)
  | leastLoaded next =>
    let start := next % n
    let scan := (List.range n).foldl
      (fun (best : Option ℚ × Fin n) offset =>
        let partition := partitionAt hn start offset
        let score := (loads partition).vllmScore
        if best.1.all fun bestScore => decide (score < bestScore) then (some score, partition)
        else best)
      (none, partitionAt hn start 0)
    .ok (leastLoaded ((start + 1) % n), scan.2)
  | balance => balance.choose hn

end LoadBalance

end ServingSim
