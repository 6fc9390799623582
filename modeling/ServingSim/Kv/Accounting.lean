import Mathlib.Algebra.Order.Floor.Div
import ServingSim.Kv.Layout
import ServingSim.Kv.ResumePositions

/-
  KV charges of one request, resolved from a layout (`kv_accounting`).

  The store asks this module what a request holds while it runs, what it needs
  free to be admitted, and what a retained prefix keeps, all in units of the
  greatest common divisor of the parts' entry bytes. A `KvAccounting` is a
  layout `validate` accepted, the options it was resolved under and the
  capacity of one partition; the numbers the source stores at `resolve` (the
  per-part charges, the block, the linear rate) are here the functions of
  layout and options that `resolve` evaluates.

  The counts are natural numbers: the source's `u64` products stay far below
  2^64 for any context a `u32` counts. `tokens_fitting`, which tries longer ones,
  is in `TokensFitting`, with its overflows.
-/

namespace ServingSim

inductive KvOverhead where
  | vllm
  | none
  deriving DecidableEq, Repr

inductive PrefixResumePoints where
  | promptEnd
  | responseEnd
  | promptAndResponseEnd
  | everyBlock
  deriving DecidableEq, Repr

structure KvAccountingOptions where
  overhead : KvOverhead := .vllm
  resumePoints : Option PrefixResumePoints := none
  resumeInterval : Option Nat := none
  maxInFlightTokens : Option Nat := none
  prefixCaching : Bool := false
  deriving DecidableEq, Repr

structure PerTokenCharge where
  unitsPerEntry : Nat
  tokensPerEntry : Nat
  deriving DecidableEq, Repr

structure WindowCharge where
  unitsPerToken : Nat
  windowTokens : Nat
  prefixReusable : Bool
  deriving DecidableEq, Repr

/-- Bytes one entry of `part` is charged: the engine's padded entry under
`vllm`, the model's own under `none`. -/
def chargedBytesPerEntry (part : KvCachePart) : KvOverhead → Nat
  | .vllm => part.overhead.paddedBytesPerEntry.getD part.bytesPerEntry
  | .none => part.bytesPerEntry

/-- Copies of a per-request `part` a running request holds, and whether the
engine's concurrency estimate adds one more. -/
def stateCopies (part : KvCachePart) (layout : KvCacheLayout) (options : KvAccountingOptions) :
    Nat × Bool :=
  match options.overhead with
  | .none => (1, false)
  | .vllm => (part.overhead.copies.getD 1,
      options.prefixCaching && part.prefixReusable && layout.engine.blockTokens.isSome)

/-- Bytes of one charging unit. -/
def resolvedBytesPerUnit (layout : KvCacheLayout) (overhead : KvOverhead) : Nat :=
  (layout.parts.map fun part => chargedBytesPerEntry part overhead).foldl Nat.gcd 0

/-- Allocation and resume granularity; 1 when blocks are not modeled. -/
def resolvedBlockTokens (layout : KvCacheLayout) : KvOverhead → Nat
  | .vllm => layout.engine.blockTokens.getD 1
  | .none => 1

/-- The spacing check of `resolve`. -/
def ResumeIntervalFits (layout : KvCacheLayout) (options : KvAccountingOptions) : Prop :=
  ∀ interval ∈ options.resumeInterval,
    interval > 0 ∧ interval % resolvedBlockTokens layout options.overhead = 0

instance (layout : KvCacheLayout) (options : KvAccountingOptions) :
    Decidable (ResumeIntervalFits layout options) :=
  inferInstanceAs (Decidable (∀ interval ∈ options.resumeInterval, _ ∧ _))

/-- Resolved charges of one KV partition. -/
structure KvAccounting where
  layout : KvCacheLayout
  options : KvAccountingOptions
  capacityUnits : Nat
  layout_wellFormed : layout.WellFormed
  interval_fits : ResumeIntervalFits layout options
  capacity_pos : 0 < capacityUnits

namespace KvAccounting

/-- Resolve `layout` against a partition budget of `budgetBytes`. -/
def resolve (layout : KvCacheLayout) (options : KvAccountingOptions) (budgetBytes : Nat) :
    Except String KvAccounting :=
  match hv : layout.validate with
  | .error e => .error e
  | .ok () =>
    let fixedBytes :=
      if options.overhead = .vllm then layout.engine.fixedDeviceBytes else 0
    if hi : ResumeIntervalFits layout options then
      .ok
        { layout := layout
          options := options
          capacityUnits :=
            max ((budgetBytes - fixedBytes) / resolvedBytesPerUnit layout options.overhead) 1
          layout_wellFormed := (KvCacheLayout.validate_ok_iff layout).mp hv
          interval_fits := hi
          capacity_pos := Nat.lt_of_lt_of_le Nat.one_pos (le_max_right _ _) }
    else
      .error ("prefix_resume_interval " ++ toString (options.resumeInterval.getD 0) ++
        " must be a positive multiple of the engine block (" ++
        toString (resolvedBlockTokens layout options.overhead) ++ " tokens)")

/-! ## Resolved numbers -/

def overhead (acc : KvAccounting) : KvOverhead := acc.options.overhead

def bytesPerUnit (acc : KvAccounting) : Nat := resolvedBytesPerUnit acc.layout acc.overhead

/-- Units one entry of `part` is charged. -/
def unitsPerEntry (acc : KvAccounting) (part : KvCachePart) : Nat :=
  chargedBytesPerEntry part acc.overhead / acc.bytesPerUnit

def perTokenCharge (acc : KvAccounting) (part : KvCachePart) : Option PerTokenCharge :=
  match part.growth with
  | .perToken tokensPerEntry => some ⟨acc.unitsPerEntry part, tokensPerEntry⟩
  | _ => none

def perToken (acc : KvAccounting) : List PerTokenCharge :=
  acc.layout.parts.filterMap acc.perTokenCharge

def windowCharge (acc : KvAccounting) (part : KvCachePart) : Option WindowCharge :=
  match part.growth with
  | .slidingWindow windowTokens =>
    some ⟨acc.unitsPerEntry part, windowTokens, part.prefixReusable⟩
  | _ => none

def windows (acc : KvAccounting) : List WindowCharge :=
  acc.layout.parts.filterMap acc.windowCharge

/-- The per-request parts. -/
def statefulParts (acc : KvAccounting) : List KvCachePart :=
  acc.layout.parts.filter fun part => part.growth = .perRequest

/-- All per-request state, with the copies a running request holds. -/
def stateUnits (acc : KvAccounting) : Nat :=
  (acc.statefulParts.map fun part =>
    acc.unitsPerEntry part * (stateCopies part acc.layout acc.options).1).sum

/-- The copies the engine's concurrency estimate adds on top. -/
def alignEstimateUnits (acc : KvAccounting) : Nat :=
  (acc.statefulParts.map fun part =>
    acc.unitsPerEntry part * (stateCopies part acc.layout acc.options).2.toNat).sum

/-- One copy of the per-request state a later request can resume from. -/
def reusableStateUnits (acc : KvAccounting) : Nat :=
  ((acc.statefulParts.filter fun part => part.prefixReusable).map acc.unitsPerEntry).sum

def blockTokens (acc : KvAccounting) : Nat := resolvedBlockTokens acc.layout acc.overhead

/-- `some` units per token when every charge is linear in context. -/
def linearUnitsPerToken (acc : KvAccounting) : Option Nat :=
  if acc.windows.isEmpty ∧ acc.blockTokens = 1 ∧ ∀ part ∈ acc.perToken, part.tokensPerEntry = 1 then
    some (acc.perToken.map fun part => part.unitsPerEntry).sum
  else none

def resumePoints (acc : KvAccounting) : PrefixResumePoints :=
  acc.options.resumePoints.getD <|
    match acc.overhead with
    | .vllm => .promptEnd
    | .none => .responseEnd

/-! ## What a running request holds -/

def perTokenUnits (acc : KvAccounting) (len : Nat) : Nat :=
  if len = 0 then 0
  else
    let allocated := (len ⌈/⌉ acc.blockTokens) * acc.blockTokens
    (acc.perToken.map fun part => part.unitsPerEntry * (allocated ⌈/⌉ part.tokensPerEntry)).sum

def windowUnits (acc : KvAccounting) (len : Nat) (kept : Nat → Nat) : Nat :=
  (acc.windows.map fun part => part.unitsPerToken * min len (kept part.windowTokens)).sum

/-- Units a request with `len` context tokens holds while a step processes
`stepTokens` of them. -/
def heldWhileRunning (acc : KvAccounting) (len stepTokens : Nat) : Nat :=
  match acc.linearUnitsPerToken with
  | some unitsPerToken => len * unitsPerToken + acc.stateUnits
  | none =>
    let window :=
      match acc.overhead with
      | .vllm => acc.windowUnits len fun w => w - 1 + max stepTokens 1
      | .none => acc.windowUnits len fun w => w
    acc.perTokenUnits len + window + acc.stateUnits

/-- Units a waiting request with a `promptTokens` prompt needs free before it
starts. -/
def neededToAdmit (acc : KvAccounting) (promptTokens : Nat) : Nat :=
  match acc.linearUnitsPerToken with
  | some unitsPerToken => promptTokens * unitsPerToken + acc.stateUnits
  | none =>
    let window :=
      match acc.overhead with
      | .vllm =>
        let inFlight := acc.options.maxInFlightTokens.getD promptTokens
        acc.windowUnits promptTokens fun w => w - 1 + inFlight
      | .none => acc.windowUnits promptTokens fun w => w
    acc.perTokenUnits promptTokens + window + acc.stateUnits

/-- What admission reserves for a request reaching `contextTokens` after prefill
and `futureTokens` more by the end of the reservation. -/
def footprint (acc : KvAccounting) (contextTokens futureTokens : Nat) : Nat :=
  max (acc.heldWhileRunning (contextTokens + futureTokens) 1) (acc.neededToAdmit contextTokens)

/-- Units `tokens` more decode tokens add to a request at `len`. -/
def growthOver (acc : KvAccounting) (len tokens : Nat) : Nat :=
  match acc.linearUnitsPerToken with
  | some unitsPerToken => tokens * unitsPerToken
  | none => acc.heldWhileRunning (len + tokens) 1 - acc.heldWhileRunning len 1

/-- One halving of the search in `tokens_fitting` and `largestFitting`: `fuel`
rounds shrink `[low, high]` around the greatest length that still fits. -/
def searchFitting (fits : Nat → Bool) : Nat → Nat → Nat → Nat
  | 0, low, _ => low
  | fuel + 1, low, high =>
    if low < high then
      let mid := low + (high - low) ⌈/⌉ 2
      if fits mid then searchFitting fits fuel mid high
      else searchFitting fits fuel low (mid - 1)
    else low

/-! ## What a retained prefix keeps -/

/-- Some reusable part does not grow per token. -/
def sparse (acc : KvAccounting) : Bool :=
  acc.reusableStateUnits > 0 || acc.windows.any fun part => part.prefixReusable

/-- Whether a running request keeps soft checkpoints. -/
def keepsCheckpoints (acc : KvAccounting) : Bool := acc.sparse

/-- Positions a request with a `promptTokens` prompt that finished at
`contextTokens` can be resumed from. -/
def resumePositions (acc : KvAccounting) (promptTokens contextTokens : Nat) : ResumePositions :=
  let block := acc.blockTokens
  let floor := fun tokens => tokens / block * block
  if !acc.sparse then ResumePositions.everyUpTo block (floor contextTokens)
  else
    -- the engine recomputes a resend's last prompt token
    let promptEnd := floor <|
      match acc.overhead with
      | .vllm => promptTokens - 1
      | .none => promptTokens
    let responseEnd := floor contextTokens
    match acc.resumePoints with
    | .promptEnd =>
      .ofExplicit (some promptEnd, none) acc.options.resumeInterval contextTokens
    | .responseEnd =>
      .ofExplicit (some responseEnd, none) acc.options.resumeInterval contextTokens
    | .promptAndResponseEnd =>
      .ofExplicit (some promptEnd, some responseEnd) acc.options.resumeInterval contextTokens
    | .everyBlock => .ofExplicit (none, none) (some block) contextTokens

/-- Units a retained entry occupies. -/
def entryCharge (acc : KvAccounting) (positions : ResumePositions) : Nat :=
  let units := acc.perTokenUnits positions.lastPosition
  if !acc.sparse then units
  else
    units + ((acc.windows.filter fun part => part.prefixReusable).map fun part =>
        part.unitsPerToken * positions.windowTailUnion (part.windowTokens - 1)).sum +
      acc.reusableStateUnits * positions.count

/-- Soft units a running request at `len` already keeps for its future entry. -/
def checkpointUnits (acc : KvAccounting) (promptTokens len : Nat) : Nat :=
  if !acc.sparse || len = 0 then 0
  else
    let passed := (acc.resumePositions promptTokens len).truncated (len - 1)
    acc.entryCharge passed - acc.perTokenUnits passed.lastPosition

/-- The longest prefix of `positions` whose entry fits `capacityUnits`. -/
def largestFitting (acc : KvAccounting) (positions : ResumePositions) (capacityUnits : Nat) :
    ResumePositions :=
  let cutAt := fun len => positions.truncated (positions.floor len)
  if acc.entryCharge positions ≤ capacityUnits then positions
  else
    cutAt (searchFitting (fun mid => acc.entryCharge (cutAt mid) ≤ capacityUnits)
      positions.lastPosition 0 positions.lastPosition)

/-! ## Well-formed numbers -/

theorem blockTokens_pos (acc : KvAccounting) : 0 < acc.blockTokens := by
  unfold blockTokens resolvedBlockTokens
  cases acc.overhead with
  | none => exact Nat.one_pos
  | vllm =>
    have h := acc.layout_wellFormed.block_ne
    cases hb : acc.layout.engine.blockTokens with
    | none => exact Nat.one_pos
    | some b =>
      rw [hb, ne_eq, Option.some.injEq] at h
      exact Nat.pos_of_ne_zero h

theorem tokensPerEntry_pos (acc : KvAccounting) {part : PerTokenCharge}
    (h : part ∈ acc.perToken) : 0 < part.tokensPerEntry := by
  obtain ⟨p, hp, he⟩ := List.mem_filterMap.mp h
  unfold perTokenCharge at he
  split at he
  · rename_i t hg
    cases he
    exact (acc.layout_wellFormed.parts_wellFormed p hp).tokens_pos t hg
  · cases he

/-! ## Running charges grow with the context -/

theorem perTokenUnits_mono (acc : KvAccounting) : Monotone acc.perTokenUnits := by
  intro a b hab
  by_cases ha : a = 0
  · simp [perTokenUnits, ha]
  · have hb : b ≠ 0 := by omega
    simp only [perTokenUnits, ha, hb, if_false]
    refine List.sum_le_sum fun part hpart => Nat.mul_le_mul_left _ ?_
    refine (gc_mul_ceilDiv (acc.tokensPerEntry_pos hpart)).monotone_l ?_
    exact Nat.mul_le_mul_right _ ((gc_mul_ceilDiv acc.blockTokens_pos).monotone_l hab)

theorem windowUnits_mono (acc : KvAccounting) (kept : Nat → Nat) :
    Monotone fun len => acc.windowUnits len kept := by
  intro a b hab
  exact List.sum_le_sum fun part _ =>
    Nat.mul_le_mul_left _ (min_le_min_right _ hab)

theorem held_mono (acc : KvAccounting) (stepTokens : Nat) :
    Monotone fun len => acc.heldWhileRunning len stepTokens := by
  intro a b hab
  have hp := acc.perTokenUnits_mono hab
  simp only [heldWhileRunning]
  split
  · exact Nat.add_le_add_right (Nat.mul_le_mul_right _ hab) _
  · refine Nat.add_le_add_right (Nat.add_le_add hp ?_) _
    split
    · exact acc.windowUnits_mono _ hab
    · exact acc.windowUnits_mono _ hab

/-- `growthOver` is exactly what the extra tokens add to the running charge. -/
theorem held_add_growth (acc : KvAccounting) (len tokens : Nat) :
    acc.heldWhileRunning len 1 + acc.growthOver len tokens =
      acc.heldWhileRunning (len + tokens) 1 := by
  have hmono := acc.held_mono 1 (Nat.le_add_right len tokens)
  unfold growthOver
  split
  · rename_i u hu
    simp only [heldWhileRunning, hu]
    rw [Nat.add_mul]
    omega
  · exact Nat.add_sub_of_le hmono

theorem held_le_footprint (acc : KvAccounting) {contextTokens futureTokens len : Nat}
    (h : len ≤ contextTokens + futureTokens) :
    acc.heldWhileRunning len 1 ≤ acc.footprint contextTokens futureTokens :=
  (acc.held_mono 1 h).trans (le_max_left _ _)

/-! ## Retained prefixes -/

@[simp] theorem perTokenUnits_zero (acc : KvAccounting) : acc.perTokenUnits 0 = 0 := by
  simp [perTokenUnits]

theorem searchFitting_fits (fits : Nat → Bool) (fuel low high : Nat) :
    searchFitting fits fuel low high = low ∨ fits (searchFitting fits fuel low high) = true := by
  induction fuel generalizing low high with
  | zero => exact .inl rfl
  | succ fuel ih =>
    simp only [searchFitting]
    split
    · split
      · rename_i hfit
        rcases ih (low + (high - low) ⌈/⌉ 2) high with h | h
        · exact .inr (by rwa [h])
        · exact .inr h
      · exact ih low _
    · exact .inl rfl

theorem entryCharge_largestFitting_le (acc : KvAccounting) (positions : ResumePositions)
    (capacityUnits : Nat) (h : (acc.largestFitting positions capacityUnits).lastPosition ≠ 0) :
    acc.entryCharge (acc.largestFitting positions capacityUnits) ≤ capacityUnits := by
  unfold largestFitting at h ⊢
  split
  · assumption
  · rename_i hbig
    simp only [hbig, if_false] at h
    rcases searchFitting_fits (fun mid =>
      decide (acc.entryCharge (positions.truncated (positions.floor mid)) ≤ capacityUnits))
      positions.lastPosition 0 positions.lastPosition with hlow | hfit
    · rw [hlow] at h
      simp at h
    · simpa using hfit

/-! ## Plain tokens -/

/-- One per-token part of one byte. -/
def tokenLayout : KvCacheLayout where
  parts := [KvCachePart.perToken "kv" 1]

theorem tokenLayout_wellFormed : tokenLayout.WellFormed :=
  (KvCacheLayout.validate_ok_iff _).mp rfl

/-- Plain token accounting: one unit per token, `capacityTokens` of them. -/
def tokensForTest (capacityTokens : Nat) (h : 0 < capacityTokens) : KvAccounting where
  layout := tokenLayout
  options := {}
  capacityUnits := capacityTokens
  layout_wellFormed := tokenLayout_wellFormed
  interval_fits := by simp [ResumeIntervalFits]
  capacity_pos := h

end KvAccounting

end ServingSim
