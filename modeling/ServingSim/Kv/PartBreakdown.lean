import ServingSim.Kv.LinearPath

/-
  The report's estimate of one request, split over the layout's parts.

  The engine's concurrency estimate charges a request what admission needs free plus
  the copies a recurrent state is aligned with. The report lists the same units part by
  part, and computes each part anew from its growth instead of splitting the total.

  What is proved:
    1. `parts_sum_estimate` — the parts' units sum to the estimate.

  A part's state copies are counted without the bound of their `u32`.
-/

namespace ServingSim

/-- One part's share of the estimate. -/
structure PartInEstimate where
  /-- Context tokens the part holds; none for per-request state. -/
  tokensHeld : Option Nat
  entries : Nat
  units : Nat
  deriving DecidableEq, Repr

namespace KvAccounting

variable (acc : KvAccounting)

/-- Units the engine's concurrency estimate charges a `promptTokens` request. -/
def estimatedRequestUnits (promptTokens : Nat) : Nat :=
  acc.neededToAdmit promptTokens + acc.alignEstimateUnits

def partInEstimate (promptTokens : Nat) (part : KvCachePart) : PartInEstimate :=
  let inFlight := acc.options.maxInFlightTokens.getD promptTokens
  let allocated := (promptTokens ⌈/⌉ acc.blockTokens) * acc.blockTokens
  let unitsPerEntry := chargedBytesPerEntry part acc.overhead / acc.bytesPerUnit
  let held : Option Nat × Nat :=
    match part.growth with
    | .perToken tokensPerEntry =>
      let tokens := if promptTokens = 0 then 0 else allocated
      (some tokens, tokens ⌈/⌉ tokensPerEntry)
    | .slidingWindow windowTokens =>
      let kept :=
        match acc.overhead with
        | .vllm => windowTokens - 1 + inFlight
        | .none => windowTokens
      let tokens := min promptTokens kept
      (some tokens, tokens)
    | .perRequest =>
      let copies := stateCopies part acc.layout acc.options
      (none, copies.1 + copies.2.toNat)
  ⟨held.1, held.2, unitsPerEntry * held.2⟩

/-- The estimate split over the layout's parts, in their order. -/
def estimatedRequestByPart (promptTokens : Nat) : List PartInEstimate :=
  acc.layout.parts.map (acc.partInEstimate promptTokens)

/-! ## A part's shares of the charges -/

/-- A part's units in `perTokenUnits`. -/
def perTokenShare (len : Nat) (part : KvCachePart) : Nat :=
  ((acc.perTokenCharge part).map fun charge =>
    charge.unitsPerEntry *
      (((len ⌈/⌉ acc.blockTokens) * acc.blockTokens) ⌈/⌉ charge.tokensPerEntry)).getD 0

/-- A part's units in `windowUnits`. -/
def windowShare (len : Nat) (kept : Nat → Nat) (part : KvCachePart) : Nat :=
  ((acc.windowCharge part).map fun charge =>
    charge.unitsPerToken * min len (kept charge.windowTokens)).getD 0

/-- A part's units in a charge of the per-request state, by its copies. -/
def stateShare (copies : Nat × Bool → Nat) (part : KvCachePart) : Nat :=
  if part.growth = .perRequest then
    acc.unitsPerEntry part * copies (stateCopies part acc.layout acc.options)
  else 0

/-- How many tokens of a window admission charges. -/
def admittedWindow (promptTokens windowTokens : Nat) : Nat :=
  match acc.overhead with
  | .vllm => windowTokens - 1 + acc.options.maxInFlightTokens.getD promptTokens
  | .none => windowTokens

variable {acc}

theorem sum_charges {α : Type} (l : List KvCachePart) (charge : KvCachePart → Option α)
    (units : α → Nat) :
    ((l.filterMap charge).map units).sum =
      (l.map fun part => ((charge part).map units).getD 0).sum := by
  induction l with
  | nil => rfl
  | cons part l ih =>
    rw [List.filterMap_cons, List.map_cons, List.sum_cons, ← ih]
    cases charge part with
    | none => exact (Nat.zero_add _).symm
    | some _ => rfl

theorem sum_states (l : List KvCachePart) (units : KvCachePart → Nat) :
    ((l.filter fun part => part.growth = .perRequest).map units).sum =
      (l.map fun part => if part.growth = .perRequest then units part else 0).sum := by
  induction l with
  | nil => rfl
  | cons part l ih =>
    by_cases hpart : part.growth = .perRequest
    · rw [List.filter_cons_of_pos (by simpa using hpart), List.map_cons, List.map_cons,
        List.sum_cons, List.sum_cons, ih, if_pos hpart]
    · rw [List.filter_cons_of_neg (by simpa using hpart), List.map_cons, List.sum_cons, ih,
        if_neg hpart, Nat.zero_add]

theorem perTokenUnits_eq (len : Nat) : acc.perTokenUnits len =
      if len = 0 then 0 else (acc.layout.parts.map (acc.perTokenShare len)).sum := by
  rw [perTokenUnits, perToken]
  split
  · rfl
  · exact sum_charges _ _ _

theorem windowUnits_eq (len : Nat) (kept : Nat → Nat) :
    acc.windowUnits len kept = (acc.layout.parts.map (acc.windowShare len kept)).sum :=
  sum_charges _ _ _

theorem stateUnits_eq : acc.stateUnits = (acc.layout.parts.map (acc.stateShare Prod.fst)).sum :=
  sum_states _ _

theorem alignEstimateUnits_eq : acc.alignEstimateUnits =
      (acc.layout.parts.map (acc.stateShare fun copies => copies.2.toNat)).sum :=
  sum_states _ _

theorem neededToAdmit_eq (promptTokens : Nat) :
    acc.neededToAdmit promptTokens = acc.perTokenUnits promptTokens +
      acc.windowUnits promptTokens (acc.admittedWindow promptTokens) + acc.stateUnits := by
  rw [needed_eq_general, neededGeneral]
  have hwindow : acc.admittedWindow promptTokens =
      match acc.overhead with
      | .vllm => fun w => w - 1 + acc.options.maxInFlightTokens.getD promptTokens
      | .none => fun w => w := by
    funext w
    rw [admittedWindow]
    cases acc.overhead <;> rfl
  rw [hwindow]
  cases acc.overhead <;> rfl

theorem units_partInEstimate (promptTokens : Nat) (part : KvCachePart) :
    (acc.partInEstimate promptTokens part).units =
      (if promptTokens = 0 then 0 else acc.perTokenShare promptTokens part) +
        acc.windowShare promptTokens (acc.admittedWindow promptTokens) part +
        acc.stateShare Prod.fst part + acc.stateShare (fun copies => copies.2.toNat) part := by
  simp only [partInEstimate, perTokenShare, perTokenCharge, windowShare, windowCharge, stateShare,
    unitsPerEntry, admittedWindow]
  cases hgrowth : part.growth with
  | perToken tokensPerEntry =>
    by_cases hprompt : promptTokens = 0
    · simp [hprompt]
    · simp [hprompt]
  | slidingWindow windowTokens => simp
  | perRequest => simp [Nat.mul_add]

/-- The parts' units sum to what the estimate charges. -/
theorem parts_sum_estimate (acc : KvAccounting) (promptTokens : Nat) :
    ((acc.estimatedRequestByPart promptTokens).map fun part => part.units).sum =
      acc.estimatedRequestUnits promptTokens := by
  have hperToken : (acc.layout.parts.map fun part =>
      if promptTokens = 0 then 0 else acc.perTokenShare promptTokens part).sum =
        acc.perTokenUnits promptTokens := by
    rw [perTokenUnits_eq]
    split
    · simp
    · rfl
  have hunits : (fun part => (acc.partInEstimate promptTokens part).units) = fun part =>
      (if promptTokens = 0 then 0 else acc.perTokenShare promptTokens part) +
        acc.windowShare promptTokens (acc.admittedWindow promptTokens) part +
        acc.stateShare Prod.fst part + acc.stateShare (fun copies => copies.2.toNat) part :=
    funext (units_partInEstimate promptTokens)
  rw [estimatedRequestByPart, List.map_map]
  calc (acc.layout.parts.map ((fun part => part.units) ∘ acc.partInEstimate promptTokens)).sum
      = (acc.layout.parts.map fun part => (acc.partInEstimate promptTokens part).units).sum := rfl
    _ = acc.perTokenUnits promptTokens +
        acc.windowUnits promptTokens (acc.admittedWindow promptTokens) + acc.stateUnits +
          acc.alignEstimateUnits := by
      rw [hunits, List.sum_map_add, List.sum_map_add, List.sum_map_add, hperToken,
        windowUnits_eq, stateUnits_eq, alignEstimateUnits_eq]
    _ = acc.estimatedRequestUnits promptTokens := by
      rw [estimatedRequestUnits, neededToAdmit_eq]

end KvAccounting

end ServingSim
