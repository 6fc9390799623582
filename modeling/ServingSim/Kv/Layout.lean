import ServingSim.Common.Ensure

/-
  The KV cache layout of an architecture — what one request keeps, part by
  part (`arch::kv_layout`).

  A model's persistent attention state is a list of parts: one entry per few
  context tokens, a sliding window, or one state per request. A layout lists
  the parts and what the serving engine adds on top; `validate` refuses the
  layouts the accounting cannot charge.

  A part's placement on ranks is read only by the reports and is left out.
-/

namespace ServingSim

/-- How a part grows with the request's context. -/
inductive KvGrowth where
  | perToken (tokensPerEntry : Nat)
  | slidingWindow (windowTokens : Nat)
  | perRequest
  deriving DecidableEq, Repr

/-- What the serving engine adds to one part. -/
structure PartOverhead where
  paddedBytesPerEntry : Option Nat := none
  copies : Option Nat := none
  deriving DecidableEq, Repr

/-- One kind of cache in the layout. -/
structure KvCachePart where
  name : String
  growth : KvGrowth
  bytesPerEntry : Nat
  prefixReusable : Bool := true
  overhead : PartOverhead := {}
  deriving DecidableEq, Repr

/-- What the serving engine adds to the whole pool. -/
structure EngineOverhead where
  blockTokens : Option Nat := none
  fixedDeviceBytes : Nat := 0
  deriving DecidableEq, Repr

structure KvCacheLayout where
  parts : List KvCachePart := []
  engine : EngineOverhead := {}
  deriving DecidableEq, Repr

namespace KvCachePart

def compressed (name : String) (tokensPerEntry bytesPerEntry : Nat) : KvCachePart where
  name := name
  growth := .perToken tokensPerEntry
  bytesPerEntry := bytesPerEntry

def perToken (name : String) (bytesPerToken : Nat) : KvCachePart :=
  compressed name 1 bytesPerToken

def perRequest (name : String) (bytesPerRequest : Nat) : KvCachePart where
  name := name
  growth := .perRequest
  bytesPerEntry := bytesPerRequest

/-- The check of a part's padding: the padded bytes are not fewer than the model's own. -/
def validatePadding (part : KvCachePart) : Except String Unit :=
  match part.overhead.paddedBytesPerEntry with
  | some padded => ensure (padded ≥ part.bytesPerEntry)
      ("KV cache part " ++ part.name ++ " pads " ++ toString part.bytesPerEntry ++
        " bytes down to " ++ toString padded)
  | none => .ok ()

/-- The check of a part's growth. -/
def validateGrowth (part : KvCachePart) : Except String Unit :=
  match part.growth with
  | .perToken tokensPerEntry =>
    ensure (tokensPerEntry > 0) ("KV cache part " ++ part.name ++ " has zero tokens per entry")
  | .slidingWindow windowTokens =>
    ensure (windowTokens > 0) ("KV cache part " ++ part.name ++ " has a zero-token window")
  | .perRequest => .ok ()

/-- The checks `KvCacheLayout.validate` makes of one part, in its order. -/
def validate (part : KvCachePart) : Except String Unit := do
  ensure (part.bytesPerEntry > 0) ("KV cache part " ++ part.name ++ " has zero bytes per entry")
  part.validatePadding
  ensure (part.overhead.copies ≠ some 0) ("KV cache part " ++ part.name ++ " keeps zero copies")
  part.validateGrowth

/-- A part the accounting can charge. -/
structure WellFormed (part : KvCachePart) : Prop where
  bytes_pos : 0 < part.bytesPerEntry
  padded_ge : ∀ padded, part.overhead.paddedBytesPerEntry = some padded →
    part.bytesPerEntry ≤ padded
  copies_ne : part.overhead.copies ≠ some 0
  tokens_pos : ∀ t, part.growth = .perToken t → 0 < t
  window_pos : ∀ w, part.growth = .slidingWindow w → 0 < w

end KvCachePart

namespace KvCacheLayout

/-- Reject layouts the accounting cannot charge: no parts, a zero-byte part, a
zero window or entry span, or an engine block of zero tokens. -/
def validate (layout : KvCacheLayout) : Except String Unit := do
  ensure (layout.parts ≠ []) "KV cache layout has no parts"
  forM layout.parts KvCachePart.validate
  ensure (layout.engine.blockTokens ≠ some 0) "KV cache layout has a zero-token engine block"

structure WellFormed (layout : KvCacheLayout) : Prop where
  parts_ne_nil : layout.parts ≠ []
  parts_wellFormed : ∀ part ∈ layout.parts, part.WellFormed
  block_ne : layout.engine.blockTokens ≠ some 0

end KvCacheLayout

/-! ## What `validate` accepts -/

theorem KvCachePart.validatePadding_ok_iff (part : KvCachePart) : part.validatePadding = .ok () ↔
      ∀ padded, part.overhead.paddedBytesPerEntry = some padded → part.bytesPerEntry ≤ padded := by
  unfold validatePadding
  cases part.overhead.paddedBytesPerEntry <;> simp

theorem KvCachePart.validateGrowth_ok_iff (part : KvCachePart) : part.validateGrowth = .ok () ↔
      (∀ t, part.growth = .perToken t → 0 < t) ∧ (∀ w, part.growth = .slidingWindow w → 0 < w) := by
  unfold validateGrowth
  cases part.growth <;> simp

theorem KvCachePart.validate_ok_iff (part : KvCachePart) :
    part.validate = .ok () ↔ part.WellFormed := by
  simp only [validate, check_then_eq_ok_iff, ensure_eq_ok_iff, validatePadding_ok_iff,
    validateGrowth_ok_iff]
  constructor
  · rintro ⟨hb, hp, hc, ht, hw⟩
    exact ⟨hb, hp, hc, ht, hw⟩
  · rintro ⟨hb, hp, hc, ht, hw⟩
    exact ⟨hb, hp, hc, ht, hw⟩

/-- `validate` accepts exactly the well-formed layouts. -/
theorem KvCacheLayout.validate_ok_iff (layout : KvCacheLayout) :
    layout.validate = .ok () ↔ layout.WellFormed := by
  simp only [validate, check_then_eq_ok_iff, ensure_eq_ok_iff, forM_eq_ok_iff,
    KvCachePart.validate_ok_iff]
  constructor
  · rintro ⟨hn, hp, hb⟩
    exact ⟨hn, hp, hb⟩
  · rintro ⟨hn, hp, hb⟩
    exact ⟨hn, hp, hb⟩

end ServingSim
