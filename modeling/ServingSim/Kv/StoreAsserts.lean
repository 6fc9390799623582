import ServingSim.Kv.Store

/-
  What the KV store asserts.

  `Kv.Store` has the state that an operation leaves. Here is whether it gets there: the
  assertions of a debug build and the sums that are checked in every build.
-/

namespace ServingSim

/-- The checked sums of a prefill fail on a context past a `u32`. -/
def ContextOverflow (contextTokens : Nat) (message : String) : Prop :=
  2 ^ 32 ≤ contextTokens ∧ (message = "resolved prefill token count overflow" ∨
    message = "post-prefill context token count overflow")

/-- A decode step left more in a partition than it holds. -/
def Overfill (capacityUnits : Nat) (message : String) : Prop :=
  ∃ partition resident : Nat, capacityUnits < resident ∧ message =
    s!"decode advance overfilled KV partition {partition}: {resident} of {capacityUnits} units"

namespace ResolvedPrefillContext

theorem residentPrefixTokens_new (sessionInput : SessionInput)
    (residentPrefixTokens freshPromptTokens : Nat) :
    (new sessionInput residentPrefixTokens freshPromptTokens).residentPrefixTokens ≤
        residentPrefixTokens ∧
      residentPrefixTokens ≤
        (new sessionInput residentPrefixTokens freshPromptTokens).residentPrefixTokens + 1 := by
  simp only [new]
  split <;> omega

/-- `new`, checked. -/
def tryNew (sessionInput : SessionInput) (residentPrefixTokens freshPromptTokens : Nat) :
    Except String ResolvedPrefillContext := do
  ensure (residentPrefixTokens ≤ sessionInput.declaredPrefixTokens)
    "assertion failed: resident_prefix_tokens <= declared_prefix_tokens"
  let context := new sessionInput residentPrefixTokens freshPromptTokens
  ensure (context.prefillTokensToCompute < 2 ^ 32) "resolved prefill token count overflow"
  ensure (context.postPrefillContextTokens < 2 ^ 32) "post-prefill context token count overflow"
  return context

theorem tryNew_ok_or {sessionInput : SessionInput} {residentPrefixTokens : Nat}
    (freshPromptTokens : Nat) (h : residentPrefixTokens ≤ sessionInput.declaredPrefixTokens) :
    EndsWith (ContextOverflow (freshPromptTokens + sessionInput.declaredPrefixTokens))
        (tryNew sessionInput residentPrefixTokens freshPromptTokens) ∨
      tryNew sessionInput residentPrefixTokens freshPromptTokens =
        .ok (new sessionInput residentPrefixTokens freshPromptTokens) := by
  have hparts := resident_add_toCompute_new sessionInput freshPromptTokens h
  simp only [tryNew, ensure_eq_ok_iff.mpr h, bind, Except.bind]
  rcases ensure_ok_or
      ((new sessionInput residentPrefixTokens freshPromptTokens).prefillTokensToCompute
      < 2 ^ 32) "resolved prefill token count overflow" with ⟨hlarge, hfail⟩ | hok
  · rw [hfail]
    exact .inl ⟨_, rfl, by omega, .inl rfl⟩
  rw [hok]
  rcases ensure_ok_or
      ((new sessionInput residentPrefixTokens freshPromptTokens).postPrefillContextTokens
      < 2 ^ 32) "post-prefill context token count overflow" with ⟨hlarge, hfail⟩ | hok
  · rw [hfail]
    rw [postPrefillContextTokens_new] at hlarge
    exact .inl ⟨_, rfl, by omega, .inr rfl⟩
  rw [hok]
  exact .inr rfl

end ResolvedPrefillContext

namespace KvCacheStore

variable {acc : KvAccounting} {n : Nat} (store : KvCacheStore acc n)

def tryPreviewPrefillContext (partition : Fin n) (freshPromptTokens : Nat) :
    SessionInput → Except String ResolvedPrefillContext
  | .standalone => ResolvedPrefillContext.tryNew .standalone 0 freshPromptTokens
  | .pinnedPrefix prefixTokens =>
    ResolvedPrefillContext.tryNew (.pinnedPrefix prefixTokens) prefixTokens freshPromptTokens
  | .session sessionId start declared =>
    ResolvedPrefillContext.tryNew (.session sessionId start declared)
      ((store.prefixCaches partition).peek sessionId declared) freshPromptTokens

theorem tryPreviewPrefillContext_ok_or (partition : Fin n) (freshPromptTokens : Nat)
    (sessionInput : SessionInput) :
    EndsWith (ContextOverflow (freshPromptTokens + sessionInput.declaredPrefixTokens))
        (store.tryPreviewPrefillContext partition freshPromptTokens sessionInput) ∨
      store.tryPreviewPrefillContext partition freshPromptTokens sessionInput =
        .ok (store.previewPrefillContext partition freshPromptTokens sessionInput) := by
  cases sessionInput with
  | standalone => exact ResolvedPrefillContext.tryNew_ok_or _ (Nat.zero_le _)
  | pinnedPrefix prefixTokens => exact ResolvedPrefillContext.tryNew_ok_or _ (Nat.le_refl _)
  | session sessionId start declared =>
    exact ResolvedPrefillContext.tryNew_ok_or _ (PrefixCache.peek_le ..)

def tryResidentPrefixTokens (freshPromptTokens : Nat) : SessionInput → Except String Nat
  | .standalone => .ok 0
  | .pinnedPrefix prefixTokens => do
    let context ← ResolvedPrefillContext.tryNew (.pinnedPrefix prefixTokens) prefixTokens
      freshPromptTokens
    return context.residentPrefixTokens
  | .session sessionId start declared =>
    match store.retainedPrefixPartition (.session sessionId start declared) with
    | none => .ok 0
    | some partition => do
      let context ← store.tryPreviewPrefillContext partition freshPromptTokens
        (.session sessionId start declared)
      return context.residentPrefixTokens

theorem tryResidentPrefixTokens_ok_or (freshPromptTokens : Nat) (sessionInput : SessionInput) :
    EndsWith (ContextOverflow (freshPromptTokens + sessionInput.declaredPrefixTokens))
        (store.tryResidentPrefixTokens freshPromptTokens sessionInput) ∨
      store.tryResidentPrefixTokens freshPromptTokens sessionInput =
        .ok (store.residentPrefixTokens freshPromptTokens sessionInput) := by
  cases sessionInput with
  | standalone => exact .inr rfl
  | pinnedPrefix prefixTokens =>
    rcases ResolvedPrefillContext.tryNew_ok_or freshPromptTokens
      (Nat.le_refl (SessionInput.pinnedPrefix prefixTokens).declaredPrefixTokens) with hfail | hok
    · exact .inl (hfail.bind _)
    · refine .inr ?_
      rw [tryResidentPrefixTokens, show ResolvedPrefillContext.tryNew (.pinnedPrefix prefixTokens)
        prefixTokens freshPromptTokens = _ from hok]
      rfl
  | session sessionId start declared =>
    simp only [tryResidentPrefixTokens, residentPrefixTokens]
    cases store.retainedPrefixPartition (.session sessionId start declared) with
    | none => exact .inr rfl
    | some partition =>
      rcases store.tryPreviewPrefillContext_ok_or partition freshPromptTokens
        (.session sessionId start declared) with hfail | hok
      · exact .inl (hfail.bind _)
      · dsimp only
        rw [hok]
        exact .inr rfl

/-- The entry that is taken is the one that was previewed, up to the borrowed token. -/
def Previewed (partition : Fin n) (resolvedPrefill : ResolvedPrefillContext) : Prop :=
  ∀ sessionId ∈ resolvedPrefill.sessionId,
    let hit := ((store.prefixCaches partition).take sessionId
      resolvedPrefill.declaredPrefixTokens).2.hitTokens
    hit ≤ resolvedPrefill.residentPrefixTokens + 1 ∧ resolvedPrefill.residentPrefixTokens ≤ hit + 1

instance (partition : Fin n) (resolvedPrefill : ResolvedPrefillContext) :
    Decidable (store.Previewed partition resolvedPrefill) :=
  match h : resolvedPrefill.sessionId with
  | none => .isTrue fun sessionId hs => by
    rw [h] at hs
    cases hs
  | some sessionId =>
    decidable_of_iff
      (((store.prefixCaches partition).take sessionId
          resolvedPrefill.declaredPrefixTokens).2.hitTokens ≤
          resolvedPrefill.residentPrefixTokens + 1 ∧
        resolvedPrefill.residentPrefixTokens ≤ ((store.prefixCaches partition).take sessionId
          resolvedPrefill.declaredPrefixTokens).2.hitTokens + 1) (by simp [Previewed, h])

def tryReservePrefillContext (request : RequestId) (partition : Fin n)
    (resolvedPrefill : ResolvedPrefillContext) (footprint : KvFootprint) :
    Except String (KvCacheStore acc n) := do
  ensure (store.Previewed partition resolvedPrefill)
    "prefill context changed between preview and reservation"
  return store.reservePrefillContext request partition resolvedPrefill footprint

theorem tryReservePrefillContext_ok (request : RequestId) (partition : Fin n)
    (freshPromptTokens : Nat) (sessionInput : SessionInput) (footprint : KvFootprint) :
    store.tryReservePrefillContext request partition
        (store.previewPrefillContext partition freshPromptTokens sessionInput) footprint =
      .ok (store.reservePrefillContext request partition
        (store.previewPrefillContext partition freshPromptTokens sessionInput) footprint) := by
  have hpreviewed : store.Previewed partition
      (store.previewPrefillContext partition freshPromptTokens sessionInput) := by
    cases sessionInput with
    | standalone => exact fun sessionId hs => by cases hs
    | pinnedPrefix prefixTokens => exact fun sessionId hs => by cases hs
    | session sessionId start declared =>
      rintro _ hs
      obtain rfl : sessionId = _ := Option.some.inj hs
      obtain ⟨hle, hborrowed⟩ := ResolvedPrefillContext.residentPrefixTokens_new
        (.session sessionId start declared)
        ((store.prefixCaches partition).peek sessionId declared) freshPromptTokens
      exact ⟨hborrowed, Nat.le_succ_of_le hle⟩
  rw [tryReservePrefillContext, ensure_eq_ok_iff.mpr hpreviewed]
  rfl

def tryCommitResident (request : RequestId) (partition : Fin n)
    (postPrefillContextTokens remainingOutputTokens : Nat) :
    Except String (KvCacheStore acc n) := do
  ensure (request ∉ (store.partitions partition).decodes.keys)
    s!"begin_decode: {request} already resident — decode ids are unique"
  return store.commitResident request partition postPrefillContextTokens remainingOutputTokens

def tryAdvance (scope : AdvanceScope n) (steps : Nat) : Except String (KvCacheStore acc n) := do
  match scope with
  | .wholePartition _ => pure ()
  | .requestSubset partition requestIds =>
    ensure (steps = 0 ∨ ∀ r ∈ requestIds, store.ledger.placement.lookup r = some partition)
      s!"advance scope contains a request outside KV partition {partition.val}"
  let advanced := store.advance scope steps
  let resident := (advanced.partitions scope.partition).residentUnits
  let capacity := acc.capacityUnits
  ensure (resident ≤ capacity)
    s!"decode advance overfilled KV partition {scope.partition.val}: {resident} of {capacity} units"
  return advanced

theorem tryAdvance_ok_or (partition : Fin n) (steps : Nat) :
    EndsWith (Overfill acc.capacityUnits) (store.tryAdvance (.wholePartition partition) steps) ∨
      store.tryAdvance (.wholePartition partition) steps =
        .ok (store.advance (.wholePartition partition) steps) := by
  by_cases hfits : ((store.advance (.wholePartition partition) steps).partitions
      partition).residentUnits ≤ acc.capacityUnits
  · exact .inr (by simp [tryAdvance, AdvanceScope.partition, ensure, hfits, bind, Except.bind, pure,
      Except.pure])
  · refine .inl ⟨_, ?_, partition, _, Nat.not_le.mp hfits, rfl⟩
    simp [tryAdvance, AdvanceScope.partition, ensure, hfits, bind, Except.bind]

end KvCacheStore

end ServingSim
