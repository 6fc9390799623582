import ServingSim.Kv.PrefixCache

/-
  The prefill one admission resolved for a request (`ResolvedPrefillContext`).

  A request's context after its prefill is its whole declared prefix plus its
  fresh prompt; how much of it the prefill computes depends on what the cache
  still serves. Cache hits change the work, never the context. The sums here do
  not overflow; the source checks them, as does `Kv.StoreAsserts`.
-/

namespace ServingSim

structure ResolvedPrefillContext where
  sessionId : Option SessionId
  declaredPrefixTokens : Nat
  residentPrefixTokens : Nat
  prefillTokensToCompute : Nat
  postPrefillContextTokens : Nat
  processedPrefillTokens : Nat
  activeChunkTokens : Nat
  cacheReturnMetadata : Option PrefixCacheReturnMetadata
  deriving DecidableEq, Repr

namespace ResolvedPrefillContext

def new (sessionInput : SessionInput) (residentPrefixTokens freshPromptTokens : Nat) :
    ResolvedPrefillContext :=
  let declared := sessionInput.declaredPrefixTokens
  let missing := declared - residentPrefixTokens
  -- a fully resident prompt still computes one token, borrowed from its prefix
  let borrows := freshPromptTokens = 0 ∧ missing = 0 ∧ residentPrefixTokens > 0
  let resident := if borrows then residentPrefixTokens - 1 else residentPrefixTokens
  let missing := if borrows then 1 else missing
  { sessionId := sessionInput.sessionId
    declaredPrefixTokens := declared
    residentPrefixTokens := resident
    prefillTokensToCompute := freshPromptTokens + missing
    postPrefillContextTokens := freshPromptTokens + declared
    processedPrefillTokens := 0
    activeChunkTokens := freshPromptTokens + missing
    cacheReturnMetadata := none }

/-- Context before the active chunk, and the tokens of that chunk. -/
def activeChunk (context : ResolvedPrefillContext) : Nat × Nat :=
  (context.residentPrefixTokens + context.processedPrefillTokens, context.activeChunkTokens)

def remainingPrefillTokens (context : ResolvedPrefillContext) : Nat :=
  context.prefillTokensToCompute - context.processedPrefillTokens

def scheduleChunk (context : ResolvedPrefillContext) (chunkTokens : Nat) :
    ResolvedPrefillContext :=
  { context with activeChunkTokens := chunkTokens }

def completeChunk (context : ResolvedPrefillContext) : ResolvedPrefillContext :=
  { context with
    processedPrefillTokens := context.processedPrefillTokens + context.activeChunkTokens
    activeChunkTokens := 0 }

def withCacheReturnMetadata (context : ResolvedPrefillContext)
    (cacheReturnMetadata : Option PrefixCacheReturnMetadata) : ResolvedPrefillContext :=
  { context with cacheReturnMetadata := cacheReturnMetadata }

@[simp] theorem postPrefillContextTokens_new (sessionInput : SessionInput)
    (residentPrefixTokens freshPromptTokens : Nat) :
    (new sessionInput residentPrefixTokens freshPromptTokens).postPrefillContextTokens =
      freshPromptTokens + sessionInput.declaredPrefixTokens := rfl

theorem resident_add_toCompute_new (sessionInput : SessionInput)
    {residentPrefixTokens : Nat} (freshPromptTokens : Nat)
    (h : residentPrefixTokens ≤ sessionInput.declaredPrefixTokens) :
    (new sessionInput residentPrefixTokens freshPromptTokens).residentPrefixTokens +
        (new sessionInput residentPrefixTokens freshPromptTokens).prefillTokensToCompute =
      freshPromptTokens + sessionInput.declaredPrefixTokens := by
  simp only [new]
  split <;> omega

@[simp] theorem postPrefillContextTokens_scheduleChunk (context : ResolvedPrefillContext)
    (chunkTokens : Nat) : (context.scheduleChunk chunkTokens).postPrefillContextTokens =
      context.postPrefillContextTokens := rfl

@[simp] theorem postPrefillContextTokens_completeChunk (context : ResolvedPrefillContext) :
    context.completeChunk.postPrefillContextTokens = context.postPrefillContextTokens := rfl

@[simp] theorem postPrefillContextTokens_withCacheReturnMetadata
    (context : ResolvedPrefillContext) (metadata : Option PrefixCacheReturnMetadata) :
    (context.withCacheReturnMetadata metadata).postPrefillContextTokens =
      context.postPrefillContextTokens := rfl

end ResolvedPrefillContext

end ServingSim
