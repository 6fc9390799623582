import ServingSim.Kv.PrefixCache

/-
  The receipts of the retained-prefix tier and what they are good for.

  Every operation of a `PrefixCache` returns receipts: `take` one result, `insert`
  and `shrink_to` one mutation for each entry they drop or keep. A reader of the
  receipts alone folds them: an entry's tokens before are taken off, the tokens
  after are put on, and the session is listed with them or not at all.

  What is proved:
    1. `journal_replays` — from the empty cache the fold gives the cache's used
       tokens and its sessions with their lengths after every operation, each
       receipt starts where the one before it ended, and an operation without
       receipts changed nothing. Where the layout charges an entry by its length
       alone the fold gives the used units too.
    2. `journal_hides_units` — in general it does not: two caches whose receipts
       are the same can occupy different numbers of units.
-/

namespace ServingSim

open KeyedTotal

/-- One reported change: a consumed session, or a mutation. -/
inductive CacheReceipt where
  | taken (sessionId : SessionId) (result : PrefixCache.TakeResult)
  | mutated (mutation : PrefixCacheMutation)
  deriving DecidableEq, Repr

namespace CacheReceipt

def sessionId : CacheReceipt → SessionId
  | taken sessionId _ => sessionId
  | mutated mutation => mutation.sessionId

def entryTokensBefore : CacheReceipt → Nat
  | taken _ result => result.entryTokens
  | mutated mutation => mutation.entryTokensBefore

/-- A consumed session keeps nothing. -/
def entryTokensAfter : CacheReceipt → Nat
  | taken _ _ => 0
  | mutated mutation => mutation.entryTokensAfter

def cacheUsedBefore : CacheReceipt → Nat
  | taken _ result => result.cacheUsedBefore
  | mutated mutation => mutation.cacheUsedBefore

def cacheUsedAfter : CacheReceipt → Nat
  | taken _ result => result.cacheUsedAfter
  | mutated mutation => mutation.cacheUsedAfter

end CacheReceipt

/-! ## The reader of the receipts -/

/-- What a reader of the receipts knows. -/
structure ReplayState where
  usedTokens : Nat
  sessions : Table SessionId Nat

namespace ReplayState

def empty : ReplayState := ⟨0, ∅⟩

def read (state : ReplayState) (receipt : CacheReceipt) : ReplayState where
  usedTokens := state.usedTokens - receipt.entryTokensBefore + receipt.entryTokensAfter
  sessions :=
    if receipt.entryTokensAfter = 0 then state.sessions.erase receipt.sessionId
    else state.sessions.insert receipt.sessionId receipt.entryTokensAfter

def replay (state : ReplayState) (receipts : List CacheReceipt) : ReplayState :=
  receipts.foldl read state

theorem replay_append (state : ReplayState) (receipts receipts' : List CacheReceipt) :
    state.replay (receipts ++ receipts') = (state.replay receipts).replay receipts' :=
  List.foldl_append

end ReplayState

/-- Each receipt starts at the use the one before it ended at; the chain leads
from `before` to `after`. -/
def Chained : Nat → List CacheReceipt → Nat → Prop
  | before, [], after => before = after
  | before, receipt :: receipts, after =>
    receipt.cacheUsedBefore = before ∧ Chained receipt.cacheUsedAfter receipts after

theorem Chained.append {a b c : Nat} {receipts receipts' : List CacheReceipt}
    (h : Chained a receipts b) (h' : Chained b receipts' c) :
    Chained a (receipts ++ receipts') c := by
  induction receipts generalizing a with
  | nil =>
    obtain rfl : a = b := h
    exact h'
  | cons receipt receipts ih => exact ⟨h.1, ih h.2⟩

/-- The units a reader counts who charges an entry by its length alone. -/
def readUnits (acc : KvAccounting) (units : Nat) (receipt : CacheReceipt) : Nat :=
  units - acc.perTokenUnits receipt.entryTokensBefore + acc.perTokenUnits receipt.entryTokensAfter

namespace PrefixCache

variable {acc : KvAccounting}

/-- The reader knows the tokens and the sessions of the cache. -/
structure Reports (cache : PrefixCache acc) (state : ReplayState) : Prop where
  usedTokens : state.usedTokens = cache.usedTokens
  sessions : ∀ s, state.sessions.lookup s =
    (cache.entries.lookup s).map fun entry => entry.positions.lastPosition

/-- Every entry pays the charge of its positions. -/
def Charged (cache : PrefixCache acc) : Prop :=
  ∀ s entry, cache.entries.lookup s = some entry → entry.charge = acc.entryCharge entry.positions

/-- The receipts tell what happened between two states of the cache. -/
structure Replays (cache cache' : PrefixCache acc) (receipts : List CacheReceipt) : Prop where
  chained : Chained cache.usedTokens receipts cache'.usedTokens
  reports : ∀ state, cache.Reports state → cache'.Reports (state.replay receipts)
  charged : cache.Charged → cache'.Charged
  units : acc.sparse = false → cache.Charged →
    receipts.foldl (readUnits acc) cache.usedUnits = cache'.usedUnits
  /-- A session no receipt names keeps its entry. -/
  other : ∀ s, (∀ receipt ∈ receipts, receipt.sessionId ≠ s) →
    cache'.entries.lookup s = cache.entries.lookup s

theorem Replays.refl (cache : PrefixCache acc) : Replays cache cache [] :=
  ⟨rfl, fun _ h => h, id, fun _ _ => rfl, fun _ _ => rfl⟩

theorem Replays.append {cache cache' cache'' : PrefixCache acc}
    {receipts receipts' : List CacheReceipt} (h : Replays cache cache' receipts)
    (h' : Replays cache' cache'' receipts') : Replays cache cache'' (receipts ++ receipts') where
  chained := h.chained.append h'.chained
  reports := fun state hstate => by
    rw [ReplayState.replay_append]
    exact h'.reports _ (h.reports state hstate)
  charged := h'.charged ∘ h.charged
  units := fun hsparse hcharged => by
    rw [List.foldl_append, h.units hsparse hcharged]
    exact h'.units hsparse (h.charged hcharged)
  other := fun s hs => by
    rw [h'.other s fun receipt hr => hs receipt (List.mem_append_right _ hr)]
    exact h.other s fun receipt hr => hs receipt (List.mem_append_left _ hr)

/-! ## Dropping an entry -/

theorem entryCharge_of_notSparse (h : acc.sparse = false) (positions : ResumePositions) :
    acc.entryCharge positions = acc.perTokenUnits positions.lastPosition := by
  simp [KvAccounting.entryCharge, h]

/-- The cache without one session's entry. -/
structure Removes (cache cache' : PrefixCache acc) (s : SessionId) (entry : PrefixEntry) :
    Prop where
  entries : cache'.entries = cache.entries.erase s
  usedUnits : cache'.usedUnits = cache.usedUnits - entry.charge
  usedTokens : cache'.usedTokens = cache.usedTokens - entry.positions.lastPosition

theorem remove_of_lookup {cache : PrefixCache acc} {s : SessionId} {entry : PrefixEntry}
    (h : cache.entries.lookup s = some entry) :
    (cache.remove s).2 = some entry ∧ Removes cache (cache.remove s).1 s entry := by
  unfold remove
  split
  · rename_i hnone
    rw [h] at hnone
    cases hnone
  · rename_i entry' hsome
    obtain rfl : entry' = entry := Option.some.inj (hsome.symm.trans h)
    exact ⟨rfl, rfl, rfl, rfl⟩

theorem replays_remove {cache : PrefixCache acc} {s : SessionId} {entry : PrefixEntry}
    (h : cache.entries.lookup s = some entry) {receipt : CacheReceipt}
    (hsession : receipt.sessionId = s)
    (hbefore : receipt.entryTokensBefore = entry.positions.lastPosition)
    (hafter : receipt.entryTokensAfter = 0) (hused : receipt.cacheUsedBefore = cache.usedTokens)
    (hleft : receipt.cacheUsedAfter = (cache.remove s).1.usedTokens) :
    Replays cache (cache.remove s).1 [receipt] := by
  obtain ⟨-, hremoved⟩ := remove_of_lookup h
  refine ⟨⟨hused, hleft⟩, ?_, ?_, ?_, ?_⟩
  · intro state hstate
    refine ⟨?_, ?_⟩
    · show state.usedTokens - receipt.entryTokensBefore + receipt.entryTokensAfter = _
      rw [hstate.usedTokens, hbefore, hafter, hremoved.usedTokens]
      omega
    · intro other
      show (if receipt.entryTokensAfter = 0 then state.sessions.erase receipt.sessionId
        else _).lookup other = _
      rw [if_pos hafter, hsession, hremoved.entries]
      by_cases hother : other = s
      · subst hother
        rw [AList.lookup_erase, AList.lookup_erase]
        rfl
      · rw [AList.lookup_erase_ne hother, AList.lookup_erase_ne hother]
        exact hstate.sessions other
  · intro hcharged other entry' hentry'
    rw [hremoved.entries] at hentry'
    by_cases hother : other = s
    · subst hother
      rw [AList.lookup_erase] at hentry'
      cases hentry'
    · rw [AList.lookup_erase_ne hother] at hentry'
      exact hcharged other entry' hentry'
  · intro hsparse hcharged
    have hcharge : entry.charge = acc.perTokenUnits entry.positions.lastPosition :=
      (hcharged s entry h).trans (entryCharge_of_notSparse hsparse _)
    show cache.usedUnits - acc.perTokenUnits receipt.entryTokensBefore +
      acc.perTokenUnits receipt.entryTokensAfter = _
    rw [hbefore, hafter, KvAccounting.perTokenUnits_zero, ← hcharge, hremoved.usedUnits]
    rfl
  · intro other hother
    have hne : s ≠ other := hsession ▸ hother receipt List.mem_cons_self
    rw [hremoved.entries, AList.lookup_erase_ne hne.symm]

/-! ## The operations -/

theorem replays_removeWithReceipt (cache : PrefixCache acc) (s : SessionId)
    (kind : PrefixCacheMutationKind) :
    Replays cache (cache.removeWithReceipt s kind).1
      ((cache.removeWithReceipt s kind).2.toList.map .mutated) := by
  cases h : cache.entries.lookup s with
  | none =>
    have hremove := remove_of_notMem (AList.lookup_eq_none.mp h)
    simp only [removeWithReceipt, hremove]
    exact .refl cache
  | some entry =>
    obtain ⟨hentry, -⟩ := remove_of_lookup h
    have hremove : cache.remove s = ((cache.remove s).1, some entry) := Prod.ext rfl hentry
    simp only [removeWithReceipt]
    rw [hremove]
    exact replays_remove h rfl rfl rfl rfl rfl

theorem replays_take (cache : PrefixCache acc) (s : SessionId) (requestedTokens : Nat) :
    Replays cache (cache.take s requestedTokens).1
      [.taken s (cache.take s requestedTokens).2] := by
  cases h : cache.entries.lookup s with
  | none =>
    -- nothing was consumed: the receipt moves no tokens
    have hnone := AList.lookup_eq_none.mp h
    have hremove := remove_of_notMem hnone
    have hcache : (cache.take s requestedTokens).1 = cache := by rw [take_fst, hremove]
    have htokens : (cache.take s requestedTokens).2.entryTokens = 0 := by
      simp only [take, hremove]
      rfl
    rw [hcache]
    refine ⟨⟨rfl, ?_⟩, ?_, id, ?_, fun _ _ => rfl⟩
    · show (cache.take s requestedTokens).1.usedTokens = cache.usedTokens
      rw [hcache]
    · intro state hstate
      refine ⟨?_, ?_⟩
      · show state.usedTokens - (cache.take s requestedTokens).2.entryTokens + 0 = _
        rw [htokens]
        exact hstate.usedTokens
      · intro other
        show (state.sessions.erase s).lookup other = _
        rw [erase_of_notMem]
        · exact hstate.sessions other
        · rw [← AList.lookup_eq_none, hstate.sessions, h]
          rfl
    · intro hsparse hcharged
      show cache.usedUnits - acc.perTokenUnits (cache.take s requestedTokens).2.entryTokens +
        acc.perTokenUnits 0 = cache.usedUnits
      rw [htokens, KvAccounting.perTokenUnits_zero]
      rfl
  | some entry =>
    obtain ⟨hentry, -⟩ := remove_of_lookup h
    refine replays_remove h rfl ?_ rfl rfl rfl
    show ((cache.remove s).2.map fun entry => entry.positions.lastPosition).getD 0 = _
    rw [hentry]
    rfl

theorem replays_evictUntil (kind : PrefixCacheMutationKind) (room limit fuel : Nat)
    (cache : PrefixCache acc) :
    Replays cache (evictUntil kind room limit fuel cache).1
      ((evictUntil kind room limit fuel cache).2.map .mutated) := by
  induction fuel generalizing cache with
  | zero => exact .refl cache
  | succ fuel ih =>
    unfold evictUntil
    split
    · split
      · exact .refl cache
      · rename_i victim _
        rw [List.map_append]
        exact (cache.replays_removeWithReceipt victim kind).append (ih _)
    · exact .refl cache

theorem replays_makeRoom (cache : PrefixCache acc) (s : SessionId) (limit : Nat) :
    Replays cache (cache.makeRoom s limit).1 ((cache.makeRoom s limit).2.map .mutated) := by
  simp only [makeRoom, List.map_append]
  exact (cache.replays_removeWithReceipt s _).append (replays_evictUntil _ _ _ _ _)

theorem replays_store (cache : PrefixCache acc) {s : SessionId} {entry : PrefixEntry}
    (h : s ∉ cache.entries) (hcharge : entry.charge = acc.entryCharge entry.positions)
    (hkept : entry.positions.lastPosition ≠ 0) :
    Replays cache (cache.store s entry h)
      [.mutated
        { kind := .retain
          sessionId := s
          entryTokensBefore := 0
          entryTokensAfter := entry.positions.lastPosition
          cacheUsedBefore := cache.usedTokens
          cacheUsedAfter := (cache.store s entry h).usedTokens }] := by
  refine ⟨⟨rfl, rfl⟩, ?_, ?_, ?_, ?_⟩
  · intro state hstate
    refine ⟨?_, ?_⟩
    · show state.usedTokens - 0 + entry.positions.lastPosition =
        cache.usedTokens + entry.positions.lastPosition
      rw [hstate.usedTokens]
      rfl
    · intro other
      show (if entry.positions.lastPosition = 0 then _
        else state.sessions.insert s entry.positions.lastPosition).lookup other =
          ((cache.entries.insert s entry).lookup other).map _
      rw [if_neg hkept]
      by_cases hother : other = s
      · subst hother
        rw [AList.lookup_insert, AList.lookup_insert]
        rfl
      · rw [AList.lookup_insert_ne hother, AList.lookup_insert_ne hother]
        exact hstate.sessions other
  · intro hcharged other entry' hentry'
    have hlookup : (cache.entries.insert s entry).lookup other = some entry' := hentry'
    by_cases hother : other = s
    · subst hother
      rw [AList.lookup_insert] at hlookup
      cases hlookup
      exact hcharge
    · rw [AList.lookup_insert_ne hother] at hlookup
      exact hcharged other entry' hlookup
  · intro hsparse _
    show cache.usedUnits - acc.perTokenUnits 0 + acc.perTokenUnits entry.positions.lastPosition =
      cache.usedUnits + entry.charge
    rw [KvAccounting.perTokenUnits_zero, hcharge, entryCharge_of_notSparse hsparse]
    rfl
  · intro other hother
    have hne : s ≠ other := hother _ List.mem_cons_self
    exact AList.lookup_insert_ne hne.symm

theorem Replays.sequence {cache cache' : PrefixCache acc} {receipts : List CacheReceipt} {k : Nat}
    (h : Replays { cache with nextSequence := k } cache' receipts) :
    Replays cache cache' receipts :=
  ⟨h.chained, fun state hstate => h.reports state ⟨hstate.usedTokens, hstate.sessions⟩, h.charged,
    h.units, h.other⟩

theorem replays_insert (cache : PrefixCache acc) (s : SessionId)
    (promptTokens contextTokens physicalLimit : Nat)
    (returnMetadata : Option PrefixCacheReturnMetadata) :
    Replays cache
      (cache.insert s promptTokens contextTokens physicalLimit returnMetadata).cache
      ((cache.insert s promptTokens contextTokens physicalLimit
        returnMetadata).mutations.map .mutated) := by
  have hroom := cache.replays_makeRoom s (min cache.maxRetainedUnits physicalLimit)
  simp only [insert]
  split
  · exact hroom
  · rename_i hkept
    rw [List.map_append, List.map_append]
    refine (hroom.append (replays_evictUntil .replacementPolicyEviction _ _ _ _)).append ?_
    exact Replays.sequence (replays_store _ _ rfl hkept)

end PrefixCache

/-- What is done to a cache. -/
inductive PrefixCacheOp where
  | take (sessionId : SessionId) (requestedTokens : Nat)
  | insert (sessionId : SessionId) (promptTokens contextTokens physicalLimit : Nat)
      (returnMetadata : Option PrefixCacheReturnMetadata)
  | shrinkTo (physicalLimit : Nat)
  deriving DecidableEq, Repr

namespace PrefixCacheOp

variable {acc : KvAccounting}

/-- The cache after an operation, and its receipts. -/
def apply (cache : PrefixCache acc) : PrefixCacheOp → PrefixCache acc × List CacheReceipt
  | take s requestedTokens =>
    ((cache.take s requestedTokens).1, [.taken s (cache.take s requestedTokens).2])
  | insert s promptTokens contextTokens physicalLimit returnMetadata =>
    let result := cache.insert s promptTokens contextTokens physicalLimit returnMetadata
    (result.cache, result.mutations.map .mutated)
  | shrinkTo physicalLimit =>
    ((cache.shrinkTo physicalLimit).1, (cache.shrinkTo physicalLimit).2.map .mutated)

/-- A cache with the journal of its receipts. -/
def journal (state : PrefixCache acc × List CacheReceipt) (op : PrefixCacheOp) :
    PrefixCache acc × List CacheReceipt :=
  ((op.apply state.1).1, state.2 ++ (op.apply state.1).2)

/-- The cache and the journal after a sequence of operations on an empty cache. -/
def run (acc : KvAccounting) (budget : PrefixCacheBudget) (ops : List PrefixCacheOp) :
    PrefixCache acc × List CacheReceipt :=
  ops.foldl journal (.new acc budget, [])

theorem replays_apply (cache : PrefixCache acc) (op : PrefixCacheOp) :
    PrefixCache.Replays cache (op.apply cache).1 (op.apply cache).2 := by
  cases op with
  | take s requestedTokens => exact cache.replays_take s requestedTokens
  | insert s promptTokens contextTokens physicalLimit returnMetadata =>
    exact cache.replays_insert s promptTokens contextTokens physicalLimit returnMetadata
  | shrinkTo physicalLimit => exact PrefixCache.replays_evictUntil _ _ _ _ _

theorem run_concat (budget : PrefixCacheBudget) (ops : List PrefixCacheOp) (op : PrefixCacheOp) :
    run acc budget (ops ++ [op]) = journal (run acc budget ops) op := by
  simp [run]

theorem replays_run (budget : PrefixCacheBudget) (ops : List PrefixCacheOp) :
    PrefixCache.Replays (.new acc budget) (run acc budget ops).1 (run acc budget ops).2 := by
  induction ops using List.reverseRecOn with
  | nil => exact .refl _
  | append_singleton ops op ih =>
    rw [run_concat]
    exact ih.append (replays_apply _ op)

theorem reports_new (budget : PrefixCacheBudget) :
    (PrefixCache.new acc budget).Reports .empty := ⟨rfl, fun _ => rfl⟩

theorem charged_new (budget : PrefixCacheBudget) : (PrefixCache.new acc budget).Charged :=
  fun _ _ h => by cases h

/-- The journal of a cache tells its tokens and its sessions after every
operation, and leaves out no change. -/
theorem journal_replays (acc : KvAccounting) (budget : PrefixCacheBudget)
    (ops : List PrefixCacheOp) :
    (run acc budget ops).1.Reports (ReplayState.empty.replay (run acc budget ops).2) ∧
      Chained 0 (run acc budget ops).2 (run acc budget ops).1.usedTokens ∧
      (acc.sparse = false →
        (run acc budget ops).2.foldl (readUnits acc) 0 = (run acc budget ops).1.usedUnits) ∧
      ∀ (op : PrefixCacheOp) (s : SessionId),
        (∀ receipt ∈ (op.apply (run acc budget ops).1).2, receipt.sessionId ≠ s) →
        (op.apply (run acc budget ops).1).1.entries.lookup s =
          (run acc budget ops).1.entries.lookup s := by
  have hrun : (PrefixCache.new acc budget).Replays _ _ := replays_run budget ops
  refine ⟨hrun.reports _ (reports_new budget), hrun.chained, ?_, ?_⟩
  · intro hsparse
    exact hrun.units hsparse (charged_new budget)
  · intro op s hs
    exact (replays_apply (run acc budget ops).1 op).other s hs

/-- Two sessions of plain tokens, the second evicting the first, and a hit. -/
def evictThenTake : List PrefixCacheOp :=
  [.insert 1 60 60 100 none, .insert 2 60 60 100 none, .shrinkTo 80, .take 2 40]

theorem journal_replays_three :
    (run (.tokensForTest 100 (by decide)) ⟨100, .lru⟩ evictThenTake).2.foldl
        (readUnits (.tokensForTest 100 (by decide))) 0 =
      (run (.tokensForTest 100 (by decide)) ⟨100, .lru⟩ evictThenTake).1.usedUnits ∧
    (run (.tokensForTest 100 (by decide)) ⟨100, .lru⟩ evictThenTake).2.length = 4 :=
  ⟨(journal_replays (.tokensForTest 100 (by decide)) ⟨100, .lru⟩ evictThenTake).2.2.1 rfl,
    by decide +kernel⟩

/-! ## What the receipts do not tell -/

/-- A token part, and a state of every request that can be resumed from. -/
def statefulLayout : KvCacheLayout where
  parts := [KvCachePart.perToken "kv" 1, KvCachePart.perRequest "state" 1]

/-- One unit a token and one a kept state; a prompt's end and a response's are
kept. -/
def statefulAccounting : KvAccounting where
  layout := statefulLayout
  options := { overhead := .none, resumePoints := some .promptAndResponseEnd }
  capacityUnits := 100
  layout_wellFormed := (KvCacheLayout.validate_ok_iff _).mp rfl
  interval_fits := by decide
  capacity_pos := by decide

/-- A session that ends 20 tokens long, with or without a response. -/
def retainTwenty (promptTokens : Nat) : List PrefixCacheOp :=
  [.insert 1 promptTokens 20 100 none]

/-- One journal, two occupancies: a prompt of 10 tokens is kept at two places and
occupies 22 units, a prompt of 20 at one and occupies 21. -/
theorem journal_hides_units : ¬ ∃ units : List CacheReceipt → Nat, ∀ ops : List PrefixCacheOp,
      units (run statefulAccounting ⟨100, .lru⟩ ops).2 =
        (run statefulAccounting ⟨100, .lru⟩ ops).1.usedUnits := by
  rintro ⟨units, hunits⟩
  have hsame : (run statefulAccounting ⟨100, .lru⟩ (retainTwenty 10)).2 =
      (run statefulAccounting ⟨100, .lru⟩ (retainTwenty 20)).2 := by decide +kernel
  have hshort : (run statefulAccounting ⟨100, .lru⟩ (retainTwenty 10)).1.usedUnits = 22 := by
    decide +kernel
  have hlong : (run statefulAccounting ⟨100, .lru⟩ (retainTwenty 20)).1.usedUnits = 21 := by
    decide +kernel
  have h := (hunits (retainTwenty 10)).symm.trans ((congrArg units hsame).trans
    (hunits (retainTwenty 20)))
  omega

end PrefixCacheOp

end ServingSim
