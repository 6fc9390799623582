import Mathlib.Data.List.Sort
import ServingSim.Common.Request
import ServingSim.Kv.Accounting
import ServingSim.Lib.KeyedTotal

/-
  Session-scoped retained KV, one partition's evictable tier (`prefix_cache`).

  Entries are kept by session, each with the positions a later request can
  resume from and the units it occupies; `evictionOrder` holds one key per entry
  in the order of the replacement policy. A `PrefixCache` carries the proof that
  its running totals are the sums over its entries and that the order lists
  exactly the entries' current keys, so a cache that counts a dropped entry, or
  one whose order points at nothing, cannot be built.

  Renamed (Rust ↔ Lean):
    the two eviction loops ↔ `evictUntil`, fuelled by the entry count
    `eviction_order: BTreeSet<_>` ↔ a list sorted by `keyLE`
-/

namespace ServingSim

open KeyedTotal

/-- The largest value of the source's 64-bit counters. -/
def u64Max : Nat := 2 ^ 64 - 1

/-- Addition of the source's 64-bit counters that stops at the largest value. -/
def saturatingAdd (a b : Nat) : Nat := min (a + b) u64Max

/-- Victim selection when retained session KV must be evicted. -/
inductive PrefixCachePolicy where
  | lru
  | fifo
  | lfu
  | largestFirst
  deriving DecidableEq, Repr

structure PrefixCacheBudget where
  maxRetainedUnits : Nat
  policy : PrefixCachePolicy
  deriving DecidableEq, Repr

def PrefixCacheBudget.disabled : PrefixCacheBudget := ⟨0, .lru⟩

structure PrefixEntry where
  positions : ResumePositions
  charge : Nat
  insertionSequence : Nat
  lastAccessSequence : Nat
  frequency : Nat
  deriving DecidableEq, Repr

/-- Replacement metadata that follows a consumed session until its request
returns KV to the cache. -/
structure PrefixCacheReturnMetadata where
  insertionSequence : Nat
  frequency : Nat
  deriving DecidableEq, Repr

inductive PrefixCacheMutationKind where
  | sameSessionReplacement
  | capacityEviction
  | replacementPolicyEviction
  | retain
  deriving DecidableEq, Repr

/-- One cache-entry transition, as reported to the KV owner. -/
structure PrefixCacheMutation where
  kind : PrefixCacheMutationKind
  sessionId : SessionId
  entryTokensBefore : Nat
  entryTokensAfter : Nat
  cacheUsedBefore : Nat
  cacheUsedAfter : Nat
  deriving DecidableEq, Repr

/-! ## Eviction order -/

/-- An entry's place in the eviction order; the session id breaks every tie. -/
abbrev EvictionKey := Nat × Nat × Nat

/-- Lexicographic order on eviction keys: the smallest is evicted first. -/
def keyLE (a b : EvictionKey) : Prop :=
  a.1 < b.1 ∨ a.1 = b.1 ∧ (a.2.1 < b.2.1 ∨ a.2.1 = b.2.1 ∧ a.2.2 ≤ b.2.2)

instance : DecidableRel keyLE := fun a b =>
  inferInstanceAs (Decidable (a.1 < b.1 ∨ a.1 = b.1 ∧ (a.2.1 < b.2.1 ∨ _ ∧ _)))

instance : Std.Total keyLE := ⟨fun a b => by simp only [keyLE]; omega⟩

instance : IsTrans EvictionKey keyLE := ⟨fun a b c => by simp only [keyLE]; omega⟩

def evictionKey (policy : PrefixCachePolicy) (sessionId : SessionId) (entry : PrefixEntry) :
    EvictionKey :=
  match policy with
  | .lru => (entry.lastAccessSequence, 0, sessionId)
  | .fifo => (entry.insertionSequence, 0, sessionId)
  | .lfu => (entry.frequency, entry.insertionSequence, sessionId)
  | .largestFirst => (u64Max - entry.charge, entry.insertionSequence, sessionId)

@[simp] theorem evictionKey_session (policy : PrefixCachePolicy) (sessionId : SessionId)
    (entry : PrefixEntry) : (evictionKey policy sessionId entry).2.2 = sessionId := by
  cases policy <;> rfl

/-- The keys of a table's entries, in table order. -/
def evictionKeys (policy : PrefixCachePolicy) (entries : Table SessionId PrefixEntry) :
    List EvictionKey :=
  entries.entries.map fun e => evictionKey policy e.1 e.2

/-! ## The tier -/

structure PrefixCache (acc : KvAccounting) where
  maxRetainedUnits : Nat
  usedUnits : Nat
  usedTokens : Nat
  policy : PrefixCachePolicy
  entries : Table SessionId PrefixEntry
  evictionOrder : List EvictionKey
  nextSequence : Nat
  usedUnits_eq : usedUnits = total (fun _ entry => entry.charge) entries
  usedTokens_eq : usedTokens = total (fun _ entry => entry.positions.lastPosition) entries
  order_perm : evictionOrder.Perm (evictionKeys policy entries)
  order_sorted : evictionOrder.Pairwise keyLE
  max_le_capacity : maxRetainedUnits ≤ acc.capacityUnits

namespace PrefixCache

variable {acc : KvAccounting}

def new (acc : KvAccounting) (budget : PrefixCacheBudget) : PrefixCache acc where
  maxRetainedUnits := min budget.maxRetainedUnits acc.capacityUnits
  usedUnits := 0
  usedTokens := 0
  policy := budget.policy
  entries := ∅
  evictionOrder := []
  nextSequence := 0
  usedUnits_eq := rfl
  usedTokens_eq := rfl
  order_perm := List.Perm.refl _
  order_sorted := List.Pairwise.nil
  max_le_capacity := min_le_right _ _

/-- The largest position of a session's entry within `requestedTokens`. -/
def peek (cache : PrefixCache acc) (sessionId : SessionId) (requestedTokens : Nat) : Nat :=
  match cache.entries.lookup sessionId with
  | some entry => entry.positions.floor requestedTokens
  | none => 0

theorem peek_le (cache : PrefixCache acc) (sessionId : SessionId) (requestedTokens : Nat) :
    cache.peek sessionId requestedTokens ≤ requestedTokens := by
  unfold peek
  split
  · exact ResumePositions.floor_le _ _
  · exact Nat.zero_le _

def victim (cache : PrefixCache acc) : Option SessionId :=
  cache.evictionOrder.head?.map fun key => key.2.2

theorem evictionKeys_erase {policy : PrefixCachePolicy} {entries : Table SessionId PrefixEntry}
    {sessionId : SessionId} {entry : PrefixEntry} (h : entries.lookup sessionId = some entry) :
    (evictionKeys policy (entries.erase sessionId)).Perm
      ((evictionKeys policy entries).erase (evictionKey policy sessionId entry)) := by
  have hmem := AList.mem_lookup_iff.mp (Option.mem_def.mpr h)
  obtain ⟨v, l₁, l₂, -, he, hr⟩ := List.exists_of_kerase (List.mem_keys_of_mem hmem)
  have hv : v = entry := by
    have hm : (⟨sessionId, v⟩ : Sigma fun _ : SessionId => PrefixEntry) ∈ entries.entries := by
      simp [he]
    exact entries.nodupKeys.eq_of_mk_mem hm hmem
  subst hv
  have hr' : (entries.erase sessionId).entries = l₁ ++ l₂ := hr
  simp only [evictionKeys, hr', he, List.map_append, List.map_cons]
  exact (List.perm_middle.erase _ |>.trans (by rw [List.erase_cons_head])).symm

def remove (cache : PrefixCache acc) (sessionId : SessionId) :
    PrefixCache acc × Option PrefixEntry :=
  match h : cache.entries.lookup sessionId with
  | none => (cache, none)
  | some entry =>
    ({ cache with
        entries := cache.entries.erase sessionId
        evictionOrder := cache.evictionOrder.erase (evictionKey cache.policy sessionId entry)
        usedUnits := cache.usedUnits - entry.charge
        usedTokens := cache.usedTokens - entry.positions.lastPosition
        usedUnits_eq := by
          rw [cache.usedUnits_eq, ← total_erase_of_lookup _ h, Nat.add_sub_cancel]
        usedTokens_eq := by
          rw [cache.usedTokens_eq, ← total_erase_of_lookup _ h, Nat.add_sub_cancel]
        order_perm := (cache.order_perm.erase _).trans (evictionKeys_erase h).symm
        order_sorted := cache.order_sorted.sublist List.erase_sublist },
      some entry)

def removeWithReceipt (cache : PrefixCache acc) (sessionId : SessionId)
    (kind : PrefixCacheMutationKind) : PrefixCache acc × Option PrefixCacheMutation :=
  match cache.remove sessionId with
  | (cache', none) => (cache', none)
  | (cache', some entry) =>
    (cache', some
      { kind := kind
        sessionId := sessionId
        entryTokensBefore := entry.positions.lastPosition
        entryTokensAfter := 0
        cacheUsedBefore := cache.usedTokens
        cacheUsedAfter := cache'.usedTokens })

structure TakeResult where
  hitTokens : Nat
  fullHitTokens : Nat
  entryTokens : Nat
  cacheUsedBefore : Nat
  cacheUsedAfter : Nat
  returnMetadata : Option PrefixCacheReturnMetadata
  deriving DecidableEq, Repr

/-- Move one retained session into an active request. The whole entry is
removed even when the request declares a shorter prefix. -/
def take (cache : PrefixCache acc) (sessionId : SessionId) (requestedTokens : Nat) :
    PrefixCache acc × TakeResult :=
  let (cache', removed) := cache.remove sessionId
  let entryTokens := (removed.map fun entry => entry.positions.lastPosition).getD 0
  (cache',
    { hitTokens := cache.peek sessionId requestedTokens
      fullHitTokens := min entryTokens requestedTokens
      entryTokens := entryTokens
      cacheUsedBefore := cache.usedTokens
      cacheUsedAfter := cache'.usedTokens
      returnMetadata := removed.map fun entry =>
        ⟨entry.insertionSequence, saturatingAdd entry.frequency 1⟩ })

/-- Evict victims while `room` more units do not fit under `limit`. -/
def evictUntil (kind : PrefixCacheMutationKind) (room limit : Nat) :
    Nat → PrefixCache acc → PrefixCache acc × List PrefixCacheMutation
  | 0, cache => (cache, [])
  | fuel + 1, cache =>
    if cache.usedUnits + room > limit then
      match cache.victim with
      | none => (cache, [])
      | some victim =>
        let (removed, receipt) := cache.removeWithReceipt victim kind
        let (final, receipts) := evictUntil kind room limit fuel removed
        (final, receipt.toList ++ receipts)
    else (cache, [])

def entryCount (cache : PrefixCache acc) : Nat := cache.entries.entries.length

def shrinkTo (cache : PrefixCache acc) (physicalLimit : Nat) :
    PrefixCache acc × List PrefixCacheMutation :=
  evictUntil .capacityEviction 0 (min cache.maxRetainedUnits physicalLimit) cache.entryCount cache

/-- Put an entry under a session that has none. -/
def store (cache : PrefixCache acc) (sessionId : SessionId) (entry : PrefixEntry)
    (h : sessionId ∉ cache.entries) : PrefixCache acc :=
  { cache with
    entries := cache.entries.insert sessionId entry
    evictionOrder :=
      cache.evictionOrder.orderedInsert keyLE (evictionKey cache.policy sessionId entry)
    usedUnits := cache.usedUnits + entry.charge
    usedTokens := cache.usedTokens + entry.positions.lastPosition
    usedUnits_eq := by rw [total_insert_of_notMem _ _ h, cache.usedUnits_eq, Nat.add_comm]
    usedTokens_eq := by rw [total_insert_of_notMem _ _ h, cache.usedTokens_eq, Nat.add_comm]
    order_perm := by
      refine (List.perm_orderedInsert keyLE _ _).trans ?_
      rw [evictionKeys, AList.entries_insert_of_notMem h, List.map_cons]
      exact cache.order_perm.cons _
    order_sorted := cache.order_sorted.orderedInsert _ _ }

/-! ## What a removal does -/

theorem remove_of_notMem {cache : PrefixCache acc} {sessionId : SessionId}
    (h : sessionId ∉ cache.entries) : cache.remove sessionId = (cache, none) := by
  have hn := AList.lookup_eq_none.mpr h
  unfold remove
  split
  · rfl
  · rename_i entry he
    rw [hn] at he
    cases he

theorem remove_cases (cache : PrefixCache acc) (sessionId : SessionId) :
    (sessionId ∉ cache.entries ∧ cache.remove sessionId = (cache, none)) ∨
    (∃ entry, cache.entries.lookup sessionId = some entry ∧
      (cache.remove sessionId).2 = some entry ∧
      (cache.remove sessionId).1.entries = cache.entries.erase sessionId ∧
      (cache.remove sessionId).1.usedUnits + entry.charge = cache.usedUnits ∧
      (cache.remove sessionId).1.maxRetainedUnits = cache.maxRetainedUnits) := by
  cases h : cache.entries.lookup sessionId with
  | none =>
    have hn := AList.lookup_eq_none.mp h
    exact .inl ⟨hn, remove_of_notMem hn⟩
  | some entry =>
    refine .inr ⟨entry, rfl, ?_⟩
    have hle : entry.charge ≤ cache.usedUnits := by
      rw [cache.usedUnits_eq, ← total_erase_of_lookup _ h]
      exact Nat.le_add_left _ _
    unfold remove
    split
    · rename_i hn
      rw [h] at hn
      cases hn
    · rename_i entry' he
      rw [h] at he
      cases he
      exact ⟨rfl, rfl, Nat.sub_add_cancel hle, rfl⟩

theorem removeWithReceipt_fst (cache : PrefixCache acc) (sessionId : SessionId)
    (kind : PrefixCacheMutationKind) :
    (cache.removeWithReceipt sessionId kind).1 = (cache.remove sessionId).1 := by
  unfold removeWithReceipt
  split <;> rename_i h <;> rw [h]

theorem take_fst (cache : PrefixCache acc) (sessionId : SessionId) (requestedTokens : Nat) :
    (cache.take sessionId requestedTokens).1 = (cache.remove sessionId).1 := rfl

@[simp] theorem maxRetainedUnits_remove (cache : PrefixCache acc) (sessionId : SessionId) :
    (cache.remove sessionId).1.maxRetainedUnits = cache.maxRetainedUnits := by
  rcases cache.remove_cases sessionId with ⟨-, h⟩ | ⟨_, -, -, -, -, h⟩
  · rw [h]
  · exact h

theorem mem_entries_remove_iff (cache : PrefixCache acc) (sessionId other : SessionId) :
    other ∈ (cache.remove sessionId).1.entries ↔ other ≠ sessionId ∧ other ∈ cache.entries := by
  rcases cache.remove_cases sessionId with ⟨hn, h⟩ | ⟨_, -, -, h, -, -⟩
  · rw [h]
    exact ⟨fun hm => ⟨fun heq => hn (heq ▸ hm), hm⟩, And.right⟩
  · rw [h, AList.mem_erase]

theorem entryCount_remove {cache : PrefixCache acc} {sessionId : SessionId}
    (h : sessionId ∈ cache.entries) :
    (cache.remove sessionId).1.entryCount + 1 = cache.entryCount := by
  rcases cache.remove_cases sessionId with ⟨hn, -⟩ | ⟨_, -, -, he, -, -⟩
  · exact absurd h hn
  · have hk : (cache.entries.erase sessionId).keys.length + 1 = cache.entries.keys.length := by
      rw [AList.keys_erase, List.length_erase_of_mem (AList.mem_keys.mp h)]
      exact Nat.sub_add_cancel (List.length_pos_of_mem (AList.mem_keys.mp h))
    simpa [entryCount, he, AList.keys, List.keys] using hk

/-! ## What an eviction loop does -/

theorem victim_mem {cache : PrefixCache acc} {victim : SessionId}
    (h : cache.victim = some victim) : victim ∈ cache.entries := by
  obtain ⟨key, hk, rfl⟩ := Option.map_eq_some_iff.mp h
  have hmem := cache.order_perm.mem_iff.mp (List.mem_of_head? hk)
  obtain ⟨e, he, rfl⟩ := List.mem_map.mp hmem
  rw [evictionKey_session]
  exact AList.mem_keys.mpr (List.mem_keys_of_mem he)

theorem usedUnits_eq_zero_of_victim {cache : PrefixCache acc} (h : cache.victim = none) :
    cache.usedUnits = 0 := by
  have hnil : cache.evictionOrder = [] := by simpa [victim] using h
  have hkeys : evictionKeys cache.policy cache.entries = [] := by
    have := cache.order_perm
    rw [hnil] at this
    exact List.nil_perm.mp this
  have hentries : cache.entries.entries = [] := List.map_eq_nil_iff.mp hkeys
  simp [cache.usedUnits_eq, total, hentries]

theorem usedUnits_eq_zero_of_entryCount {cache : PrefixCache acc} (h : cache.entryCount = 0) :
    cache.usedUnits = 0 := by
  have hentries : cache.entries.entries = [] := List.length_eq_zero_iff.mp h
  simp [cache.usedUnits_eq, total, hentries]

section evictUntil

variable (kind : PrefixCacheMutationKind) (room limit : Nat)

theorem evictUntil_induction {P : PrefixCache acc → Prop}
    (hremove : ∀ cache sessionId, P cache → P (cache.remove sessionId).1)
    (fuel : Nat) (cache : PrefixCache acc) (h : P cache) :
    P (evictUntil kind room limit fuel cache).1 := by
  induction fuel generalizing cache with
  | zero => exact h
  | succ fuel ih =>
    unfold evictUntil
    split
    · split
      · exact h
      · rename_i victim _
        refine ih _ ?_
        rw [removeWithReceipt_fst]
        exact hremove cache victim h
    · exact h

theorem evictUntil_room (fuel : Nat) (cache : PrefixCache acc) (h : cache.entryCount ≤ fuel) :
    (evictUntil kind room limit fuel cache).1.usedUnits + room ≤ limit ∨
      (evictUntil kind room limit fuel cache).1.usedUnits = 0 := by
  induction fuel generalizing cache with
  | zero => exact .inr (usedUnits_eq_zero_of_entryCount (Nat.le_zero.mp h))
  | succ fuel ih =>
    unfold evictUntil
    split
    · split
      · rename_i hv
        exact .inr (usedUnits_eq_zero_of_victim hv)
      · rename_i victim hv
        refine ih _ ?_
        rw [removeWithReceipt_fst]
        have := entryCount_remove (victim_mem hv)
        omega
    · rename_i hfits
      exact .inl (Nat.not_lt.mp hfits)

end evictUntil

theorem usedUnits_shrinkTo_le (cache : PrefixCache acc) (physicalLimit : Nat) :
    (cache.shrinkTo physicalLimit).1.usedUnits ≤ min cache.maxRetainedUnits physicalLimit := by
  rcases evictUntil_room .capacityEviction 0 (min cache.maxRetainedUnits physicalLimit)
    cache.entryCount cache (Nat.le_refl _) with h | h
  · exact h
  · exact h.le.trans (Nat.zero_le _)

/-! ## Retaining a finished request -/

theorem evictUntil_notMem {kind : PrefixCacheMutationKind} {room limit fuel : Nat}
    {cache : PrefixCache acc} {sessionId : SessionId} (h : sessionId ∉ cache.entries) :
    sessionId ∉ (evictUntil kind room limit fuel cache).1.entries :=
  evictUntil_induction (P := fun c => sessionId ∉ c.entries) _ _ _
    (fun c victim hc hm => hc ((c.mem_entries_remove_iff victim sessionId).mp hm).2) _ cache h

/-- The cache an insert starts from: the session's old entry dropped, the tier
shrunk to the limit. -/
def makeRoom (cache : PrefixCache acc) (sessionId : SessionId) (effectiveCapacity : Nat) :
    PrefixCache acc × List PrefixCacheMutation :=
  let (dropped, receipt) := cache.removeWithReceipt sessionId .sameSessionReplacement
  let (shrunk, receipts) := dropped.shrinkTo effectiveCapacity
  (shrunk, receipt.toList ++ receipts)

theorem makeRoom_fst (cache : PrefixCache acc) (sessionId : SessionId) (effectiveCapacity : Nat) :
    (cache.makeRoom sessionId effectiveCapacity).1 =
      ((cache.remove sessionId).1.shrinkTo effectiveCapacity).1 := by
  simp only [makeRoom, removeWithReceipt_fst]

theorem makeRoom_notMem (cache : PrefixCache acc) (sessionId : SessionId)
    (effectiveCapacity : Nat) :
    sessionId ∉ (cache.makeRoom sessionId effectiveCapacity).1.entries := by
  rw [makeRoom_fst]
  exact evictUntil_notMem fun hm =>
    ((cache.mem_entries_remove_iff sessionId sessionId).mp hm).1 rfl

structure InsertResult (acc : KvAccounting) where
  cache : PrefixCache acc
  mutations : List PrefixCacheMutation
  retainedTokens : Nat

/-- Retain a completed request's KV: `contextTokens` of context after a
`promptTokens` prompt, cut at the last position that fits the smaller of the
tier's ceiling and `physicalLimit`. -/
def insert (cache : PrefixCache acc) (sessionId : SessionId)
    (promptTokens contextTokens physicalLimit : Nat)
    (returnMetadata : Option PrefixCacheReturnMetadata) : InsertResult acc :=
  let effectiveCapacity := min cache.maxRetainedUnits physicalLimit
  let roomed := cache.makeRoom sessionId effectiveCapacity
  let positions := acc.largestFitting (acc.resumePositions promptTokens contextTokens)
    effectiveCapacity
  if positions.lastPosition = 0 then
    { cache := roomed.1, mutations := roomed.2, retainedTokens := 0 }
  else
    let charge := acc.entryCharge positions
    let evicted := evictUntil .replacementPolicyEviction charge effectiveCapacity
      roomed.1.entryCount roomed.1
    let sequence := evicted.1.nextSequence
    let entry : PrefixEntry :=
      { positions := positions
        charge := charge
        insertionSequence := (returnMetadata.map fun value => value.insertionSequence).getD sequence
        lastAccessSequence := sequence
        frequency := (returnMetadata.map fun value => value.frequency).getD 0 }
    let sequenced := { evicted.1 with nextSequence := saturatingAdd sequence 1 }
    let stored := sequenced.store sessionId entry
      (evictUntil_notMem (cache.makeRoom_notMem sessionId effectiveCapacity))
    { cache := stored
      mutations := roomed.2 ++ evicted.2 ++
        [{ kind := .retain
           sessionId := sessionId
           entryTokensBefore := 0
           entryTokensAfter := positions.lastPosition
           cacheUsedBefore := evicted.1.usedTokens
           cacheUsedAfter := stored.usedTokens }]
      retainedTokens := positions.lastPosition }

theorem usedUnits_insert_le (cache : PrefixCache acc) (sessionId : SessionId)
    (promptTokens contextTokens physicalLimit : Nat)
    (returnMetadata : Option PrefixCacheReturnMetadata) :
    (cache.insert sessionId promptTokens contextTokens physicalLimit returnMetadata).cache.usedUnits
      ≤ min cache.maxRetainedUnits physicalLimit := by
  simp only [insert]
  split
  · rw [makeRoom_fst]
    exact ((cache.remove sessionId).1.usedUnits_shrinkTo_le _).trans (min_le_right _ _)
  · rename_i hlast
    have hfit := acc.entryCharge_largestFitting_le _ _ hlast
    rcases evictUntil_room .replacementPolicyEviction _ _ _
      (cache.makeRoom sessionId (min cache.maxRetainedUnits physicalLimit)).1 (Nat.le_refl _)
      with h | h
    · exact h
    · simp only [store, h, Nat.zero_add]
      exact hfit

end PrefixCache

end ServingSim
