import ServingSim.Kv.PrefixJournal

/-
  What the eviction loops of the retained-prefix tier drop.

  A loop drops the first entry of the eviction order until what it makes room for fits.
  The order is a second index over the entries; the loop finds its next victim only if the
  order's head is the current key of an entry.

  What is proved:
    1. `prefix_cache_invariant` — all of it for every sequence of operations.
-/

namespace ServingSim

open KeyedTotal

namespace PrefixCache

variable {acc : KvAccounting}

/-! ## One key for each entry -/

theorem nodup_evictionOrder (cache : PrefixCache acc) : cache.evictionOrder.Nodup := by
  -- a key ends in its session, and a table has a session once
  have hsessions : (evictionKeys cache.policy cache.entries).map (fun key => key.2.2) =
      cache.entries.keys := by
    simp only [evictionKeys, List.map_map, Function.comp_def, evictionKey_session]
    rfl
  have hkeys : ((evictionKeys cache.policy cache.entries).map fun key => key.2.2).Nodup := by
    rw [hsessions]
    exact cache.entries.keys_nodup
  exact cache.order_perm.nodup_iff.mpr hkeys.of_map

theorem mem_evictionOrder_iff (cache : PrefixCache acc) (key : EvictionKey) :
    key ∈ cache.evictionOrder ↔ ∃ sessionId entry, cache.entries.lookup sessionId = some entry ∧
        key = evictionKey cache.policy sessionId entry := by
  rw [cache.order_perm.mem_iff, evictionKeys, List.mem_map]
  constructor
  · intro ⟨⟨sessionId, entry⟩, hmem, hkey⟩
    exact ⟨sessionId, entry, Option.mem_def.mp (AList.mem_lookup_iff.mpr hmem), hkey.symm⟩
  · intro ⟨sessionId, entry, hlookup, hkey⟩
    exact ⟨⟨sessionId, entry⟩, AList.mem_lookup_iff.mp (Option.mem_def.mpr hlookup), hkey.symm⟩

/-- Both indexes name the same entries and both totals are sums over them. -/
structure Consistent (cache : PrefixCache acc) : Prop where
  sorted : cache.evictionOrder.Pairwise keyLE
  nodup : cache.evictionOrder.Nodup
  length : cache.evictionOrder.length = cache.entryCount
  keys : ∀ key, key ∈ cache.evictionOrder ↔ ∃ sessionId entry,
    cache.entries.lookup sessionId = some entry ∧ key = evictionKey cache.policy sessionId entry
  usedUnits : cache.usedUnits = total (fun _ entry => entry.charge) cache.entries
  usedTokens : cache.usedTokens = total (fun _ entry => entry.positions.lastPosition) cache.entries

theorem length_evictionOrder (cache : PrefixCache acc) :
    cache.evictionOrder.length = cache.entryCount := by
  rw [cache.order_perm.length_eq, evictionKeys, List.length_map]
  rfl

theorem consistent (cache : PrefixCache acc) : cache.Consistent where
  sorted := cache.order_sorted
  nodup := cache.nodup_evictionOrder
  length := cache.length_evictionOrder
  keys := cache.mem_evictionOrder_iff
  usedUnits := cache.usedUnits_eq
  usedTokens := cache.usedTokens_eq

/-! ## What a loop drops -/

/-- The cache without some sessions. -/
def dropAll (cache : PrefixCache acc) (sessions : List SessionId) : PrefixCache acc :=
  sessions.foldl (fun cache sessionId => (cache.remove sessionId).1) cache

/-- The sessions the order's first keys name. -/
def firstVictims (cache : PrefixCache acc) (count : Nat) : List SessionId :=
  (cache.evictionOrder.take count).map fun key => key.2.2

/-- `final` is the cache without the first `count` victims of the order; with fewer of them
dropped, `room` more units did not fit under `limit`. -/
structure Evicted (room limit : Nat) (cache final : PrefixCache acc)
    (receipts : List PrefixCacheMutation) (count : Nat) : Prop where
  dropped : final = cache.dropAll (cache.firstVictims count)
  order : final.evictionOrder = cache.evictionOrder.drop count
  reported : receipts.map (fun receipt => receipt.sessionId) = cache.firstVictims count
  count_le : count ≤ cache.evictionOrder.length
  needed : ∀ k < count, limit < (cache.dropAll (cache.firstVictims k)).usedUnits + room

theorem evictionOrder_remove (cache : PrefixCache acc) {sessionId : SessionId} {entry : PrefixEntry}
    (h : cache.entries.lookup sessionId = some entry) :
    (cache.remove sessionId).1.evictionOrder =
      cache.evictionOrder.erase (evictionKey cache.policy sessionId entry) := by
  unfold remove
  split
  · next hnone =>
    rw [h] at hnone
    cases hnone
  · next found hfound =>
    rw [h] at hfound
    cases hfound
    rfl

theorem evictionOrder_remove_victim (cache : PrefixCache acc) {victim : SessionId}
    (h : cache.victim = some victim) : ∃ key rest, cache.evictionOrder = key :: rest ∧
      key.2.2 = victim ∧ (cache.remove victim).1.evictionOrder = rest := by
  obtain ⟨key, hhead, hvictim⟩ := Option.map_eq_some_iff.mp h
  obtain ⟨rest, horder⟩ := List.head?_eq_some_iff.mp hhead
  obtain ⟨sessionId, entry, hlookup, hkey⟩ :=
    (cache.mem_evictionOrder_iff key).mp (List.mem_of_mem_head? hhead)
  have hsession : sessionId = victim := by
    rw [← hvictim, hkey, evictionKey_session]
  subst hsession
  refine ⟨key, rest, horder, hvictim, ?_⟩
  rw [cache.evictionOrder_remove hlookup, ← hkey, horder, List.erase_cons_head]

theorem removeWithReceipt_snd (cache : PrefixCache acc) {sessionId : SessionId}
    (kind : PrefixCacheMutationKind) (h : sessionId ∈ cache.entries) :
    (cache.removeWithReceipt sessionId kind).2.toList.map (fun receipt => receipt.sessionId) =
      [sessionId] := by
  obtain ⟨hn, -⟩ | ⟨entry, -, hentry, -⟩ := cache.remove_cases sessionId
  · exact absurd h hn
  · unfold removeWithReceipt
    split
    · next hnone =>
      rw [hnone] at hentry
      cases hentry
    · rfl

theorem Evicted.nothing (room limit : Nat) (cache : PrefixCache acc) :
    Evicted room limit cache cache [] 0 :=
  ⟨rfl, rfl, rfl, Nat.zero_le _, fun k hk => absurd hk (Nat.not_lt_zero k)⟩

theorem evicted_evictUntil (kind : PrefixCacheMutationKind) (room limit fuel : Nat)
    (cache : PrefixCache acc) : ∃ count, Evicted room limit cache
      (evictUntil kind room limit fuel cache).1 (evictUntil kind room limit fuel cache).2
          count := by
  induction fuel generalizing cache with
  | zero => exact ⟨0, .nothing room limit cache⟩
  | succ fuel ih =>
    unfold evictUntil
    split
    · next hover =>
      split
      · exact ⟨0, .nothing room limit cache⟩
      · next victim hvictim =>
        obtain ⟨key, rest, horder, hkey, hrest⟩ := cache.evictionOrder_remove_victim hvictim
        dsimp only
        rw [removeWithReceipt_fst]
        obtain ⟨count, h⟩ := ih (cache.remove victim).1
        -- one more victim in front of those of the smaller cache
        have hvictims : ∀ k, cache.firstVictims (k + 1) =
            victim :: (cache.remove victim).1.firstVictims k := by
          intro k
          rw [firstVictims, horder, List.take_succ_cons, List.map_cons, hkey, firstVictims, hrest]
        refine ⟨count + 1, ?_, ?_, ?_, ?_, ?_⟩
        · rw [hvictims]
          exact h.dropped
        · rw [horder, List.drop_succ_cons, ← hrest]
          exact h.order
        · rw [List.map_append, cache.removeWithReceipt_snd kind (victim_mem hvictim), hvictims,
            h.reported]
          rfl
        · have hle := h.count_le
          rw [hrest] at hle
          rw [horder, List.length_cons]
          omega
        · intro k hk
          cases k with
          | zero => exact hover
          | succ k =>
            rw [hvictims]
            exact h.needed k (Nat.lt_of_succ_lt_succ hk)
    · exact ⟨0, .nothing room limit cache⟩

theorem evictUntil_fuel (cache : PrefixCache acc) (kind : PrefixCacheMutationKind)
    (room limit fuel : Nat) (h : cache.entryCount ≤ fuel) :
    evictUntil kind room limit fuel cache =
      evictUntil kind room limit cache.entryCount cache := by
  induction fuel generalizing cache with
  | zero => rw [Nat.le_zero.mp h]
  | succ fuel ih =>
    cases hvictim : cache.victim with
    | none =>
      have hcount : cache.entryCount = 0 := by
        have horder : cache.evictionOrder = [] := by simpa [victim] using hvictim
        rw [← cache.length_evictionOrder, horder, List.length_nil]
      rw [hcount]
      unfold evictUntil
      split
      · rw [hvictim]
      · rfl
    | some victim =>
      have hcount := entryCount_remove (victim_mem hvictim)
      obtain ⟨rounds, hrounds⟩ : ∃ rounds, cache.entryCount = rounds + 1 := ⟨_, hcount.symm⟩
      have hremoved : (cache.remove victim).1.entryCount = rounds := by omega
      have hmore := ih (cache.remove victim).1 (by omega)
      rw [hremoved] at hmore
      rw [hrounds]
      simp only [evictUntil, hvictim, removeWithReceipt_fst, hmore]

/-! ## Both loops of an insert -/

theorem dropAll_append (cache : PrefixCache acc) (sessions sessions' : List SessionId) :
    cache.dropAll (sessions ++ sessions') = (cache.dropAll sessions).dropAll sessions' :=
  List.foldl_append

theorem Evicted.trans {room limit : Nat} {cache middle final : PrefixCache acc}
    {receipts receipts' : List PrefixCacheMutation} {count count' : Nat}
    (h : Evicted 0 limit cache middle receipts count)
    (h' : Evicted room limit middle final receipts' count') :
    Evicted room limit cache final (receipts ++ receipts') (count + count') := by
  have hvictims : ∀ k, cache.firstVictims (count + k) =
      cache.firstVictims count ++ middle.firstVictims k := by
    intro k
    rw [firstVictims, firstVictims, firstVictims, h.order, List.take_add, List.map_append]
  have hafter : ∀ k, cache.dropAll (cache.firstVictims (count + k)) =
      middle.dropAll (middle.firstVictims k) := by
    intro k
    rw [hvictims, dropAll_append, ← h.dropped]
  refine ⟨?_, ?_, ?_, ?_, fun k hk => ?_⟩
  · rw [hafter]
    exact h'.dropped
  · rw [h'.order, h.order, List.drop_drop]
  · rw [List.map_append, h.reported, h'.reported, hvictims]
  · have hle := h'.count_le
    rw [h.order, List.length_drop] at hle
    have hle' := h.count_le
    omega
  · by_cases hfirst : k < count
    · exact Nat.lt_of_lt_of_le (h.needed k hfirst) (Nat.add_le_add_left (Nat.zero_le room) _)
    · obtain ⟨j, rfl⟩ := Nat.exists_eq_add_of_le (Nat.not_lt.mp hfirst)
      rw [hafter]
      exact h'.needed j (by omega)

/-- What an insert does after the session's old entry is gone: it evicts for the entry's
charge, and puts the entry in. Nothing is put in when no position fits. -/
structure Inserted (limit : Nat) (sessionId : SessionId) (replaced evicted : PrefixCache acc)
    (receipts : List PrefixCacheMutation) (count : Nat) (result : InsertResult acc) : Prop where
  evicts : ∃ room, Evicted room limit replaced evicted receipts count ∧
    (result.retainedTokens = 0 ∧ room = 0 ∧ result.cache = evicted ∨
      ∃ entry, entry.charge = room ∧ entry.positions.lastPosition = result.retainedTokens ∧
        result.cache.entries = evicted.entries.insert sessionId entry ∧
        result.cache.evictionOrder = evicted.evictionOrder.orderedInsert keyLE
          (evictionKey evicted.policy sessionId entry))

theorem inserted_insert (cache : PrefixCache acc) (sessionId : SessionId)
    (promptTokens contextTokens physicalLimit : Nat)
    (returnMetadata : Option PrefixCacheReturnMetadata) :
    ∃ evicted receipts count, Inserted (min cache.maxRetainedUnits physicalLimit) sessionId
      (cache.remove sessionId).1 evicted receipts count
      (cache.insert sessionId promptTokens contextTokens physicalLimit returnMetadata) := by
  have hlimit : min (cache.remove sessionId).1.maxRetainedUnits
      (min cache.maxRetainedUnits physicalLimit) = min cache.maxRetainedUnits physicalLimit := by
    rw [maxRetainedUnits_remove]
    omega
  obtain ⟨count, hshrunk⟩ := (cache.remove sessionId).1.evicted_evictUntil .capacityEviction 0
    (min cache.maxRetainedUnits physicalLimit) (cache.remove sessionId).1.entryCount
  have hroomed : (cache.makeRoom sessionId (min cache.maxRetainedUnits physicalLimit)).1 =
      (evictUntil .capacityEviction 0 (min cache.maxRetainedUnits physicalLimit)
        (cache.remove sessionId).1.entryCount (cache.remove sessionId).1).1 := by
    rw [makeRoom_fst, shrinkTo, hlimit]
  rw [← hroomed] at hshrunk
  simp only [insert]
  split
  · exact ⟨_, _, count, 0, hshrunk, .inl ⟨rfl, rfl, rfl⟩⟩
  · obtain ⟨count', hevicted⟩ := (cache.makeRoom sessionId
      (min cache.maxRetainedUnits physicalLimit)).1.evicted_evictUntil .replacementPolicyEviction
      (acc.entryCharge (acc.largestFitting (acc.resumePositions promptTokens contextTokens)
        (min cache.maxRetainedUnits physicalLimit)))
      (min cache.maxRetainedUnits physicalLimit)
      (cache.makeRoom sessionId (min cache.maxRetainedUnits physicalLimit)).1.entryCount
    exact ⟨_, _, count + count', _, hshrunk.trans hevicted, .inr ⟨_, rfl, rfl, rfl, rfl⟩⟩

theorem maxRetainedUnits_evictUntil (kind : PrefixCacheMutationKind) (room limit fuel : Nat)
    (cache : PrefixCache acc) :
    (evictUntil kind room limit fuel cache).1.maxRetainedUnits = cache.maxRetainedUnits :=
  evictUntil_induction (P := fun c => c.maxRetainedUnits = cache.maxRetainedUnits) _ _ _
    (fun c sessionId h => (c.maxRetainedUnits_remove sessionId).trans h) _ cache rfl

theorem maxRetainedUnits_insert (cache : PrefixCache acc) (sessionId : SessionId)
    (promptTokens contextTokens physicalLimit : Nat)
    (returnMetadata : Option PrefixCacheReturnMetadata) :
    (cache.insert sessionId promptTokens contextTokens physicalLimit
      returnMetadata).cache.maxRetainedUnits = cache.maxRetainedUnits := by
  have hroomed : (cache.makeRoom sessionId
      (min cache.maxRetainedUnits physicalLimit)).1.maxRetainedUnits = cache.maxRetainedUnits := by
    rw [makeRoom_fst, shrinkTo, maxRetainedUnits_evictUntil, maxRetainedUnits_remove]
  simp only [insert]
  split
  · exact hroomed
  · exact (maxRetainedUnits_evictUntil ..).trans hroomed

end PrefixCache

namespace PrefixCacheOp

variable {acc : KvAccounting}

theorem maxRetainedUnits_run (budget : PrefixCacheBudget) (ops : List PrefixCacheOp) :
    (run acc budget ops).1.maxRetainedUnits = min budget.maxRetainedUnits acc.capacityUnits := by
  induction ops using List.reverseRecOn with
  | nil => rfl
  | append_singleton ops op ih =>
    rw [run_concat]
    refine Eq.trans ?_ ih
    cases op with
    | take sessionId requestedTokens => exact PrefixCache.maxRetainedUnits_remove _ _
    | insert sessionId promptTokens contextTokens physicalLimit returnMetadata =>
      exact PrefixCache.maxRetainedUnits_insert ..
    | shrinkTo physicalLimit => exact PrefixCache.maxRetainedUnits_evictUntil ..

/-- After every sequence of operations both indexes of the tier agree, a shrink or an insert
drops the fewest entries of the order that leave the room it needs, within the smaller of
the configured ceiling and its limit, and no eviction loop runs longer than it has entries. -/
theorem prefix_cache_invariant (acc : KvAccounting) (budget : PrefixCacheBudget)
    (ops : List PrefixCacheOp) :
    (run acc budget ops).1.Consistent ∧
    (∀ physicalLimit, ((run acc budget ops).1.shrinkTo physicalLimit).1.usedUnits ≤
        min (min budget.maxRetainedUnits acc.capacityUnits) physicalLimit ∧
      ∃ count, PrefixCache.Evicted 0
        (min (min budget.maxRetainedUnits acc.capacityUnits) physicalLimit)
        (run acc budget ops).1 ((run acc budget ops).1.shrinkTo physicalLimit).1
        ((run acc budget ops).1.shrinkTo physicalLimit).2 count) ∧
    (∀ sessionId promptTokens contextTokens physicalLimit returnMetadata,
      ((run acc budget ops).1.insert sessionId promptTokens contextTokens physicalLimit
        returnMetadata).cache.usedUnits ≤
          min (min budget.maxRetainedUnits acc.capacityUnits) physicalLimit ∧
      ∃ evicted receipts count, PrefixCache.Inserted
        (min (min budget.maxRetainedUnits acc.capacityUnits) physicalLimit) sessionId
        ((run acc budget ops).1.remove sessionId).1 evicted receipts count
        ((run acc budget ops).1.insert sessionId promptTokens contextTokens physicalLimit
          returnMetadata)) ∧
    ∀ (cache : PrefixCache acc) (kind : PrefixCacheMutationKind) (room limit fuel : Nat),
      cache.entryCount ≤ fuel → PrefixCache.evictUntil kind room limit fuel cache =
        PrefixCache.evictUntil kind room limit cache.entryCount cache := by
  have hmax : (run acc budget ops).1.maxRetainedUnits =
      min budget.maxRetainedUnits acc.capacityUnits :=
    maxRetainedUnits_run budget ops
  rw [← hmax]
  refine ⟨(run acc budget ops).1.consistent, fun physicalLimit => ⟨?_, ?_⟩,
    fun sessionId promptTokens contextTokens physicalLimit returnMetadata => ⟨?_, ?_⟩,
    fun cache kind room limit fuel h => cache.evictUntil_fuel kind room limit fuel h⟩
  · exact PrefixCache.usedUnits_shrinkTo_le _ _
  · exact PrefixCache.evicted_evictUntil _ _ _ _ _
  · exact PrefixCache.usedUnits_insert_le ..
  · exact PrefixCache.inserted_insert ..

end PrefixCacheOp

end ServingSim
