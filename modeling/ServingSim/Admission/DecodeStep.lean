import ServingSim.Admission.DecodeCompletion
import ServingSim.Kv.StepRoom

/-
  What one decode step does to records and to the store.

  The step retires every member's tokens first and grows the KV after that, one
  operation for each number of tokens retired. Both sides agree: a member's
  decode grows by what its record was credited.
-/

namespace ServingSim

namespace DecodeCompletion

/-- A record credited with `tokens` more output tokens. -/
def retired (record : RequestRecord) (tokens : Nat) : RequestRecord :=
  let record := RequestRecord.recordToken^[tokens] record
  if record.isComplete then record.stampStage .done else record

theorem retire_self (requests : Requests) (r : RequestId) (tokens : Nat) :
    retire requests r tokens r = retired (requests r) tokens :=
  Function.update_self _ _ _

theorem retire_of_ne (requests : Requests) {r s : RequestId} (tokens : Nat) (h : s ≠ r) :
    retire requests r tokens s = requests s :=
  Function.update_of_ne h _ _

theorem recordToken_iterate (record : RequestRecord) (tokens : Nat) :
    (RequestRecord.recordToken^[tokens] record).definition = record.definition ∧
      (RequestRecord.recordToken^[tokens] record).outputTokensEmitted =
        record.outputTokensEmitted + tokens ∧
      (RequestRecord.recordToken^[tokens] record).stage = record.stage := by
  induction tokens generalizing record with
  | zero => exact ⟨rfl, rfl, rfl⟩
  | succ tokens ih =>
    obtain ⟨hdefinition, hemitted, hstage⟩ := ih record.recordToken
    rw [Function.iterate_succ_apply]
    refine ⟨hdefinition.trans record.definition_recordToken, hemitted.trans ?_, hstage.trans ?_⟩
    · rw [record.outputTokensEmitted_recordToken]
      omega
    · unfold RequestRecord.recordToken
      dsimp only
      split <;> rfl

theorem retired_spec (record : RequestRecord) (tokens : Nat) :
    (retired record tokens).definition = record.definition ∧
      (retired record tokens).outputTokensEmitted = record.outputTokensEmitted + tokens ∧
      (record.stage ≠ none → (retired record tokens).stage ≠ none) := by
  obtain ⟨hdefinition, hemitted, hstage⟩ := recordToken_iterate record tokens
  unfold retired
  dsimp only
  split
  · exact ⟨hdefinition, hemitted, fun _ => Option.some_ne_none _⟩
  · exact ⟨hdefinition, hemitted, fun h => by rwa [hstage]⟩

theorem retired_log (record : RequestRecord) (tokens : Nat) :
    (retired record tokens).outputTimes = record.outputTimes + tokens ∧
      (retired record tokens).reprocessedPrefills = record.reprocessedPrefills := by
  have hiterate : (RequestRecord.recordToken^[tokens] record).outputTimes =
        record.outputTimes + tokens ∧
      (RequestRecord.recordToken^[tokens] record).reprocessedPrefills =
        record.reprocessedPrefills := by
    induction tokens generalizing record with
    | zero => exact ⟨rfl, rfl⟩
    | succ tokens ih =>
      obtain ⟨htimes, hepisodes⟩ := ih record.recordToken
      rw [Function.iterate_succ_apply, htimes, hepisodes, record.outputTimes_recordToken,
        record.reprocessedPrefills_recordToken]
      exact ⟨by omega, rfl⟩
  unfold retired
  dsimp only
  split
  · exact hiterate
  · exact hiterate

section retire

variable {completion : DecodeCompletion} {r : RequestId} {residentKv tokens : Nat}
  {record : RequestRecord}

theorem retiredTokens_le (h : completion.retiredTokens r residentKv record = .ok tokens) :
    tokens ≤ completion.queryTokensPerRequest := by
  cases completion with
  | singleToken =>
    cases h
    exact Nat.le_refl _
  | speculative draftTokens maxModelLen accepts hpos =>
    simp only [retiredTokens, bind_eq_ok_iff] at h
    obtain ⟨-, -, h⟩ := h
    cases h
    have hrun := leadingRun_le (accepts r record.outputTokensEmitted) 0 draftTokens
    simp only [acceptedLength, queryTokensPerRequest]
    omega

theorem retiredTokens_le_remaining (hlive : 0 < record.remainingOutputTokens)
    (h : completion.retiredTokens r residentKv record = .ok tokens) :
    tokens ≤ record.remainingOutputTokens := by
  cases completion with
  | singleToken =>
    cases h
    exact hlive
  | speculative draftTokens maxModelLen accepts hpos =>
    simp only [retiredTokens, bind_eq_ok_iff] at h
    obtain ⟨-, -, h⟩ := h
    cases h
    simp only [acceptedLength]
    omega

/-- What retiring the members' tokens comes to. -/
structure Retirement (completion : DecodeCompletion) (members : List (RequestId × Nat))
    (requests final : Requests) (completed : List RequestId) (assigned : List (RequestId × Nat)) :
    Prop where
  keys : assigned.map Prod.fst = members.map Prod.fst
  other : ∀ r, r ∉ members.map Prod.fst → final r = requests r
  each : ∀ e ∈ assigned, (∃ residentKv,
      completion.retiredTokens e.1 residentKv (requests e.1) = .ok e.2) ∧
    final e.1 = retired (requests e.1) e.2
  completed : completed = (members.map Prod.fst).filter fun r => (final r).isComplete

theorem retireMembers_spec {members : List (RequestId × Nat)} {requests final : Requests}
    {completed : List RequestId} {assigned : List (RequestId × Nat)}
    (hnodup : (members.map Prod.fst).Nodup)
    (h : completion.retireMembers members requests = .ok (final, completed, assigned)) :
    Retirement completion members requests final completed assigned := by
  induction members generalizing requests final completed assigned with
  | nil =>
    cases h
    exact ⟨rfl, fun _ _ => rfl, fun e he => (List.not_mem_nil he).elim, rfl⟩
  | cons member members ih =>
    obtain ⟨request, residentKv⟩ := member
    simp only [retireMembers, bind_eq_ok_iff] at h
    obtain ⟨tokens, htokens, ⟨final', completed', assigned'⟩, hrest, h⟩ := h
    simp only [pure, Except.pure, Except.ok.injEq, Prod.mk.injEq] at h
    obtain ⟨rfl, rfl, rfl⟩ := h
    obtain ⟨hfirst, hnodup⟩ := List.nodup_cons.mp hnodup
    have hr := ih hnodup hrest
    -- the members behind the first are other requests
    have hfinal : final' request = retired (requests request) tokens :=
      (hr.other request hfirst).trans (retire_self requests request tokens)
    refine ⟨by rw [List.map_cons, List.map_cons, hr.keys], fun s hs => ?_, fun e he => ?_, ?_⟩
    · rw [List.map_cons, List.mem_cons, not_or] at hs
      exact (hr.other s hs.2).trans (retire_of_ne requests tokens hs.1)
    · rcases List.mem_cons.mp he with rfl | he
      · exact ⟨⟨residentKv, htokens⟩, hfinal⟩
      · obtain ⟨⟨kv, hkv⟩, hf⟩ := hr.each e he
        have hmem := List.mem_map_of_mem (f := Prod.fst) he
        rw [hr.keys] at hmem
        have hne : e.1 ≠ request := fun heq => hfirst (heq ▸ hmem)
        rw [retire_of_ne requests tokens hne] at hkv hf
        exact ⟨⟨kv, hkv⟩, hf⟩
    · rw [List.map_cons, List.filter_cons, ← hr.completed, hfinal, retire_self]

end retire

/-! ## Growing the KV -/

/-- What the buckets of `distances` add up to for one request. -/
def bucketTokens (assigned : List (RequestId × Nat)) (distances : List Nat) (r : RequestId) : Nat :=
  (distances.map fun tokens => if r ∈ requestBucket assigned tokens then tokens else 0).sum

theorem mem_requestBucket {assigned : List (RequestId × Nat)} {tokens : Nat} {r : RequestId} :
    r ∈ requestBucket assigned tokens ↔ (r, tokens) ∈ assigned := by
  simp only [requestBucket, List.mem_map, List.mem_filter, decide_eq_true_eq]
  constructor
  · rintro ⟨e, ⟨he, rfl⟩, rfl⟩
    exact he
  · exact fun h => ⟨_, ⟨h, rfl⟩, rfl⟩

theorem nodup_requestBucket {assigned : List (RequestId × Nat)}
    (h : (assigned.map Prod.fst).Nodup) (tokens : Nat) : (requestBucket assigned tokens).Nodup :=
  h.sublist (List.filter_sublist.map _)

theorem bucketTokens_of_mem {assigned : List (RequestId × Nat)} {r : RequestId} {tokens : Nat}
    (hnodup : (assigned.map Prod.fst).Nodup) (h : (r, tokens) ∈ assigned) {distances : List Nat}
    (hdistances : distances.Nodup) :
    bucketTokens assigned distances r = if tokens ∈ distances then tokens else 0 := by
  have hbucket : ∀ k, r ∈ requestBucket assigned k ↔ k = tokens := fun k => by
    rw [mem_requestBucket]
    refine ⟨fun hk => ?_, fun hk => hk ▸ h⟩
    exact congrArg Prod.snd (List.inj_on_of_nodup_map hnodup hk h rfl)
  induction distances with
  | nil => rfl
  | cons k distances ih =>
    obtain ⟨hk, hdistances⟩ := List.nodup_cons.mp hdistances
    have hrest := ih hdistances
    simp only [bucketTokens, hbucket, List.map_cons, List.sum_cons] at hrest ⊢
    rw [hrest]
    by_cases heq : k = tokens
    · subst heq
      simp [hk]
    · simp [heq, Ne.symm heq]

theorem bucketTokens_of_notMem {assigned : List (RequestId × Nat)} {r : RequestId}
    (h : r ∉ assigned.map Prod.fst) (distances : List Nat) :
    bucketTokens assigned distances r = 0 := by
  have hbucket : ∀ k, r ∉ requestBucket assigned k := fun k hk =>
    h (List.mem_map_of_mem (mem_requestBucket.mp hk))
  simp [bucketTokens, hbucket]

end DecodeCompletion

variable {acc : KvAccounting} {n : Nat}

/-- The store is `start` with the decodes of `p` grown by at most `width` tokens. -/
def GrownWithin (start : KvCacheStore acc n) (p : Fin n) (width : Nat)
    (store : KvCacheStore acc n) : Prop :=
  ∃ tokens : RequestId → Nat, (∀ r, tokens r ≤ width) ∧ KvCacheStore.Advanced start store p tokens

/-- An operation of a decode step: an issuable advance that keeps within the
step's width. -/
def StepOp (start : KvCacheStore acc n) (p : Fin n) (width : Nat) (store : KvCacheStore acc n)
    (op : StoreOp n) : Prop :=
  op.Issuable store ∧ (∃ scope steps, op = .advance scope steps) ∧
    GrownWithin start p width (op.apply store)

namespace DecodeCompletion

section advance

variable {p : Fin n} {assigned : List (RequestId × Nat)} {start : KvCacheStore acc n}

theorem advanceBuckets_spec (hnodup : (assigned.map Prod.fst).Nodup) {width : Nat}
    (hwidth : ∀ e ∈ assigned, e.2 ≤ width)
    (hplaced : ∀ r ∈ assigned.map Prod.fst, start.ledger.placement.lookup r = some p)
    (distances : List Nat) (hdistances : distances.Nodup) (kv : IssuedStore acc n)
    (hkv : kv.store = start) :
    IssuedStore.Issues (StepOp start p width) kv
        (distances.foldl (advanceBucket p assigned) kv) ∧
      KvCacheStore.Advanced start (distances.foldl (advanceBucket p assigned) kv).store p
        (bucketTokens assigned distances) := by
  induction distances using List.reverseRecOn with
  | nil =>
    refine ⟨.refl, ?_⟩
    rw [List.foldl_nil, hkv]
    exact KvCacheStore.advanced_refl start p
  | append_singleton distances tokens ih =>
    obtain ⟨hissues, hadvanced⟩ := ih (hdistances.sublist (List.sublist_append_left _ _))
    rw [List.foldl_append, List.foldl_cons, List.foldl_nil]
    have hsum : bucketTokens assigned (distances ++ [tokens]) = fun r =>
        bucketTokens assigned distances r +
          if r ∈ requestBucket assigned tokens then tokens else 0 := by
      funext r
      simp [bucketTokens]
    rw [advanceBucket]
    split
    · rename_i hempty
      refine ⟨hissues, ?_⟩
      rw [hsum, hempty]
      simpa using hadvanced
    · have hnext := hadvanced.advance (show AdvanceScope.Simple
        (.requestSubset p (requestBucket assigned tokens)) from nodup_requestBucket hnodup tokens)
        rfl tokens
      have hnext' : KvCacheStore.Advanced start
          (StoreOp.apply (distances.foldl (advanceBucket p assigned) kv).store
            (.advance (.requestSubset p (requestBucket assigned tokens)) tokens)) p
          (bucketTokens assigned (distances ++ [tokens])) := by
        rw [hsum]
        simpa [AdvanceScope.Covers, StoreOp.apply] using hnext
      refine ⟨.issue hissues ⟨fun r hr => ?_, ⟨_, _, rfl⟩, _, fun r => ?_, hnext'⟩, hnext'⟩
      · rw [hadvanced.ledger]
        exact hplaced r (List.mem_map_of_mem (mem_requestBucket.mp hr))
      · by_cases hr : r ∈ assigned.map Prod.fst
        · obtain ⟨e, he, rfl⟩ := List.mem_map.mp hr
          rw [bucketTokens_of_mem hnodup he hdistances]
          split
          · exact hwidth e he
          · exact Nat.zero_le _
        · rw [bucketTokens_of_notMem hr]
          exact Nat.zero_le _

theorem advanceRetired_spec (completion : DecodeCompletion) {members : List (RequestId × Nat)}
    {requests final : Requests} {completed : List RequestId} {kv : IssuedStore acc n}
    (hretired : Retirement completion members requests final completed assigned)
    (hnodup : (members.map Prod.fst).Nodup)
    (hplaced : ∀ r ∈ members.map Prod.fst, kv.store.ledger.placement.lookup r = some p) :
    ∃ tokens : RequestId → Nat,
      IssuedStore.Issues (StepOp kv.store p completion.queryTokensPerRequest) kv
        (completion.advanceRetired p assigned kv) ∧
      KvCacheStore.Advanced kv.store (completion.advanceRetired p assigned kv).store p tokens ∧
      ∀ e ∈ assigned, tokens e.1 = e.2 := by
  rw [← hretired.keys] at hnodup hplaced
  have hwidth : ∀ e ∈ assigned, e.2 ≤ completion.queryTokensPerRequest := fun e he => by
    obtain ⟨⟨kv, hkv⟩, -⟩ := hretired.each e he
    exact retiredTokens_le hkv
  cases completion with
  | singleToken =>
    have hnext := (KvCacheStore.advanced_refl kv.store p).advance
      (show AdvanceScope.Simple (.wholePartition p) from trivial) rfl 1
    refine ⟨_, .one ⟨trivial, ⟨_, _, rfl⟩, _, fun r => ?_, hnext⟩, hnext, fun e he => ?_⟩
    · simp [AdvanceScope.Covers, queryTokensPerRequest]
    · obtain ⟨⟨kv, hkv⟩, -⟩ := hretired.each e he
      have hone : 1 = e.2 := Except.ok.inj hkv
      simp [AdvanceScope.Covers, hone]
  | speculative draftTokens maxModelLen accepts hpos =>
    have hdistances : (List.range' 1 (draftTokens + 1)).Nodup := List.nodup_range'
    obtain ⟨hissues, hadvanced⟩ := advanceBuckets_spec hnodup hwidth hplaced
      _ hdistances kv rfl
    refine ⟨_, hissues, hadvanced, fun e he => ?_⟩
    have hle := hwidth e he
    rw [bucketTokens_of_mem hnodup he hdistances]
    simp only [queryTokensPerRequest] at hle
    split
    · rfl
    · rename_i hnot
      simp only [List.mem_range'_1, not_and, not_lt] at hnot
      omega

end advance

end DecodeCompletion

end ServingSim
