import ServingSim.Admission.Emissions
import ServingSim.Admission.TokenConservation
import ServingSim.Worker.SpeculativeExecution

/-
  What a speculating worker accepts for one request, over whole runs.

  A resident decode holds the KV of every token but the last one emitted, so the rows
  its next verify runs, like its draws and its remaining output, are functions of the
  tokens emitted so far. Hence the log of a request is keyed (`Drawn`): whatever else
  shares its batches, on whatever partition and under whatever policy, a verify behind
  the same number of emitted tokens retires the same number. A retraction moves the
  request past the token its recomputation emits, and no verify is drawn there.

  What is proved:
    1. `speculative_acceptance` — rows, limits and the comparison of two runs.
-/

namespace ServingSim

open KeyedTotal PendingOrderPolicy KvCacheStore Relation ChunkedPrefillWorker

/-- What a verify of a request accepts behind `emitted` tokens. -/
def acceptedAt (draftTokens maxModelLen : Nat) (accepts : RequestId → Nat → Nat → Bool)
    (r : RequestId) (record : RequestRecord) (emitted : Nat) : Nat :=
  acceptedLength (accepts r emitted) draftTokens (record.targetOutputTokens - emitted)
    (verifyQueryLen (record.promptTokens + record.session.declaredPrefixTokens + emitted - 1)
      draftTokens maxModelLen)

/-- A log with the record it belongs to: it adds up to what was emitted, each verify is keyed,
and there is a prefill for the first token and for each recomputation that is over. -/
structure Drawn (accepted : Nat → Nat) (record : RequestRecord) (log : List Emission) : Prop where
  emitted : emittedTokens log = record.outputTokensEmitted
  keyed : Keyed accepted 0 log
  first : log = [] ∨ log.head? = some .prefilled
  prefills : log.count .prefilled = min record.outputTokensEmitted 1 +
    record.reprocessedPrefills.countP fun episode => episode.completed

section records

variable {accepted : Nat → Nat} {record record' : RequestRecord} {log : List Emission}

theorem Drawn.of_same (h : Drawn accepted record log)
    (hemitted : record'.outputTokensEmitted = record.outputTokensEmitted)
    (hepisodes : record'.reprocessedPrefills.countP (fun episode => episode.completed) =
      record.reprocessedPrefills.countP fun episode => episode.completed) :
    Drawn accepted record' log := by
  refine ⟨?_, h.keyed, h.first, ?_⟩
  · rw [hemitted]
    exact h.emitted
  · rw [hemitted, hepisodes]
    exact h.prefills

theorem RequestRecord.Fresh.drawn (h : record.Fresh) : Drawn accepted record [] := by
  rw [h]
  exact ⟨rfl, trivial, .inl rfl, rfl⟩

theorem Drawn.nonempty (h : Drawn accepted record log)
    (hpositive : 0 < record.outputTokensEmitted) :
    log.head? = some .prefilled := by
  rcases h.first with rfl | hfirst
  · have hemitted := h.emitted
    rw [emittedTokens_nil] at hemitted
    omega
  · exact hfirst

theorem Drawn.verified (h : Drawn accepted record log) {tokens : Nat}
    (hpositive : 0 < record.outputTokensEmitted)
    (hkey : tokens = accepted record.outputTokensEmitted) :
    Drawn accepted (DecodeCompletion.retired record tokens) (log ++ [.verified tokens]) := by
  obtain ⟨-, hemitted, -⟩ := DecodeCompletion.retired_spec record tokens
  obtain ⟨-, hepisodes⟩ := DecodeCompletion.retired_log record tokens
  have hsum := h.emitted
  have hcount := h.prefills
  have hfirst := h.nonempty hpositive
  refine ⟨?_, keyed_append.mpr ⟨h.keyed, ?_, trivial⟩, .inr ?_, ?_⟩
  · rw [emittedTokens_append, emittedTokens_singleton, hemitted, hsum]
    rfl
  · rw [Nat.zero_add, hsum]
    exact hkey
  · rw [List.head?_append, hfirst]
    rfl
  · have hnone : [Emission.verified tokens].count .prefilled = 0 := rfl
    rw [List.count_append, hnone, hcount, hepisodes, hemitted]
    omega

theorem Drawn.recordChunk (h : Drawn accepted record log) {reprocessed finished : Bool}
    {chunkTokens : Nat} (hfirst : reprocessed = false → record.outputTokensEmitted = 0)
    (hagain : reprocessed = true → 0 < record.outputTokensEmitted)
    (hrecord : recordChunk reprocessed finished chunkTokens record = .ok record') :
    Drawn accepted record' (log ++ if finished then [.prefilled] else []) := by
  have hsum := h.emitted
  have hcount := h.prefills
  have hhead : (log ++ [Emission.prefilled]).head? = some .prefilled := by
    rcases h.first with rfl | hhead
    · rfl
    · rw [List.head?_append, hhead]
      rfl
  have hkeyed : Keyed accepted 0 (log ++ [.prefilled]) := keyed_append.mpr ⟨h.keyed, trivial⟩
  have hone : [Emission.prefilled].count .prefilled = 1 := rfl
  cases reprocessed with
  | false =>
    cases finished with
    | false =>
      obtain rfl := Except.ok.inj hrecord
      simp only [Bool.false_eq_true, if_false, List.append_nil]
      exact h.of_same rfl rfl
    | true =>
      -- its first token
      obtain rfl := Except.ok.inj hrecord
      have hzero := hfirst rfl
      simp only [if_true]
      refine ⟨?_, hkeyed, .inr hhead, ?_⟩
      · rw [emittedTokens_append, emittedTokens_singleton, hsum, hzero]
        rfl
      · rw [List.count_append, hone, hcount, hzero]
        simp [RequestRecord.stampStage, RequestRecord.recordFirstToken, Nat.add_comm]
  | true =>
    obtain ⟨last, hlast, hopen, -, hemitted, -, hepisodes⟩ := recordChunk_reprocessed hrecord
    have hpositive := hagain rfl
    -- the open episode is not counted before; it is once it is over
    have hbefore : record.reprocessedPrefills.countP (fun episode => episode.completed) =
        record.reprocessedPrefills.dropLast.countP fun episode => episode.completed := by
      conv_lhs => rw [← List.dropLast_append_getLast? last hlast, List.countP_append]
      simp [hopen]
    have hafter : record'.reprocessedPrefills.countP (fun episode => episode.completed) =
        record.reprocessedPrefills.countP (fun episode => episode.completed) +
          if finished then 1 else 0 := by
      rw [hepisodes, List.countP_append, hbefore]
      cases finished <;> rfl
    cases finished with
    | false =>
      simp only [Bool.false_eq_true, if_false, List.append_nil] at hemitted hafter ⊢
      exact h.of_same hemitted hafter
    | true =>
      simp only [if_true] at hemitted hafter ⊢
      refine ⟨?_, hkeyed, .inr hhead, ?_⟩
      · rw [emittedTokens_append, emittedTokens_singleton, hsum, hemitted]
        rfl
      · rw [List.count_append, hone, hcount, hafter, hemitted]
        omega

theorem acceptedAt_congr {draftTokens maxModelLen : Nat} {accepts : RequestId → Nat → Nat → Bool}
    {r : RequestId} (h : record'.definition = record.definition) :
    acceptedAt draftTokens maxModelLen accepts r record' =
      acceptedAt draftTokens maxModelLen accepts r record := by
  obtain ⟨hprompt, htarget, hsession⟩ := RequestRecord.prompt_of_definition h
  funext emitted
  simp only [acceptedAt, hprompt, htarget, hsession]

end records

/-! ## Decode steps -/

namespace DecodeCompletion

theorem retireMembers_resident {completion : DecodeCompletion} {members : List (RequestId × Nat)}
    {requests final : Requests} {completed : List RequestId} {assigned : List (RequestId × Nat)}
    (hnodup : (members.map Prod.fst).Nodup)
    (h : completion.retireMembers members requests = .ok (final, completed, assigned)) :
    ∀ e ∈ assigned, ∃ residentKv, (e.1, residentKv) ∈ members ∧
      completion.retiredTokens e.1 residentKv (requests e.1) = .ok e.2 := by
  induction members generalizing requests final completed assigned with
  | nil =>
    cases h
    exact fun e he => (List.not_mem_nil he).elim
  | cons member members ih =>
    obtain ⟨request, residentKv⟩ := member
    simp only [retireMembers, bind_eq_ok_iff] at h
    obtain ⟨tokens, htokens, ⟨final', completed', assigned'⟩, hrest, h⟩ := h
    simp only [pure, Except.pure, Except.ok.injEq, Prod.mk.injEq] at h
    obtain ⟨rfl, rfl, rfl⟩ := h
    obtain ⟨hfirst, hnodup⟩ := List.nodup_cons.mp hnodup
    intro e he
    rcases List.mem_cons.mp he with rfl | he
    · exact ⟨residentKv, List.mem_cons_self, htokens⟩
    · obtain ⟨kv, hkv, hretired⟩ := ih hnodup hrest e he
      -- the members behind the first are other requests
      have hmem := List.mem_map_of_mem (f := Prod.fst) hkv
      have hne : e.1 ≠ request := fun heq => hfirst (heq ▸ hmem)
      rw [retire_of_ne requests tokens hne] at hretired
      exact ⟨kv, List.mem_cons_of_mem _ hkv, hretired⟩

variable {acc : KvAccounting} {n : Nat} {p : Fin n} {assigned : List (RequestId × Nat)}

theorem advanceBuckets_emissions (distances : List Nat) (kv : IssuedStore acc n) (r : RequestId) :
    (distances.foldl (advanceBucket p assigned) kv).emissions r = kv.emissions r ++
      (distances.filter fun tokens => r ∈ requestBucket assigned tokens).map .verified := by
  induction distances using List.reverseRecOn with
  | nil => exact (List.append_nil _).symm
  | append_singleton distances tokens ih =>
    rw [List.foldl_append, List.foldl_cons, List.foldl_nil, List.filter_append, List.map_append,
      ← List.append_assoc, ← ih]
    unfold advanceBucket
    by_cases hr : r ∈ requestBucket assigned tokens
    · rw [if_neg (List.ne_nil_of_mem hr), IssuedStore.emissions_issue]
      simp [StoreOp.emission, hr]
    · have hnone : [tokens].filter (fun tokens => r ∈ requestBucket assigned tokens) = [] := by
        simp [hr]
      rw [hnone, List.map_nil, List.append_nil]
      split
      · rfl
      · exact IssuedStore.emissions_issue_of_none _ (if_neg hr)

theorem buckets_of_mem {r : RequestId} {tokens : Nat}
    (hnodup : (assigned.map Prod.fst).Nodup) (h : (r, tokens) ∈ assigned) {distances : List Nat}
    (hdistances : distances.Nodup) (htokens : tokens ∈ distances) :
    (distances.filter fun k => r ∈ requestBucket assigned k) = [tokens] := by
  have hbucket : ∀ k, r ∈ requestBucket assigned k ↔ k = tokens := fun k => by
    rw [mem_requestBucket]
    refine ⟨fun hk => ?_, fun hk => hk ▸ h⟩
    exact congrArg Prod.snd (List.inj_on_of_nodup_map hnodup hk h rfl)
  simp only [hbucket]
  rw [List.filter_eq, List.count_eq_one_of_mem hdistances htokens]
  rfl

end DecodeCompletion

/-! ## Runs -/

section runs

variable {P : Type} [PendingOrderPolicy P] {acc : KvAccounting} {n : Nat}
  {cfg : ChunkedPrefillConfig n} {w w' : ChunkedPrefillWorker P acc n} {r : RequestId} {p : Fin n}
  {draftTokens maxModelLen : Nat} {accepts : RequestId → Nat → Nat → Bool}

/-- Every request's log is keyed. -/
def DrawnAll (draftTokens maxModelLen : Nat) (accepts : RequestId → Nat → Nat → Bool)
    (w : ChunkedPrefillWorker P acc n) : Prop :=
  ∀ r, Drawn (acceptedAt draftTokens maxModelLen accepts r (w.requests r)) (w.requests r)
    (w.kv.emissions r)

omit [PendingOrderPolicy P] in
/-- A turn that emits nothing for a request keeps its log where it keeps its account. -/
theorem DrawnAll.kept (h : DrawnAll draftTokens maxModelLen accepts w)
    (hsame : SameAccount (w.requests r) (w'.requests r))
    (hlog : w'.kv.emissions r = w.kv.emissions r) :
    Drawn (acceptedAt draftTokens maxModelLen accepts r (w'.requests r)) (w'.requests r)
      (w'.kv.emissions r) := by
  rw [hlog, acceptedAt_congr hsame.definition]
  refine (h r).of_same hsame.emitted ?_
  rw [hsame.episodes]

theorem sameAccount_update {record : RequestRecord} {requests : Requests} (q r : RequestId)
    (h : SameAccount (requests q) record) :
    SameAccount (requests r) (Function.update requests q record r) := by
  by_cases hr : r = q
  · subst hr
    rw [Function.update_self]
    exact h
  · rw [Function.update_of_ne hr]
    exact SameAccount.refl _

omit [PendingOrderPolicy P] in
theorem mem_decodeMembers {residentKv : Nat}
    (h : (r, residentKv) ∈ (w.store.partitions p).decodeMembers) :
    ∃ state, w.store.decodeOf p r = some state ∧ state.currentKv = residentKv := by
  obtain ⟨e, he, heq⟩ := List.mem_map.mp h
  obtain ⟨rfl, rfl⟩ := Prod.ext_iff.mp heq
  refine ⟨e.2, ?_, rfl⟩
  rw [KvCacheStore.decodeOf, SlotList.get?_eq_some_iff]
  exact (List.mem_filter.mp he).1

variable {draft_pos : draftTokens > 0}

theorem retired_eq_acceptedAt (hlocated : Located cfg w) {residentKv tokens : Nat}
    (hmember : (r, residentKv) ∈ (w.store.partitions p).decodeMembers)
    (hretired : (DecodeCompletion.speculative draftTokens maxModelLen accepts
        draft_pos).retiredTokens
      r residentKv (w.requests r) = .ok tokens) :
    0 < (w.requests r).outputTokensEmitted ∧
      tokens = acceptedAt draftTokens maxModelLen accepts r (w.requests r)
        (w.requests r).outputTokensEmitted := by
  obtain ⟨state, hstate, hkv⟩ := mem_decodeMembers hmember
  obtain ⟨state', hstate', hin⟩ :=
    (hlocated.at_resident (hlocated.resident_of_decode hstate)).progress
  obtain rfl : state = state' := Option.some.inj (hstate.symm.trans hstate')
  simp only [DecodeCompletion.retiredTokens, bind_eq_ok_iff] at hretired
  obtain ⟨-, -, hretired⟩ := hretired
  obtain rfl := Except.ok.inj hretired
  -- the decode holds the KV of every token but the last one emitted
  have hcurrent : residentKv = (w.requests r).promptTokens +
      (w.requests r).session.declaredPrefixTokens + (w.requests r).outputTokensEmitted - 1 := by
    have hfull : state.currentKv + 1 = (w.requests r).promptTokens +
      (w.requests r).session.declaredPrefixTokens + (w.requests r).outputTokensEmitted :=
      hin.currentKv
    omega
  refine ⟨hin.emitted, ?_⟩
  rw [hcurrent]
  rfl

theorem drawn_decoded
    (hcompletion : cfg.decodeCompletion = .speculative draftTokens maxModelLen accepts draft_pos)
    {completed : List RequestId} (hlocated : Located cfg w)
    (hstep : w.completeDecodesOn cfg p = .ok (w', completed))
    (h : DrawnAll draftTokens maxModelLen accepts w) :
    DrawnAll draftTokens maxModelLen accepts w' := by
  simp only [ChunkedPrefillWorker.completeDecodesOn] at hstep
  split at hstep
  case isFalse =>
    cases hstep
    exact h
  case isTrue =>
  rw [hcompletion] at hstep
  simp only [DecodeCompletion.completeDecodes, bind_eq_ok_iff] at hstep
  obtain ⟨⟨kv, final', done'⟩, ⟨⟨final, done, assigned⟩, hmembers, hkv⟩, hw⟩ := hstep
  simp only [pure, Except.pure, Except.ok.injEq, Prod.mk.injEq] at hkv hw
  obtain ⟨rfl, rfl, rfl⟩ := hkv
  obtain ⟨rfl, rfl⟩ := hw
  have hnodup : ((w.kv.store.partitions p).decodeMembers.map Prod.fst).Nodup :=
    (members_eq w p).symm ▸ nodup_decodeStates w p
  have hretired := DecodeCompletion.retireMembers_spec hnodup hmembers
  have hresident := DecodeCompletion.retireMembers_resident hnodup hmembers
  have hkeys : (assigned.map Prod.fst).Nodup := hretired.keys ▸ hnodup
  have hdistances : (List.range' 1 (draftTokens + 1)).Nodup := List.nodup_range'
  intro s
  have hlog := @DecodeCompletion.advanceBuckets_emissions _ _ p assigned
    (List.range' 1 (draftTokens + 1)) w.kv s
  show Drawn (acceptedAt draftTokens maxModelLen accepts s (final s)) (final s)
    (((List.range' 1 (draftTokens + 1)).foldl (DecodeCompletion.advanceBucket p assigned)
      w.kv).emissions s)
  rw [hlog]
  by_cases hs : s ∈ assigned.map Prod.fst
  · obtain ⟨e, he, rfl⟩ := List.mem_map.mp hs
    obtain ⟨residentKv, hmember, htokens⟩ := hresident e he
    obtain ⟨hpositive, hkey⟩ := retired_eq_acceptedAt hlocated hmember htokens
    have hwidth := DecodeCompletion.retiredTokens_le htokens
    have hfinal := (hretired.each e he).2
    obtain ⟨hdefinition, hemitted, -⟩ := DecodeCompletion.retired_spec (w.requests e.1) e.2
    obtain ⟨-, hepisodes⟩ := DecodeCompletion.retired_log (w.requests e.1) e.2
    rw [hfinal, acceptedAt_congr hdefinition]
    by_cases hzero : e.2 = 0
    · -- nothing accepted: no bucket is advanced for it
      have hnone : ((List.range' 1 (draftTokens + 1)).filter fun tokens =>
          e.1 ∈ DecodeCompletion.requestBucket assigned tokens) = [] := by
        rw [List.filter_eq_nil_iff]
        intro tokens htokens' hbucket
        have hin := DecodeCompletion.mem_requestBucket.mp (of_decide_eq_true hbucket)
        have heq : tokens = e.2 :=
          congrArg Prod.snd (List.inj_on_of_nodup_map hkeys hin he rfl)
        rw [List.mem_range'_1] at htokens'
        omega
      rw [hnone, List.map_nil, List.append_nil]
      exact (h e.1).of_same (by rw [hemitted, hzero, Nat.add_zero]) (by rw [hepisodes])
    · have hmem : e.2 ∈ List.range' 1 (draftTokens + 1) := by
        rw [List.mem_range'_1]
        simp only [DecodeCompletion.queryTokensPerRequest] at hwidth
        omega
      rw [DecodeCompletion.buckets_of_mem hkeys he hdistances hmem]
      exact (h e.1).verified hpositive hkey
  · -- no member: neither the record nor the log changes
    have hnone : ((List.range' 1 (draftTokens + 1)).filter fun tokens =>
        s ∈ DecodeCompletion.requestBucket assigned tokens) = [] := by
      rw [List.filter_eq_nil_iff]
      intro tokens _ hbucket
      exact hs (List.mem_map_of_mem (f := Prod.fst)
        (DecodeCompletion.mem_requestBucket.mp (of_decide_eq_true hbucket)))
    rw [hnone, List.map_nil, List.append_nil, hretired.other s (hretired.keys ▸ hs)]
    exact h s

theorem drawn_prefilled {completed completed' : List RequestId} (hlocated : Located cfg w)
    (hadmitted : r ∈ (w.store.partitions p).prefillAdmits)
    (hstep : completePrefill p (w, completed) r = .ok (w', completed'))
    (h : DrawnAll draftTokens maxModelLen accepts w) :
    DrawnAll draftTokens maxModelLen accepts w' := by
  have hchunk := hlocated.completePrefill hadmitted hstep
  obtain ⟨reprocessed, context, after, record, hepisode, -, -, hrecord, hfinal⟩ :=
    completePrefill_spec hstep
  obtain ⟨c, hat⟩ := hlocated.at_chunked hchunk.before
  have hfits : c.Fits (w.requests r) := hat.progress.1
  have hretracted : reprocessed = c.retracted := Option.some.inj (hepisode.symm.trans hat.episode)
  have hself : (Function.update w.requests r record) r = record := Function.update_self ..
  have hdrawn := (h r).recordChunk (fun hfresh => hfits.first (hretracted.symm.trans hfresh))
    (fun hagain => (hfits.again (hretracted.symm.trans hagain)).1) hrecord
  have hdefinition := (recordChunk_spec hrecord).1
  intro s
  by_cases hs : s = r
  · subst hs
    by_cases hdone : after.remainingPrefillTokens = 0
    · rw [if_pos hdone] at hfinal
      obtain ⟨rfl, -⟩ := hfinal
      have hlog : (startedDecode (w.issue (.completePrefillChunk s)) p s record).kv.emissions s =
          w.kv.emissions s ++ [.prefilled] := by
        show ((w.kv.issue (.completePrefillChunk s)).issue
          (.finishChunkedPrefill s p record.remainingOutputTokens)).emissions s = _
        rw [IssuedStore.emissions_issue, IssuedStore.emissions_issue_of_none _ rfl]
        simp [StoreOp.emission]
      rw [hlog]
      show Drawn (acceptedAt draftTokens maxModelLen accepts s
        (Function.update w.requests s record s)) (Function.update w.requests s record s) _
      rw [hself, acceptedAt_congr hdefinition]
      rw [decide_eq_true hdone, if_pos rfl] at hdrawn
      exact hdrawn
    · rw [if_neg hdone] at hfinal
      obtain ⟨rfl, -⟩ := hfinal
      have hlog : (w.kv.issue (.completePrefillChunk s)).emissions s = w.kv.emissions s :=
        IssuedStore.emissions_issue_of_none _ rfl
      show Drawn (acceptedAt draftTokens maxModelLen accepts s
        (Function.update w.requests s record s)) (Function.update w.requests s record s)
        ((w.kv.issue (.completePrefillChunk s)).emissions s)
      rw [hlog, hself, acceptedAt_congr hdefinition]
      rw [decide_eq_false hdone] at hdrawn
      simpa using hdrawn
  · -- another request: its record stays, and neither operation is about it
    refine h.kept ?_ ?_
    · rw [(hchunk.other hs).2]
      exact SameAccount.refl _
    · by_cases hdone : after.remainingPrefillTokens = 0
      · rw [if_pos hdone] at hfinal
        obtain ⟨rfl, -⟩ := hfinal
        have hne : StoreOp.emission s (.finishChunkedPrefill r p record.remainingOutputTokens) =
            none := if_neg (Ne.symm hs)
        exact (IssuedStore.emissions_issue_of_none _ hne).trans
          (IssuedStore.emissions_issue_of_none _ rfl)
      · rw [if_neg hdone] at hfinal
        obtain ⟨rfl, -⟩ := hfinal
        exact IssuedStore.emissions_issue_of_none _ rfl

theorem drawn_invariant
    (hcompletion : cfg.decodeCompletion = .speculative draftTokens maxModelLen accepts draft_pos) :
    TurnInvariant cfg
      (DrawnAll draftTokens maxModelLen accepts : ChunkedPrefillWorker P acc n → Prop) where
  frame := fun _ _ _ _ h => h
  making := by
    intro config stepTokens w w' hstep _ _ h s
    cases hstep with
    | prepare q =>
      exact h.kept (SameAccount.refl _) (IssuedStore.emissions_issue_of_none _ rfl)
    | retract q victim live =>
      obtain ⟨c, f, record, -, -, -, -, -, -, hrecord, hw⟩ :=
        requeueRetracted_spec (w.issue (.release victim q)) q victim config.retractionPolicy
      rw [hw]
      have hsame : SameAccount (w.requests victim) record := by
        rw [hrecord]
        exact ⟨rfl, rfl, rfl, rfl⟩
      exact h.kept (sameAccount_update victim s hsame)
        (IssuedStore.emissions_issue_of_none w.kv rfl)
    | ratio x => exact h s
  forming := by
    intro t t' hstep _ h s
    cases hstep with
    | chunk => exact h.kept (SameAccount.refl _) (IssuedStore.emissions_issue_of_none _ rfl)
    | refresh q => exact h s
    | @admitted q budget chunkBudget left slots slots' a worker available windows room gate claimed
        entered spent =>
      obtain ⟨record, hrecord, rfl⟩ := admitHead_spec entered
      obtain ⟨hdefinition, hemitted, -, hepisodes⟩ := admittedRecord_spec hrecord
      have hlog : ((reservedWorker t.worker q a (record.stampStage .prefill)).issue
          (.schedulePrefillChunk a.candidate.requestId q a.chunkTokens)).kv.emissions s =
          t.worker.kv.emissions s :=
        (IssuedStore.emissions_issue_of_none _ rfl).trans
          (IssuedStore.emissions_issue_of_none _ rfl)
      by_cases hs : s = a.candidate.requestId
      · subst hs
        have hself : (Function.update t.worker.requests a.candidate.requestId
            (record.stampStage .prefill)) a.candidate.requestId = record.stampStage .prefill :=
          Function.update_self ..
        -- the episode a retracted head opens is not over
        have hopened : record.reprocessedPrefills.countP (fun episode => episode.completed) =
            (t.worker.requests a.candidate.requestId).reprocessedPrefills.countP
              fun episode => episode.completed := by
          rw [hepisodes, List.countP_append]
          split <;> rfl
        have hkept : Drawn _ (record.stampStage .prefill) _ :=
          (h a.candidate.requestId).of_same hemitted hopened
        have hstamped : (record.stampStage .prefill).definition = record.definition := rfl
        rw [← acceptedAt_congr (hstamped.trans hdefinition), ← hself, ← hlog] at hkept
        exact hkept
      · have hother : (Function.update t.worker.requests a.candidate.requestId
            (record.stampStage .prefill)) s = t.worker.requests s := Function.update_of_ne hs ..
        refine h.kept ?_ hlog
        exact (congrArg (SameAccount (t.worker.requests s)) hother).mpr (SameAccount.refl _)
  completing := by
    intro p w w' hstep hlocated h
    cases hstep with
    | decoded step => exact drawn_decoded hcompletion hlocated step h
    | prefilled admitted step => exact drawn_prefilled hlocated admitted step h
    | cleared =>
      intro s
      exact h.kept (SameAccount.refl _) (IssuedStore.emissions_issue_of_none _ rfl)
    | finished =>
      intro s
      exact h.kept (SameAccount.refl _) (IssuedStore.emissions_issue_of_none _ rfl)
  enqueued := by
    intro r w w' hstep _ h s
    obtain ⟨q, c, sequence, balance, -, -, -, -, -, rfl⟩ := acceptMessage_spec hstep
    exact h.kept (sameAccount_update r s ⟨rfl, rfl, rfl, rfl⟩) rfl
  released := by
    intro r w _ h s
    rcases releaseRequest_cases w r with ⟨q, -, hw⟩ | ⟨-, episodes, -, hw⟩
    · rw [hw]
      exact h s
    · rw [hw]
      exact h.kept (SameAccount.refl _) (IssuedStore.emissions_issue_of_none w.kv rfl)

theorem Reached.drawn (h : Reached cfg w)
    (hcompletion : cfg.decodeCompletion = .speculative draftTokens maxModelLen accepts draft_pos) :
    DrawnAll draftTokens maxModelLen accepts w := by
  have hall : _ ∧ DrawnAll draftTokens maxModelLen accepts w := h.invariant
    (fun budget requests policies balance hrequests _ r => (hrequests r).drawn)
    fun w op w' hsettled hw hop hstep => (drawn_invariant hcompletion).step hsettled hw hop hstep
  exact hall.2

end runs

/-! ## Acceptance -/

/-- No verify of a log passed the request's output or, with what was resident, the model's
length. -/
def StaysWithin (maxModelLen : Nat) (record : RequestRecord) (log : List Emission) : Prop :=
  ∀ earlier tokens later, log = earlier ++ .verified tokens :: later →
    let residentKv := record.promptTokens + record.session.declaredPrefixTokens +
      emittedTokens earlier - 1
    tokens ≤ record.targetOutputTokens - emittedTokens earlier ∧
      residentKv + tokens ≤ max residentKv (maxModelLen - 1)

/-- Two logs of one request. -/
structure SameAcceptance (log log' : List Emission) : Prop where
  /-- Verifies behind the same number of emitted tokens accept the same number. -/
  at_progress : ∀ earlier tokens later earlier' tokens' later',
    log = earlier ++ .verified tokens :: later → log' = earlier' ++ .verified tokens' :: later' →
    emittedTokens earlier = emittedTokens earlier' → tokens = tokens'
  /-- As long as both prefill and verify in the same order, all they accept is the same. -/
  in_order : log.map Emission.isPrefill <+: log'.map Emission.isPrefill → log <+: log'

theorem Drawn.staysWithin {draftTokens maxModelLen : Nat}
    {accepts : RequestId → Nat → Nat → Bool} {r : RequestId} {record : RequestRecord}
    {log : List Emission}
    (h : Drawn (acceptedAt draftTokens maxModelLen accepts r record) record log) :
    StaysWithin maxModelLen record log := by
  intro earlier tokens later hlog residentKv
  have hkeyed := h.keyed
  rw [hlog] at hkeyed
  have htokens := hkeyed.eq_at
  have hrows := resident_add_verifyQueryLen_le residentKv draftTokens maxModelLen
  simp only [acceptedAt, acceptedLength] at htokens
  change tokens = min (min _ _) (verifyQueryLen residentKv draftTokens maxModelLen) at htokens
  omega

theorem Drawn.sameAcceptance {accepted : Nat → Nat} {record record' : RequestRecord}
    {log log' : List Emission} (h : Drawn accepted record log) (h' : Drawn accepted record' log') :
    SameAcceptance log log' := by
  refine ⟨?_, h.keyed.prefix_of_kinds h'.keyed⟩
  intro earlier tokens later earlier' tokens' later' hlog hlog' hsame
  have hkeyed := h.keyed
  have hkeyed' := h'.keyed
  rw [hlog] at hkeyed
  rw [hlog'] at hkeyed'
  rw [hkeyed.eq_at, hkeyed'.eq_at, hsame]

theorem Drawn.kinds {accepted : Nat → Nat} {record : RequestRecord} {log : List Emission}
    (h : Drawn accepted record log) (honce : record.reprocessedPrefills = []) :
    log = [] ∨ ∃ verifies, log.map Emission.isPrefill = true :: List.replicate verifies false := by
  refine kinds_of_single h.first ?_
  rw [h.prefills, honce, List.countP_nil]
  omega

/-- Speculative acceptance stays inside the model's length and does not depend on batching.
The two runs may differ in everything but the draft length, the model's length, the seed, and
the request with its acceptance rates. -/
theorem speculative_acceptance {P P' : Type} [PendingOrderPolicy P] [PendingOrderPolicy P']
    {acc acc' : KvAccounting} {n n' : Nat} {cfg : ChunkedPrefillConfig n}
    {cfg' : ChunkedPrefillConfig n'} {w : ChunkedPrefillWorker P acc n}
    {w' : ChunkedPrefillWorker P' acc' n'} {draftTokens maxModelLen : Nat}
    {seed : SplitMix.Word} {rates rates' : RequestId → Nat → ℚ} {draft_pos : draftTokens > 0}
    (hcompletion : cfg.decodeCompletion =
      speculativeCompletion draftTokens maxModelLen seed rates draft_pos)
    (hcompletion' : cfg'.decodeCompletion =
      speculativeCompletion draftTokens maxModelLen seed rates' draft_pos)
    (hreached : Reached cfg w) (hreached' : Reached cfg' w') {r : RequestId}
    (hrates : rates r = rates' r)
    (hdefinition : (w'.requests r).definition = (w.requests r).definition) :
    (∀ input, w.speculativeInput draftTokens maxModelLen = .ok input →
      ∀ group ∈ input.groups, ∀ row ∈ group.decodeRequests,
        row.checkVerifyRow draftTokens maxModelLen =
          .ok (decide (row.queryLen < draftTokens + 1))) ∧
    (∀ s residentKv record tokens,
      cfg.decodeCompletion.retiredTokens s residentKv record = .ok tokens →
        tokens ≤ record.remainingOutputTokens ∧
        tokens ≤ verifyQueryLen residentKv draftTokens maxModelLen ∧
        residentKv + tokens ≤ max residentKv (maxModelLen - 1)) ∧
    emittedTokens (w.kv.emissions r) = (w.requests r).outputTokensEmitted ∧
    StaysWithin maxModelLen (w.requests r) (w.kv.emissions r) ∧
    SameAcceptance (w.kv.emissions r) (w'.kv.emissions r) ∧
    ((w.requests r).reprocessedPrefills = [] → (w'.requests r).reprocessedPrefills = [] →
      w.kv.emissions r <+: w'.kv.emissions r ∨ w'.kv.emissions r <+: w.kv.emissions r) := by
  have hdrawn := hreached.drawn hcompletion r
  have hdrawn' := hreached'.drawn hcompletion' r
  -- both logs have one key
  have hkey : acceptedAt draftTokens maxModelLen
      (fun request emitted position => bernoulli seed request emitted position
        (rates' request position)) r (w'.requests r) =
      acceptedAt draftTokens maxModelLen
        (fun request emitted position => bernoulli seed request emitted position
          (rates request position)) r (w.requests r) := by
    rw [acceptedAt_congr hdefinition]
    funext emitted
    simp only [acceptedAt, hrates]
  rw [hkey] at hdrawn'
  refine ⟨fun input hinput => speculativeInput_rows hinput, ?_, hdrawn.emitted,
    hdrawn.staysWithin, hdrawn.sameAcceptance hdrawn', fun honce honce' => ?_⟩
  · intro s residentKv record tokens hretired
    rw [hcompletion] at hretired
    exact retiredTokens_le_limits hretired
  · exact hdrawn.keyed.prefix_or_prefix hdrawn'.keyed (hdrawn.kinds honce) (hdrawn'.kinds honce')

theorem threeDrafts_pos : 3 > 0 := by decide

theorem retractingEngine_cap : retractingEngine.maxBatchTokens > 0 :=
  retractingEngine.maxBatchTokens_pos

theorem retractingEngine_onePartition : ∀ config,
    retractingEngine.kvAdmission = .boundedFuture config → 1 = 1 := retractingEngine.onePartition

theorem retractingEngine_quantum : ∀ alignment ∈ retractingEngine.chunkEndAlignment,
    alignment.quantum > 0 := retractingEngine.quantum_pos

/-- An engine that drafts three tokens and takes contexts of up to 22. -/
def draftingEngine (rates : RequestId → Nat → ℚ) : ChunkedPrefillConfig 1 :=
  { retractingEngine with
    decodeCompletion := speculativeCompletion 3 22 12345 rates threeDrafts_pos
    maxBatchTokens_pos := retractingEngine_cap
    partitions_pos := Nat.one_pos
    onePartition := retractingEngine_onePartition
    quantum_pos := retractingEngine_quantum }

/-- Half of the drafts of every request are accepted. -/
def evenRates : RequestId → Nat → ℚ := fun _ _ => 1 / 2

/-- The neighbour's drafts are all accepted. -/
def sureNeighbour : RequestId → Nat → ℚ := fun request _ => if request = 2 then 1 else 1 / 2

/-- A request of twelve tokens with ten to emit, once alone and once joining a neighbour. -/
theorem speculative_acceptance_neighbour :
    ∃ w w' : ChunkedPrefillWorker PendingOrder (KvAccounting.tokensForTest 100 (by decide)) 1,
      (w.kv.emissions 1 = [.prefilled, .verified 2, .verified 1, .verified 1, .verified 1] ∧
        w'.kv.emissions 1 = [.prefilled, .verified 2, .verified 1, .verified 1] ∧
        w'.kv.emissions 2 = [.prefilled, .verified 4, .verified 4, .verified 1]) ∧
      SameAcceptance (w.kv.emissions 1) (w'.kv.emissions 1) := by
  have halone : ∃ w : ChunkedPrefillWorker PendingOrder
      (KvAccounting.tokensForTest 100 (by decide)) 1,
      Run.tryRun (WorkerOp.step (draftingEngine evenRates))
        (ChunkedPrefillWorker.new (draftingEngine evenRates) .disabled
          (fun r => .fromRequest r 0 12 10 .standalone) (fun _ => .new .fifo) .single)
        [.enqueue 1, .formBatch, .completeIteration, .formBatch, .completeIteration,
          .formBatch, .completeIteration, .formBatch, .completeIteration, .formBatch,
          .completeIteration] = .ok w ∧
      decide (w.kv.emissions 1 = [.prefilled, .verified 2, .verified 1, .verified 1, .verified 1] ∧
        (w.requests 1).definition =
          (RequestRecord.fromRequest 1 0 12 10 .standalone).definition) = true :=
    exists_ok_of_check (by decide +kernel)
  have hjoined : ∃ w : ChunkedPrefillWorker PendingOrder
      (KvAccounting.tokensForTest 100 (by decide)) 1,
      Run.tryRun (WorkerOp.step (draftingEngine sureNeighbour))
        (ChunkedPrefillWorker.new (draftingEngine sureNeighbour) .disabled
          (fun r => .fromRequest r 0 12 10 .standalone) (fun _ => .new .fifo) .single)
        [.enqueue 2, .formBatch, .completeIteration, .enqueue 1, .formBatch, .completeIteration,
          .formBatch, .completeIteration, .formBatch, .completeIteration, .formBatch,
          .completeIteration] = .ok w ∧
      decide ((w.kv.emissions 1 = [.prefilled, .verified 2, .verified 1, .verified 1] ∧
          w.kv.emissions 2 = [.prefilled, .verified 4, .verified 4, .verified 1]) ∧
        (w.requests 1).definition =
          (RequestRecord.fromRequest 1 0 12 10 .standalone).definition) = true :=
    exists_ok_of_check (by decide +kernel)
  obtain ⟨w, hrun, hlog⟩ := halone
  obtain ⟨w', hrun', hlog'⟩ := hjoined
  have hreached : Reached (draftingEngine evenRates) w :=
    ⟨.disabled, fun r => .fromRequest r 0 12 10 .standalone, fun _ => .new .fifo, .single, _,
      fun _ => rfl, fun _ => rfl, by decide +kernel, hrun⟩
  have hreached' : Reached (draftingEngine sureNeighbour) w' :=
    ⟨.disabled, fun r => .fromRequest r 0 12 10 .standalone, fun _ => .new .fifo, .single, _,
      fun _ => rfl, fun _ => rfl, by decide +kernel, hrun'⟩
  obtain ⟨hlog, hdefinition⟩ := of_decide_eq_true hlog
  obtain ⟨hlog', hdefinition'⟩ := of_decide_eq_true hlog'
  have hrates : evenRates 1 = sureNeighbour 1 := rfl
  have hall := speculative_acceptance rfl rfl hreached hreached' hrates
    (hdefinition'.trans hdefinition.symm)
  exact ⟨w, w', ⟨hlog, hlog'⟩, hall.2.2.2.2.1⟩

end ServingSim
