import ServingSim.Admission.PrefillAsserts

/-
  The bookkeeping of prefills, over whole runs.

  A run of the worker interleaves arrivals, batches, iterations and cancellations. In every
  state it reaches, the worker's tables, the store and the records tell the same story of
  each request's prefills: one is open while the store has the request in prefill and none
  while it waits or decodes. The operations on the store tell it too, between any two of
  them (`InOrder`). What the record counts is what the context computes, so the checked
  additions stay within the tokens to compute, and a retraction is counted against a token
  that was emitted.

  A request cancelled while its last chunk is computed leaves its episode in the map. Its
  identifier does not come back, so nothing meets it.

  What is proved:
    1. `prefill_bookkeeping` — all of it in every state a run reaches, and no step fails
       with one of these messages.
-/

namespace ServingSim

open KeyedTotal PendingOrderPolicy KvCacheStore Relation ChunkedPrefillWorker

/-! ## Open prefills -/

/-- The prefills of a request that are open: the first from its hit to the first token, and
the episodes that are not complete. -/
def openPrefills (record : RequestRecord) : Nat :=
  (if record.prefixCacheHitTokens ≠ none ∧ record.outputTokensEmitted = 0 then 1 else 0) +
    record.reprocessedPrefills.countP fun episode => !episode.completed

section records

variable {record : RequestRecord} {context : ResolvedPrefillContext}

theorem countP_open_eq_zero {episodes : List ReprocessedPrefillEpisode}
    (h : ∀ episode ∈ episodes, episode.completed = true) :
    (episodes.countP fun episode => !episode.completed) = 0 := by
  rw [List.countP_eq_zero]
  intro episode hepisode
  rw [h episode hepisode]
  exact Bool.false_ne_true

theorem PrefillBooked.countP_le_one (h : PrefillBooked record) :
    (record.reprocessedPrefills.countP fun episode => !episode.completed) ≤ 1 := by
  rcases List.eq_nil_or_concat record.reprocessedPrefills with hnil | ⟨earlier, last, hlast⟩
  · rw [hnil]
    exact Nat.zero_le 1
  · have hearlier := h.earlier
    rw [hlast, List.concat_eq_append, List.dropLast_concat] at hearlier
    rw [hlast, List.concat_eq_append, List.countP_append, countP_open_eq_zero hearlier,
      Nat.zero_add]
    exact List.countP_le_length

theorem openPrefills_le_one (h : PrefillBooked record) : openPrefills record ≤ 1 := by
  rw [openPrefills]
  by_cases hzero : record.outputTokensEmitted = 0
  · have hnone : record.reprocessedPrefills = [] := by
      by_contra hne
      exact absurd hzero (Nat.ne_of_gt (h.again hne))
    rw [hnone, List.countP_nil]
    split <;> omega
  · rw [if_neg fun hfirst => hzero hfirst.2, Nat.zero_add]
    exact h.countP_le_one

theorem Shut.openPrefills (h : Shut record) : openPrefills record = 0 := by
  rw [ServingSim.openPrefills, countP_open_eq_zero h.closed,
    if_neg fun hfirst => hfirst.1 (h.untouched hfirst.2).1]

theorem Opened.openPrefills {reprocessed : Bool} (h : Opened reprocessed record context)
    (hbooked : PrefillBooked record) :
    openPrefills record = 1 ∧ reprocessed = decide (0 < record.outputTokensEmitted) := by
  have hle := openPrefills_le_one hbooked
  cases reprocessed with
  | false =>
    obtain ⟨hzero, hhit, -⟩ := h.first rfl
    rw [ServingSim.openPrefills, if_pos ⟨hhit ▸ Option.some_ne_none _, hzero⟩] at hle ⊢
    exact ⟨by omega, (decide_eq_false (by omega)).symm⟩
  | true =>
    obtain ⟨hemitted, last, hlast, hopen⟩ := h.again rfl
    have hcount : 0 < record.reprocessedPrefills.countP fun episode => !episode.completed :=
      List.countP_pos_iff.mpr ⟨last, List.mem_of_getLast? hlast, by rw [hopen]; rfl⟩
    rw [ServingSim.openPrefills] at hle ⊢
    exact ⟨by omega, (decide_eq_true hemitted).symm⟩

end records

variable {P : Type} [PendingOrderPolicy P] {acc : KvAccounting} {n : Nat}
  {cfg : ChunkedPrefillConfig n} {w w' : ChunkedPrefillWorker P acc n} {r : RequestId} {p : Fin n}

/-! ## A hit is noted once -/

/-- A hit that was noted stays as it is. -/
def KeepsHits (w w' : ChunkedPrefillWorker P acc n) : Prop :=
  ∀ r hit, (w.requests r).prefixCacheHitTokens = some hit →
    (w'.requests r).prefixCacheHitTokens = some hit

omit [PendingOrderPolicy P] in
theorem KeepsHits.of_update {start : ChunkedPrefillWorker P acc n} (h : KeepsHits start w)
    {record : RequestRecord}
    (hkept : ∀ hit, (w.requests r).prefixCacheHitTokens = some hit →
      record.prefixCacheHitTokens = some hit)
    (hrequests : w'.requests = Function.update w.requests r record) : KeepsHits start w' := by
  intro s hit hhit
  rw [hrequests]
  by_cases hs : s = r
  · subst hs
    rw [Function.update_self]
    exact hkept hit (h s hit hhit)
  · rw [Function.update_of_ne hs]
    exact h s hit hhit

theorem admittedRecord_hit {a : Admission} {record record' : RequestRecord} {hit : Nat}
    (h : admittedRecord a record = .ok record') (hhit : record.prefixCacheHitTokens = some hit) :
    record'.prefixCacheHitTokens = some hit := by
  unfold admittedRecord at h
  split at h
  · rw [RequestRecord.beginReprocessedPrefill_spec h]
    exact hhit
  · simp only [RequestRecord.recordPrefixCacheHitTokens, bind_eq_ok_iff] at h
    obtain ⟨-, -, _, hnone, -⟩ := h
    have hnone : record.prefixCacheHitTokens = none := ensure_eq_ok_iff.mp hnone
    rw [hhit] at hnone
    cases hnone

theorem recordChunk_hit {reprocessed finished : Bool} {chunkTokens : Nat}
    {record record' : RequestRecord}
    (h : recordChunk reprocessed finished chunkTokens record = .ok record') :
    record'.prefixCacheHitTokens = record.prefixCacheHitTokens := by
  cases reprocessed with
  | false =>
    cases finished with
    | false =>
      obtain rfl := Except.ok.inj h
      rfl
    | true =>
      obtain rfl := Except.ok.inj h
      rfl
  | true => exact (recordChunk_first h).1.hit

theorem hits_kept_invariant (start : ChunkedPrefillWorker P acc n) :
    TurnInvariant cfg (KeepsHits start) where
  frame := fun _ _ _ _ h => h
  making := by
    intro config stepTokens w w' hstep _ _ h
    cases hstep with
    | prepare q => exact h
    | retract q victim live =>
      obtain ⟨c, f, record, -, -, -, -, -, -, hrecord, hw⟩ :=
        requeueRetracted_spec (w.issue (.release victim q)) q victim config.retractionPolicy
      rw [hw]
      -- a retraction returns the candidate, and the record keeps its hit
      have hkept : ∀ hit, (w.requests victim).prefixCacheHitTokens = some hit →
          record.prefixCacheHitTokens = some hit := by
        intro hit hhit
        rw [hrecord]
        exact hhit
      exact h.of_update hkept rfl
    | ratio x => exact h
  forming := by
    intro s s' hstep _ h
    cases hstep with
    | chunk => exact h
    | refresh p => exact h
    | admitted _ _ _ gate _ entered =>
      obtain ⟨record, hrecord, rfl⟩ := admitHead_spec entered
      refine h.of_update (fun hit hhit => ?_) rfl
      have hkept : record.prefixCacheHitTokens = some hit := admittedRecord_hit hrecord hhit
      exact hkept
  completing := by
    intro p w w' hstep hlocated h
    cases hstep with
    | decoded step =>
      intro r hit hhit
      rcases (hlocated.decodeStep step).credited r with hsame | ⟨-, tokens, -, hretired⟩
      · rw [hsame]
        exact h r hit hhit
      · rw [hretired, (retired_first (w.requests r) tokens).1.hit]
        exact h r hit hhit
    | @prefilled _ r completed completed' admitted step =>
      obtain ⟨reprocessed, context, after, record, -, -, -, hrecord, hfinal⟩ :=
        completePrefill_spec step
      have hrequests : w'.requests = Function.update w.requests r record := by
        split at hfinal
        · rw [hfinal.1]
          rfl
        · rw [hfinal.1]
      exact h.of_update (fun hit hhit => (recordChunk_hit hrecord).trans hhit) hrequests
    | cleared => exact h
    | finished => exact h
  enqueued := by
    intro r w w' hstep _ h
    obtain ⟨q, c, sequence, balance, -, -, -, -, -, rfl⟩ := acceptMessage_spec hstep
    refine h.of_update (fun hit hhit => ?_) rfl
    exact hhit
  released := by
    intro r w _ h s hit hhit
    rw [requests_releaseRequest]
    exact h s hit hhit

/-! ## Operations in order -/

/-- What the store asserts of an operation about a prefill, or expects to find. -/
def StoreOp.InOrder (store : KvCacheStore acc n) : StoreOp n → Prop
  | .reserveChunkedPrefillContext r _ _ _ => store.phaseOf r = .absent
  | .schedulePrefillChunk r p tokens => store.phaseOf r = .chunked p ∧
      ∃ context, (store.ledger.viewOf r).context = some context ∧
        tokens ≤ context.remainingPrefillTokens
  | .completePrefillChunk r => (∃ p, store.phaseOf r = .chunked p) ∧
      ∃ context, (store.ledger.viewOf r).context = some context ∧
        context.processedPrefillTokens + context.activeChunkTokens ≤ context.prefillTokensToCompute
  | .finishChunkedPrefill r p _ => store.phaseOf r = .chunked p ∧
      ∃ context, (store.ledger.viewOf r).context = some context ∧ context.remainingPrefillTokens = 0
  | _ => True

/-- Every operation so far was in order where it was issued. -/
def OpsInOrder (kv : IssuedStore acc n) : Prop :=
  IssuedStore.Issues StoreOp.InOrder (.new acc n kv.budget) kv

theorem OpsInOrder.issue {kv : IssuedStore acc n} {op : StoreOp n} (h : OpsInOrder kv)
    (hop : op.InOrder kv.store) : OpsInOrder (kv.issue op) :=
  IssuedStore.Issues.issue h hop

theorem inOrder_making {config : BoundedFutureKvAdmissionConfig} {stepTokens : Nat}
    (hstep : Making config stepTokens w w') (h : OpsInOrder w.kv) : OpsInOrder w'.kv := by
  cases hstep with
  | prepare q => exact h.issue trivial
  | retract q victim live =>
    obtain ⟨c, f, record, -, -, -, -, -, -, -, hw⟩ :=
      requeueRetracted_spec (w.issue (.release victim q)) q victim config.retractionPolicy
    rw [hw]
    have hreleased : OpsInOrder (w.kv.issue (.release victim q)) := h.issue trivial
    exact hreleased
  | ratio x => exact h

theorem inOrder_forming {s s' : Forming P acc n} (hstep : FormStep cfg s s')
    (hlocated : Located cfg s.worker) (h : OpsInOrder s.worker.kv) : OpsInOrder s'.worker.kv := by
  cases hstep with
  | @chunk p before after c context budget tokens left available started fresh resolved size
      positive spent =>
    have hat := hlocated.at_started (p := p) (c := c) (by simp [started])
    have hle := nextChunkTokens_le context (budget - cfg.draftingSlots) cfg.chunkEndAlignment
      cfg.maxBatchTokens
    rw [size] at hle
    have hop : StoreOp.InOrder s.worker.kv.store (.schedulePrefillChunk c.requestId p tokens) :=
      ⟨hat.phase, context, resolved, hle.trans (Nat.min_le_left _ _)⟩
    exact h.issue hop
  | refresh p => exact h
  | @admitted p budget chunkBudget left slots slots' a worker available windows room gate claimed
      entered spent =>
    obtain ⟨hpeek, -, -, -, -, hchunk, -⟩ := gateHead_spec gate
    have habsent := (hlocated.at_waiting (mem_of_peek hpeek)).phase
    obtain ⟨record, -, rfl⟩ := admitHead_spec entered
    have hissuable : StoreOp.Issuable s.worker.store (.reserveChunkedPrefillContext
        a.candidate.requestId p a.resolvedPrefill a.footprint) := habsent
    have hview := view_reserveChunkedPrefillContext s.worker.store a.candidate.requestId
      a.candidate.requestId p a.resolvedPrefill a.footprint
    rw [if_pos rfl] at hview
    have hreserved : OpsInOrder (s.worker.kv.issue (.reserveChunkedPrefillContext
        a.candidate.requestId p a.resolvedPrefill a.footprint)) := h.issue habsent
    have hop : StoreOp.InOrder (s.worker.kv.issue (.reserveChunkedPrefillContext
        a.candidate.requestId p a.resolvedPrefill a.footprint)).store
        (.schedulePrefillChunk a.candidate.requestId p a.chunkTokens) := by
      refine ⟨(phaseOf_apply hlocated.tracked hissuable).trans (if_pos rfl), _,
        congrArg RequestView.context hview, ?_⟩
      rw [takePrefix_progress]
      exact hchunk.trans (Nat.min_le_left _ _)
    exact hreserved.issue hop

theorem inOrder_completing (hstep : Completing cfg p w w') (hlocated : Located cfg w)
    (haccounted : Accounted w) (h : OpsInOrder w.kv) : OpsInOrder w'.kv := by
  cases hstep with
  | decoded step =>
    have hissues := (hlocated.decodeStep step).issues
    have hbudget := hissues.budget_eq
    rw [OpsInOrder, hbudget]
    refine IssuedStore.Issues.trans h (hissues.mono fun store op hop => ?_)
    obtain ⟨-, ⟨scope, steps, rfl⟩, -⟩ := hop
    trivial
  | @prefilled _ r completed completed' admitted step =>
    have hchunk := hlocated.completePrefill admitted step
    obtain ⟨reprocessed, context, after, record, hepisode, hcontext, hafter, -, hfinal⟩ :=
      completePrefill_spec step
    have hwithin := ((haccounted r).computing p context hchunk.before hcontext).within
    have hissuable := issuable_completePrefillChunk hchunk.before
    have hcompleted : OpsInOrder (w.kv.issue (.completePrefillChunk r)) :=
      h.issue ⟨⟨p, hchunk.before⟩, context, hcontext, hwithin⟩
    split at hfinal
    · next hdone =>
      rw [hfinal.1]
      have hop : StoreOp.InOrder (w.kv.issue (.completePrefillChunk r)).store
          (.finishChunkedPrefill r p record.remainingOutputTokens) :=
        ⟨(phaseOf_apply hlocated.tracked hissuable).trans hchunk.before, after, hafter, hdone⟩
      exact hcompleted.issue hop
    · rw [hfinal.1]
      exact hcompleted
  | cleared => exact h.issue trivial
  | @finished r resident complete free =>
    have hop : StoreOp.InOrder w.kv.store (.releaseRetainingPrefix r p) := trivial
    exact h.issue hop

theorem inOrder_step {op : WorkerOp} (hsettled : Settled cfg w) (hkept : PrefillsKept w)
    (h : OpsInOrder w.kv) (hop : op.Enabled w) (hstep : op.step cfg w = .ok w') :
    OpsInOrder w'.kv := by
  cases op with
  | enqueue r =>
    have haccept : w.acceptMessage cfg r = .ok w' := hstep
    obtain ⟨q, c, sequence, balance, -, -, -, -, -, rfl⟩ := acceptMessage_spec haccept
    exact h
  | formBatch =>
    obtain ⟨formed, hasBatch, hform, rfl⟩ := WorkerOp.step_formBatch hstep
    obtain ⟨-, hformed, -⟩ := formBatch_rule
      (J := fun w : ChunkedPrefillWorker P acc n => OpsInOrder w.kv)
      (fun _ _ _ _ hw => hw) (fun hturn _ _ hw => inOrder_making hturn hw)
      (fun hturn hlocated hw => inOrder_forming hturn hlocated hw) hform hsettled.located
      (hsettled.idle hop) h
    exact hformed
  | completeIteration =>
    obtain ⟨completed, events, hcomplete, rfl⟩ := WorkerOp.step_completeIteration hstep
    obtain ⟨hpath, -, -⟩ := completeIteration_path hsettled.located hcomplete
    have hall := completing_rule
      (J := fun w : ChunkedPrefillWorker P acc n => Accounted w ∧ OpsInOrder w.kv)
      (fun hturn hlocated hw => ⟨accounted_completing hturn hlocated hw.1,
        inOrder_completing hturn hlocated hw.1 hw.2⟩) hpath hsettled.located
      ⟨hkept.accounted, h⟩
    exact hall.2
  | release r =>
    obtain rfl := Except.ok.inj hstep
    rcases releaseRequest_cases w r with ⟨q, -, hw⟩ | ⟨-, episodes, -, hw⟩
    · rw [hw]
      exact h
    · rw [hw]
      have hreleased : OpsInOrder (w.kv.issue (.releaseExternal r)) := h.issue trivial
      exact hreleased

/-- What every step keeps of the prefills, with the operations on the store. -/
def KeptInOrder (w : ChunkedPrefillWorker P acc n) : Prop := PrefillsKept w ∧ OpsInOrder w.kv

theorem Reached.keptInOrder (h : Reached cfg w) : Settled cfg w ∧ KeptInOrder w :=
  h.invariant
    (fun budget _ policies balance hrequests _ =>
      ⟨prefillsKept_new cfg budget hrequests policies balance, .refl⟩)
    fun _ _ _ hsettled hw hop hstep => ⟨kept_step hsettled hw.1 hop hstep,
      inOrder_step hsettled hw.1 hw.2 hop hstep⟩

/-! ## Bookkeeping -/

/-- What holds of the prefills of every request the worker knows. The prompt of a request is
its declared prefix with its own prompt tokens. -/
structure PrefillBookkeeping (cfg : ChunkedPrefillConfig n) (w : ChunkedPrefillWorker P acc n) :
    Prop where
  /-- No request is in two prefills. -/
  single : ∀ r, openPrefills (w.requests r) ≤ 1
  /-- A request in prefill has its own open, the first one or, once a token is emitted, an
  episode. -/
  prefilling : ∀ p r, w.store.phaseOf r = .chunked p → openPrefills (w.requests r) = 1 ∧
    w.prefillEpisodes.lookup r = some (decide (0 < (w.requests r).outputTokensEmitted))
  decoding : ∀ p r, w.store.phaseOf r = .resident p → openPrefills (w.requests r) = 0 ∧
    w.prefillEpisodes.lookup r = none
  waiting : ∀ p, ∀ c ∈ candidates (w.policies p), openPrefills (w.requests c.requestId) = 0 ∧
    w.prefillEpisodes.lookup c.requestId = none
  started : ∀ p, ∀ c ∈ w.startedPrefills p, w.store.phaseOf c.requestId = .chunked p
  /-- The chunks an iteration completes are of requests in prefill. -/
  completed : ∀ p, ∀ r ∈ (w.store.partitions p).prefillAdmits, w.store.phaseOf r = .chunked p
  /-- The hit of the first prefill is noted with the first admission, and never again. -/
  noted : ∀ r, (w.requests r).admitted = true ↔ (w.requests r).prefixCacheHitTokens ≠ none
  once : ∀ (op : WorkerOp) w', op.Enabled w → op.step cfg w = .ok w' → KeepsHits w w'
  declared : ∀ r hit, (w.requests r).prefixCacheHitTokens = some hit →
    hit ≤ (w.requests r).session.declaredPrefixTokens
  /-- An episode is opened after the first prefill and every earlier episode are complete. -/
  reopened : ∀ r, ((w.requests r).reprocessedPrefills ≠ [] → FirstDone (w.requests r)) ∧
    ∀ episode ∈ (w.requests r).reprocessedPrefills.dropLast, episode.completed = true
  /-- What was served and what was processed make up the prompt with the output so far. -/
  firstSum : ∀ r, 0 < (w.requests r).outputTokensEmitted → FirstDone (w.requests r)
  episodeSum : ∀ r, ∀ episode ∈ (w.requests r).reprocessedPrefills, episode.completed = true →
    episode.prefixCacheHitTokens + episode.prefillTokensProcessed =
      (w.requests r).promptTokens + (w.requests r).session.declaredPrefixTokens +
        episode.outputTokensBefore
  /-- A record counts what its context has processed, so adding the active chunk stays
  within the tokens to compute. -/
  counted : ∀ p r context, w.store.phaseOf r = .chunked p →
    (w.store.ledger.viewOf r).context = some context →
    context.processedPrefillTokens + context.activeChunkTokens ≤ context.prefillTokensToCompute ∧
      (w.prefillEpisodes.lookup r = some false →
        (w.requests r).prefillTokensProcessed = context.processedPrefillTokens) ∧
      (w.prefillEpisodes.lookup r = some true →
        ∃ last, (w.requests r).reprocessedPrefills.getLast? = some last ∧
          last.prefillTokensProcessed = context.processedPrefillTokens)
  retractions : ∀ r, (w.requests r).retractionCount ≤ (w.requests r).outputTokensEmitted
  issued : OpsInOrder w.kv
  /-- The one message left is that of a last decode that does not fit. -/
  safe : ∀ op : WorkerOp, op.Enabled w → ∀ message, op.step cfg w = .error message →
    message = abortRequired

/-- In every state a run reaches, through any retractions and cancellations, the prefills of
every request are booked once. -/
theorem prefill_bookkeeping (h : Reached cfg w) : PrefillBookkeeping cfg w := by
  obtain ⟨hsettled, hkept, hissued⟩ := h.keptInOrder
  have hlocated := hsettled.located
  have hbooked := fun r => (hkept.books r).booked
  exact
    { single := fun r => openPrefills_le_one (hbooked r)
      prefilling := fun p r hphase => by
        obtain ⟨c, hat⟩ := hlocated.at_chunked hphase
        obtain ⟨-, context, hcontext, -⟩ := hat.progress
        have hepisode : w.prefillEpisodes.lookup r = some c.retracted := hat.episode
        obtain ⟨hone, hretracted⟩ := ((hkept.books r).opened p context c.retracted hphase
          hcontext hepisode).openPrefills (hbooked r)
        exact ⟨hone, hepisode.trans (congrArg some hretracted)⟩
      decoding := fun p r hphase => ⟨((hkept.books r).shut (.inr (.inr ⟨p, hphase⟩))).openPrefills,
        (hlocated.at_resident hphase).episode⟩
      waiting := fun p c hc => by
        refine ⟨((hkept.books c.requestId).shut (.inr (.inl ⟨p, ?_⟩))).openPrefills,
          (hlocated.at_waiting hc).episode⟩
        exact List.ne_nil_of_mem (mem_ofRequest.mpr ⟨hc, rfl⟩)
      started := fun p c hc => (hlocated.at_started hc).phase
      completed := hkept.inFlight
      noted := fun r => (hbooked r).noted
      once := fun op w' hop hstep =>
        (hits_kept_invariant w).step hsettled (fun _ _ hhit => hhit) hop hstep
      declared := fun r => (hbooked r).within
      reopened := fun r =>
        ⟨fun hne => (hbooked r).first ((hbooked r).again hne), (hbooked r).earlier⟩
      firstSum := fun r => (hbooked r).first
      episodeSum := fun r episode hepisode hclosed => by
        rw [Nat.add_comm]
        exact (hkept.accounted r).balanced.closed episode hepisode hclosed
      counted := fun p r context hphase hcontext => by
        have hcomputing := (hkept.accounted r).computing p context hphase hcontext
        refine ⟨hcomputing.within, fun hepisode => ?_, fun hepisode => ?_⟩
        · exact (((hkept.books r).opened p context false hphase hcontext hepisode).first rfl).2.2
        · obtain ⟨last, hlast, -, -, hprocessed⟩ := hcomputing.reprocessed hepisode
          exact ⟨last, hlast, hprocessed⟩
      retractions := fun r => (hbooked r).retractions
      issued := hissued
      safe := fun op hop message herror => by
        by_contra hne
        exact step_ne_error hsettled hkept hop hne herror }

/-- Two prompts are computed, the second once more after a retraction; a third is cancelled
while its only chunk is computed, and its prefill stays open in its record. -/
theorem prefill_bookkeeping_cancelled :
    ∃ w : ChunkedPrefillWorker PendingOrder (KvAccounting.tokensForTest 28 (by decide)) 1,
      ((w.requests 2).reprocessedPrefills = [⟨2, 0, 14, true⟩] ∧ w.computing = true ∧
        openPrefills (w.requests 3) = 1 ∧ w.prefillEpisodes.lookup 3 = some false ∧
        (w.store.partitions 0).prefillAdmits = []) ∧
      PrefillBookkeeping retractingEngine w := by
  have hchecked : ∃ w : ChunkedPrefillWorker PendingOrder
      (KvAccounting.tokensForTest 28 (by decide)) 1,
      Run.tryRun (WorkerOp.step retractingEngine)
        (ChunkedPrefillWorker.new retractingEngine .disabled
          (fun r => .fromRequest r 0 12 4 .standalone) (fun _ => .new .fifo) .single)
        [.enqueue 1, .enqueue 2, .formBatch, .completeIteration, .formBatch, .completeIteration,
          .formBatch, .completeIteration, .formBatch, .completeIteration, .formBatch,
          .completeIteration, .formBatch, .completeIteration, .enqueue 3, .formBatch,
          .release 3] = .ok w ∧
      decide ((w.requests 2).reprocessedPrefills = [⟨2, 0, 14, true⟩] ∧ w.computing = true ∧
        openPrefills (w.requests 3) = 1 ∧ w.prefillEpisodes.lookup 3 = some false ∧
        (w.store.partitions 0).prefillAdmits = []) = true :=
    exists_ok_of_check (by decide +kernel)
  obtain ⟨w, hrun, hbooks⟩ := hchecked
  have hreached : Reached retractingEngine w :=
    ⟨.disabled, fun r => .fromRequest r 0 12 4 .standalone, fun _ => .new .fifo, .single, _,
      fun _ => rfl, fun _ => rfl, by decide +kernel, hrun⟩
  exact ⟨w, of_decide_eq_true hbooks, prefill_bookkeeping hreached⟩

end ServingSim
