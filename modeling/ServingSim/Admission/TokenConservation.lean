import ServingSim.Admission.Paths

/-
  Tokens through retraction and re-prefill.

  How far a request is stands in its record, in its prefill context while it is
  prefilled, and in its decode while it is resident. A retraction drops the decode
  and computes the context again, with the emitted tokens as part of the prompt.
  `Balanced` says what a record's counts add up to, `Computing` what a prefill under
  way owes; every turn of the worker keeps both for every request (`Accounted`).

  What is proved:
    1. `decode_token_conservation` — the accounts in every state a run reaches.
-/

namespace ServingSim

open KeyedTotal PendingOrderPolicy KvCacheStore Relation ChunkedPrefillWorker

/-! ## Records -/

/-- Every emitted token was logged once, no more than the target were emitted, and a
recomputation that is over computed the context the retraction dropped less what the cache
served. -/
structure Balanced (record : RequestRecord) : Prop where
  logged : record.outputTimes = record.outputTokensEmitted
  bounded : 0 < record.targetOutputTokens → record.outputTokensEmitted ≤ record.targetOutputTokens
  closed : ∀ episode ∈ record.reprocessedPrefills, episode.completed = true →
    episode.prefillTokensProcessed + episode.prefixCacheHitTokens =
      record.promptTokens + record.session.declaredPrefixTokens + episode.outputTokensBefore

/-- A prefill under way: what its context holds and computes is the whole prompt with the
output so far, and a recomputation's open episode has counted what is computed. -/
structure Computing (episode : Option Bool) (record : RequestRecord)
    (context : ResolvedPrefillContext) : Prop where
  within : context.processedPrefillTokens + context.activeChunkTokens ≤
    context.prefillTokensToCompute
  whole : context.residentPrefixTokens + context.prefillTokensToCompute =
    record.promptTokens + record.session.declaredPrefixTokens + record.outputTokensEmitted
  reprocessed : episode = some true → ∃ last, record.reprocessedPrefills.getLast? = some last ∧
    last.outputTokensBefore = record.outputTokensEmitted ∧
    last.prefixCacheHitTokens = context.residentPrefixTokens ∧
    last.prefillTokensProcessed = context.processedPrefillTokens

/-- Records that differ in stage, retractions and first prefill only. -/
structure SameAccount (record record' : RequestRecord) : Prop where
  definition : record'.definition = record.definition
  emitted : record'.outputTokensEmitted = record.outputTokensEmitted
  logged : record'.outputTimes = record.outputTimes
  episodes : record'.reprocessedPrefills = record.reprocessedPrefills

namespace RequestRecord

variable {record record' : RequestRecord}

theorem prompt_of_definition (h : record'.definition = record.definition) :
    record'.promptTokens = record.promptTokens ∧
      record'.targetOutputTokens = record.targetOutputTokens ∧
      record'.session = record.session := by
  simp only [definition, Definition.mk.injEq] at h
  exact ⟨h.2.2.1, h.2.2.2.1, h.2.2.2.2⟩

end RequestRecord

section records

variable {record record' : RequestRecord} {episode : Option Bool}
  {context : ResolvedPrefillContext}

theorem SameAccount.balanced (h : SameAccount record record') (hb : Balanced record) :
    Balanced record' := by
  obtain ⟨hprompt, htarget, hsession⟩ := RequestRecord.prompt_of_definition h.definition
  refine ⟨?_, ?_, ?_⟩
  · rw [h.logged, h.emitted]
    exact hb.logged
  · rw [htarget, h.emitted]
    exact hb.bounded
  · rw [h.episodes, hprompt, hsession]
    exact hb.closed

theorem SameAccount.computing (h : SameAccount record record')
    (hc : Computing episode record context) : Computing episode record' context := by
  obtain ⟨hprompt, -, hsession⟩ := RequestRecord.prompt_of_definition h.definition
  refine ⟨hc.within, ?_, ?_⟩
  · rw [hprompt, hsession, h.emitted]
    exact hc.whole
  · rw [h.episodes, h.emitted]
    exact hc.reprocessed

theorem RequestRecord.Fresh.balanced (h : record.Fresh) : Balanced record := by
  rw [h]
  exact ⟨rfl, fun _ => Nat.zero_le _, nofun⟩

theorem Balanced.retired (h : Balanced record) {tokens : Nat}
    (hleft : tokens ≤ record.targetOutputTokens - record.outputTokensEmitted) :
    Balanced (DecodeCompletion.retired record tokens) := by
  obtain ⟨hdefinition, hemitted, -⟩ := DecodeCompletion.retired_spec record tokens
  obtain ⟨hlogged, hepisodes⟩ := DecodeCompletion.retired_log record tokens
  obtain ⟨hprompt, htarget, hsession⟩ := RequestRecord.prompt_of_definition hdefinition
  have hlog := h.logged
  have hbound := h.bounded
  refine ⟨by omega, fun hpositive => ?_, ?_⟩
  · have hle := hbound (htarget ▸ hpositive)
    omega
  · rw [hepisodes, hprompt, hsession]
    exact h.closed

theorem Balanced.admitted (h : Balanced record) {a : Admission}
    (hadmitted : admittedRecord a record = .ok record')
    (hwithin : a.chunkTokens ≤ a.resolvedPrefill.remainingPrefillTokens)
    (hprogress : a.resolvedPrefill.processedPrefillTokens = 0)
    (hwhole : a.resolvedPrefill.residentPrefixTokens + a.resolvedPrefill.prefillTokensToCompute =
      record.promptTokens + record.session.declaredPrefixTokens + record.outputTokensEmitted) :
    Balanced record' ∧ Computing (some a.candidate.retracted) record'
      (a.resolvedPrefill.scheduleChunk a.chunkTokens) := by
  obtain ⟨hdefinition, hemitted, hlogged, hepisodes⟩ := admittedRecord_spec hadmitted
  obtain ⟨hprompt, htarget, hsession⟩ := RequestRecord.prompt_of_definition hdefinition
  refine ⟨⟨?_, ?_, ?_⟩, ⟨?_, ?_, fun hretracted => ?_⟩⟩
  · rw [hlogged, hemitted]
    exact h.logged
  · rw [htarget, hemitted]
    exact h.bounded
  · intro e he hclosed
    rw [hepisodes, List.mem_append] at he
    rw [hprompt, hsession]
    rcases he with hold | hadded
    · exact h.closed e hold hclosed
    · -- the episode just opened is not over
      split at hadded
      · rw [List.mem_singleton.mp hadded] at hclosed
        cases hclosed
      · cases hadded
  · simp only [ResolvedPrefillContext.remainingPrefillTokens, hprogress] at hwithin
    simp only [ResolvedPrefillContext.scheduleChunk, hprogress]
    omega
  · rw [hprompt, hsession, hemitted]
    exact hwhole
  · have hretracted := Option.some.inj hretracted
    rw [if_pos hretracted] at hepisodes
    exact ⟨_, by rw [hepisodes, List.getLast?_append]; rfl, hemitted.symm, rfl, hprogress.symm⟩

theorem recordChunk_reprocessed {finished : Bool} {chunkTokens : Nat}
    (h : recordChunk true finished chunkTokens record = .ok record') :
    ∃ last, record.reprocessedPrefills.getLast? = some last ∧ last.completed = false ∧
      record'.definition = record.definition ∧
      record'.outputTokensEmitted = record.outputTokensEmitted + (if finished then 1 else 0) ∧
      record'.outputTimes = record.outputTimes + (if finished then 1 else 0) ∧
      record'.reprocessedPrefills = record.reprocessedPrefills.dropLast ++ [{ last with
          prefillTokensProcessed := last.prefillTokensProcessed + chunkTokens
          completed := finished }] := by
  simp only [ChunkedPrefillWorker.recordChunk, if_true, bind_eq_ok_iff] at h
  obtain ⟨recorded, hrecorded, h⟩ := h
  obtain ⟨last, hlast, hopen, rfl⟩ := RequestRecord.updateEpisode_spec hrecorded
  refine ⟨last, hlast, hopen, ?_⟩
  cases finished with
  | false =>
    obtain rfl := Except.ok.inj h
    refine ⟨rfl, rfl, rfl, ?_⟩
    rw [← hopen]
  | true =>
    simp only [if_true, bind_eq_ok_iff] at h
    obtain ⟨closed, hclosed, emitted, hemitted, h⟩ := h
    obtain ⟨last', hlast', -, rfl⟩ := RequestRecord.updateEpisode_spec hclosed
    obtain rfl := Except.ok.inj hemitted
    obtain rfl := Except.ok.inj h
    -- the episode closed is the one just counted in
    obtain rfl : { last with
        prefillTokensProcessed := last.prefillTokensProcessed + chunkTokens } = last' := by
      rw [List.getLast?_append] at hlast'
      exact Option.some.inj hlast'
    refine ⟨?_, ?_, ?_, ?_⟩
    · rw [RequestRecord.definition_stampStage, RequestRecord.definition_recordToken]
      rfl
    · rw [RequestRecord.outputTokensEmitted_stampStage,
        RequestRecord.outputTokensEmitted_recordToken]
      rfl
    · exact RequestRecord.outputTimes_recordToken _
    · refine (RequestRecord.reprocessedPrefills_recordToken _).trans ?_
      simp

theorem Balanced.recordChunk (h : Balanced record) {reprocessed finished : Bool}
    (hc : Computing (some reprocessed) record context)
    (hfirst : reprocessed = false → record.outputTokensEmitted = 0)
    (hagain : reprocessed = true → record.outputTokensEmitted < record.targetOutputTokens)
    (hfinished : finished = decide (context.completeChunk.remainingPrefillTokens = 0))
    (hrecord : recordChunk reprocessed finished context.activeChunk.2 record = .ok record') :
    Balanced record' ∧
      (finished = false → Computing (some reprocessed) record' context.completeChunk) := by
  have hwithin := hc.within
  have hlog := h.logged
  cases reprocessed with
  | false =>
    cases finished with
    | false =>
      -- a fresh prompt's chunk changes nothing the account reads
      obtain rfl := Except.ok.inj hrecord
      have hsame : SameAccount record { record with
          prefillTokensProcessed := record.prefillTokensProcessed + context.activeChunk.2 } :=
        ⟨rfl, rfl, rfl, rfl⟩
      refine ⟨hsame.balanced h, fun _ =>
          ⟨?_, (hsame.computing hc).whole, fun hagain => by cases hagain⟩⟩
      simpa [ResolvedPrefillContext.completeChunk] using hwithin
    | true =>
      -- its first token
      obtain rfl := Except.ok.inj hrecord
      have hzero := hfirst rfl
      refine ⟨⟨?_, fun hpositive => ?_, h.closed⟩, fun hnot => by cases hnot⟩
      · simp only [RequestRecord.stampStage, RequestRecord.recordFirstToken]
        omega
      · exact hpositive
  | true =>
    obtain ⟨last, hlast, hbefore, hhit, hprocessed⟩ := hc.reprocessed rfl
    obtain ⟨last', hlast', hopen', hdefinition, hemitted, hlogged, hepisodes⟩ :=
      recordChunk_reprocessed hrecord
    obtain rfl : last = last' := Option.some.inj (hlast.symm.trans hlast')
    obtain ⟨hprompt, htarget, hsession⟩ := RequestRecord.prompt_of_definition hdefinition
    have hleft := hagain rfl
    have hwhole := hc.whole
    refine ⟨⟨by omega, fun _ => ?_, fun e he hclosed => ?_⟩, fun hnot => ⟨?_, ?_, fun _ => ?_⟩⟩
    · rw [htarget, hemitted]
      split <;> omega
    · rw [hprompt, hsession]
      rw [hepisodes, List.mem_append] at he
      rcases he with hold | hadded
      · exact h.closed e (List.dropLast_subset _ hold) hclosed
      · obtain rfl := List.mem_singleton.mp hadded
        -- the last chunk leaves nothing to compute
        have hdone : finished = true := hclosed
        rw [hfinished, decide_eq_true_eq] at hdone
        simp only [ResolvedPrefillContext.remainingPrefillTokens,
          ResolvedPrefillContext.completeChunk] at hdone
        simp only [ResolvedPrefillContext.activeChunk]
        omega
    · simpa [ResolvedPrefillContext.completeChunk] using hwithin
    · rw [hprompt, hsession, hemitted, hnot]
      exact hwhole
    · have hopened : record'.reprocessedPrefills.getLast? = some { last with
          prefillTokensProcessed := last.prefillTokensProcessed + context.activeChunk.2
          completed := finished } := by
        rw [hepisodes, List.getLast?_append]
        rfl
      refine ⟨_, hopened, ?_, hhit, ?_⟩
      · rw [hemitted, hnot]
        exact hbefore
      · simp only [ResolvedPrefillContext.activeChunk, ResolvedPrefillContext.completeChunk]
        omega

end records

/-! ## Accounts -/

variable {P : Type} [PendingOrderPolicy P] {acc : KvAccounting} {n : Nat}
  {cfg : ChunkedPrefillConfig n} {w w' : ChunkedPrefillWorker P acc n} {r : RequestId} {p : Fin n}

/-- What the worker holds about a request adds up. -/
structure Account (e : Entries acc n) : Prop where
  balanced : Balanced e.record
  computing : ∀ p context, e.phase = .chunked p → e.view.context = some context →
    Computing e.episode e.record context

def Accounted (w : ChunkedPrefillWorker P acc n) : Prop := ∀ r, Account (w.entriesOf r)

theorem Account.of_phase {e : Entries acc n} (hb : Balanced e.record)
    (hphase : ∀ p, e.phase ≠ .chunked p) : Account e :=
  ⟨hb, fun p _ hchunked _ => absurd hchunked (hphase p)⟩

theorem Account.of_same {e e' : Entries acc n} (h : Account e)
    (hrecord : SameAccount e.record e'.record) (hphase : e'.phase = e.phase)
    (hview : e'.view = e.view) (hepisode : e'.episode = e.episode) : Account e' := by
  refine ⟨hrecord.balanced h.balanced, fun p context hchunked hcontext => ?_⟩
  rw [hphase] at hchunked
  rw [hview] at hcontext
  rw [hepisode]
  exact hrecord.computing (h.computing p context hchunked hcontext)

theorem SameAccount.refl (record : RequestRecord) : SameAccount record record :=
  ⟨rfl, rfl, rfl, rfl⟩

theorem Accounted.step (h : Accounted w) (q : RequestId)
    (hother : ∀ s, s ≠ q → w'.entriesOf s = w.entriesOf s) (hq : Account (w'.entriesOf q)) :
    Accounted w' := by
  intro s
  by_cases hs : s = q
  · exact hs ▸ hq
  · rw [hother s hs]
    exact h s

theorem accounted_making {config : BoundedFutureKvAdmissionConfig} {stepTokens : Nat}
    (hstep : Making config stepTokens w w') (hlocated : Located cfg w) (h : Accounted w) :
    Accounted w' := by
  cases hstep with
  | prepare q =>
    intro s
    rw [entriesOf_prepare hlocated.tracked]
    exact h s
  | retract q victim live =>
    have hop := issuable_release hlocated live
    refine h.step victim (fun s hs => entriesOf_retracted hlocated live _ hs) ?_
    obtain ⟨c, f, record, -, -, -, -, -, -, hrecord, hw⟩ :=
      requeueRetracted_spec (w.issue (.release victim q)) q victim config.retractionPolicy
    have hself : (Function.update w.requests victim record) victim = record :=
      Function.update_self ..
    have habsent : (StoreOp.apply w.store (.release victim q)).phaseOf victim = .absent :=
      (phaseOf_apply hlocated.tracked hop).trans (if_pos rfl)
    have hsame : SameAccount (w.requests victim) record := by
      rw [hrecord]
      exact ⟨rfl, rfl, rfl, rfl⟩
    rw [hw]
    refine Account.of_phase ?_ fun q' hchunked => ?_
    · exact (congrArg Balanced hself).mpr (hsame.balanced (h victim).balanced)
    · have hphase := habsent.symm.trans hchunked
      cases hphase
  | ratio x => exact h

theorem contextOf_schedulePrefillChunk (store : KvCacheStore acc n) (r : RequestId) (p : Fin n)
    (tokens : Nat) {context : ResolvedPrefillContext}
    (h : (store.ledger.viewOf r).context = some context) :
    ((store.schedulePrefillChunk r p tokens).ledger.viewOf r).context =
      some (context.scheduleChunk tokens) := by
  rw [view_schedulePrefillChunk, if_pos rfl, h]
  rfl

theorem previewPrefillContext_whole (store : KvCacheStore acc n) (p : Fin n)
    (freshPromptTokens : Nat) (input : SessionInput) :
    (store.previewPrefillContext p freshPromptTokens input).residentPrefixTokens +
        (store.previewPrefillContext p freshPromptTokens input).prefillTokensToCompute =
      freshPromptTokens + input.declaredPrefixTokens := by
  refine ResolvedPrefillContext.resident_add_toCompute_new input freshPromptTokens ?_
  cases input with
  | standalone => exact Nat.zero_le _
  | pinnedPrefix prefixTokens => exact Nat.le_refl _
  | session sessionId start declared => exact PrefixCache.peek_le ..

theorem takePrefix_context (store : KvCacheStore acc n) (p : Fin n)
    (resolved : ResolvedPrefillContext) :
    ∃ metadata, (store.takePrefix p resolved).2 =
      { resolved with cacheReturnMetadata := metadata } := by
  unfold takePrefix
  split
  · exact ⟨_, rfl⟩
  · exact ⟨_, rfl⟩

theorem contextOf_reserveChunked (store : KvCacheStore acc n) (r : RequestId) (p : Fin n)
    (resolved : ResolvedPrefillContext) (footprint : KvFootprint) :
    ∃ metadata, ((store.reserveChunkedPrefillContext r p resolved footprint).ledger.viewOf
      r).context = some { resolved with cacheReturnMetadata := metadata } := by
  obtain ⟨metadata, hmetadata⟩ := takePrefix_context store p resolved
  refine ⟨metadata, ?_⟩
  rw [view_reserveChunkedPrefillContext, if_pos rfl, ← hmetadata]

/-- The first chunk of an admission works on the context resolved for it. -/
theorem contextOf_firstChunk (store : KvCacheStore acc n) (r : RequestId) (p : Fin n)
    (resolved : ResolvedPrefillContext) (footprint : KvFootprint) (tokens : Nat) :
    ∃ metadata, (((store.reserveChunkedPrefillContext r p resolved footprint).schedulePrefillChunk r
      p tokens).ledger.viewOf r).context =
        some ({ resolved with cacheReturnMetadata := metadata }.scheduleChunk tokens) := by
  obtain ⟨metadata, hcontext⟩ := contextOf_reserveChunked store r p resolved footprint
  exact ⟨metadata, contextOf_schedulePrefillChunk _ r p tokens hcontext⟩

theorem accounted_forming {s s' : Forming P acc n} (hstep : FormStep cfg s s')
    (hlocated : Located cfg s.worker) (h : Accounted s.worker) : Accounted s'.worker := by
  cases hstep with
  | @chunk p before after c context budget tokens left available started fresh resolved size
      positive spent =>
    have hat := hlocated.at_started (p := p) (c := c) (by simp [started])
    have hphase : s.worker.store.phaseOf c.requestId = .chunked p := hat.phase
    refine h.step c.requestId (fun t ht => entriesOf_scheduled hlocated.tracked hphase ht
      (ofRequest_rescheduled started (fun d hd => mem_kept hd) ht)) ?_
    have hcontext := contextOf_schedulePrefillChunk s.worker.store c.requestId p tokens resolved
    have hold := (h c.requestId).computing p context hphase resolved
    refine ⟨(h c.requestId).balanced, fun q context' _ hcontext' => ?_⟩
    obtain rfl := Option.some.inj (hcontext.symm.trans hcontext')
    refine ⟨?_, hold.whole, hold.reprocessed⟩
    -- the next chunk is no longer than what is left
    have hle := nextChunkTokens_le context (budget - cfg.draftingSlots) cfg.chunkEndAlignment
      cfg.maxBatchTokens
    have hwithin := hold.within
    rw [size] at hle
    simp only [ResolvedPrefillContext.remainingPrefillTokens] at hle
    simp only [ResolvedPrefillContext.scheduleChunk]
    omega
  | refresh p =>
    intro t
    exact (entriesOf_refresh hlocated p t).symm ▸ h t
  | @admitted p budget chunkBudget left slots slots' a worker available windows room gate claimed
      entered spent =>
    obtain ⟨hpeek, hresolved, -, -, -, hchunk, -⟩ := gateHead_spec gate
    refine h.step a.candidate.requestId
      (fun t ht => entriesOf_admitted hlocated hpeek entered ht) ?_
    have hwaiting := hlocated.at_waiting (mem_of_peek hpeek)
    have hfits : a.candidate.Fits (s.worker.requests a.candidate.requestId) := hwaiting.progress
    obtain ⟨record, hrecord, rfl⟩ := admitHead_spec entered
    obtain ⟨metadata, hcontext⟩ := contextOf_firstChunk s.worker.store a.candidate.requestId p
      a.resolvedPrefill a.footprint a.chunkTokens
    have hwhole : a.resolvedPrefill.residentPrefixTokens +
        a.resolvedPrefill.prefillTokensToCompute =
        a.candidate.freshPromptTokens + a.candidate.sessionInput.declaredPrefixTokens := by
      rw [hresolved]
      exact previewPrefillContext_whole ..
    rw [hfits.fresh, hfits.session, Nat.add_right_comm] at hwhole
    have hnew : a.resolvedPrefill.processedPrefillTokens = 0 := by
      rw [hresolved]
      rfl
    obtain ⟨hbalanced, hcomputing⟩ := (h a.candidate.requestId).balanced.admitted hrecord
      (hchunk.trans (Nat.min_le_left _ _)) hnew hwhole
    have hself : (Function.update s.worker.requests a.candidate.requestId
        (record.stampStage .prefill)) a.candidate.requestId = record.stampStage .prefill :=
      Function.update_self ..
    have hepisode : (s.worker.prefillEpisodes.insert a.candidate.requestId
        a.candidate.retracted).lookup a.candidate.requestId = some a.candidate.retracted :=
      AList.lookup_insert _
    have hstamped : SameAccount record (record.stampStage .prefill) := ⟨rfl, rfl, rfl, rfl⟩
    refine ⟨(congrArg Balanced hself).mpr (hstamped.balanced hbalanced),
      fun q context _ hcontext' => ?_⟩
    obtain rfl := Option.some.inj (hcontext.symm.trans hcontext')
    have howed := hstamped.computing hcomputing
    rw [← hself, ← hepisode] at howed
    exact ⟨howed.within, howed.whole, howed.reprocessed⟩

theorem accounted_completing (hstep : Completing cfg p w w') (hlocated : Located cfg w)
    (h : Accounted w) : Accounted w' := by
  cases hstep with
  | decoded step =>
    have hdecode := hlocated.decodeStep step
    intro r
    have hphase : (w'.entriesOf r).phase = (w.entriesOf r).phase := hdecode.phase r
    rcases hdecode.credited r with hsame | ⟨hlive, tokens, hleft, hretired⟩
    · refine (h r).of_same ?_ hphase ?_ ?_
      · exact (congrArg (SameAccount (w.requests r)) hsame).mpr (SameAccount.refl _)
      · exact congrArg (fun ledger => RequestLedger.viewOf ledger r) hdecode.ledger
      · have hepisodes : w'.prefillEpisodes = w.prefillEpisodes := by rw [hdecode.frame]
        exact congrArg (fun episodes => AList.lookup r episodes) hepisodes
    · -- a member of the step is resident
      refine Account.of_phase ((congrArg Balanced hretired).mpr ((h r).balanced.retired hleft))
        fun q hchunked => ?_
      have hresident := hphase.symm.trans hchunked
      rw [show (w.entriesOf r).phase = .resident p from hlocated.resident_of_live hlive]
          at hresident
      cases hresident
  | @prefilled _ r completed completed' admitted step =>
    have hchunk := hlocated.completePrefill admitted step
    refine h.step r hchunk.entries ?_
    obtain ⟨reprocessed, context, after, record, hepisode, hcontext, hafter, hrecord, hfinal⟩ :=
      completePrefill_spec step
    have hcontext' := contextOf_completePrefillChunk hcontext
    obtain rfl := Option.some.inj (hafter.symm.trans hcontext')
    obtain ⟨c, hat⟩ := hlocated.at_chunked hchunk.before
    have hfits : c.Fits (w.requests r) := hat.progress.1
    have hretracted : reprocessed = c.retracted := Option.some.inj (hepisode.symm.trans hat.episode)
    have howed := (h r).computing p context hchunk.before hcontext
    rw [show (w.entriesOf r).episode = some reprocessed from hepisode] at howed
    obtain ⟨hbalanced, hcomputing⟩ := (h r).balanced.recordChunk howed
      (fun hfresh => hfits.first (hretracted.symm.trans hfresh))
      (fun hagain => (hfits.again (hretracted.symm.trans hagain)).2) rfl hrecord
    have hself : (Function.update w.requests r record) r = record := Function.update_self ..
    by_cases hdone : context.completeChunk.remainingPrefillTokens = 0
    · -- the last chunk: the request decodes
      rw [if_pos hdone] at hfinal
      obtain ⟨rfl, -⟩ := hfinal
      refine Account.of_phase ((congrArg Balanced hself).mpr hbalanced) fun q hchunked => ?_
      rcases hchunk.credited with ⟨hphase, hsame⟩ | ⟨hphase, -⟩
      · have hemitted := (recordChunk_spec hrecord).2.1
        have hkept : record.outputTokensEmitted = (w.requests r).outputTokensEmitted :=
          (congrArg RequestRecord.outputTokensEmitted hself).symm.trans hsame
        rw [decide_eq_true hdone, hkept] at hemitted
        -- the last chunk of a prompt emits a token, so the request prefills no longer
        cases hreprocessed : reprocessed with
        | true => simp [hreprocessed] at hemitted
        | false =>
          have hzero := hfits.first (hretracted.symm.trans hreprocessed)
          simp [hreprocessed, hzero] at hemitted
      · have hresident := hphase.symm.trans hchunked
        cases hresident
    · rw [if_neg hdone] at hfinal
      obtain ⟨rfl, -⟩ := hfinal
      refine ⟨(congrArg Balanced hself).mpr hbalanced, fun q later _ hlater => ?_⟩
      obtain rfl := Option.some.inj (hcontext'.symm.trans hlater)
      have hnext := hcomputing (decide_eq_false hdone)
      rw [← hself, ← hepisode] at hnext
      exact ⟨hnext.within, hnext.whole, hnext.reprocessed⟩
  | cleared =>
    intro r
    exact (entriesOf_clear hlocated.tracked r).symm ▸ h r
  | @finished r resident complete free =>
    have habsent := phaseOf_releaseRetainingPrefix hlocated.tracked resident
    refine h.step r (fun s hs => entriesOf_releaseCompleted hlocated.tracked resident hs)
      (Account.of_phase (h r).balanced fun q hchunked => ?_)
    have hphase := habsent.symm.trans hchunked
    cases hphase

theorem accounted_enqueued (hstep : w.acceptMessage cfg r = .ok w') (h : Accounted w) :
    Accounted w' := by
  obtain ⟨q, c, sequence, balance, -, -, -, -, -, rfl⟩ := acceptMessage_spec hstep
  intro s
  refine (h s).of_same ?_ rfl rfl rfl
  by_cases hs : s = r
  · subst hs
    have hself : (Function.update w.requests s ((w.requests s).stampStage .pending)) s =
        (w.requests s).stampStage .pending := Function.update_self ..
    exact (congrArg (SameAccount (w.requests s)) hself).mpr ⟨rfl, rfl, rfl, rfl⟩
  · have hother : (Function.update w.requests r ((w.requests r).stampStage .pending)) s =
        w.requests s := Function.update_of_ne hs ..
    exact (congrArg (SameAccount (w.requests s)) hother).mpr (SameAccount.refl _)

theorem accounted_released (hlocated : Located cfg w) (h : Accounted w) :
    Accounted (w.releaseRequest r) := by
  rcases releaseRequest_cases w r with ⟨q, -, hw⟩ | ⟨-, episodes, hepisodes, hw⟩
  · rw [hw]
    exact fun s => (h s).of_same (SameAccount.refl _) rfl rfl rfl
  · rw [hw]
    have habsent : (StoreOp.apply w.store (.releaseExternal r)).phaseOf r = .absent :=
      (phaseOf_apply hlocated.tracked
        (show StoreOp.Issuable w.store (.releaseExternal r) from trivial)).trans (if_pos rfl)
    refine h.step r (fun s hs => entriesOf_dropped hlocated hepisodes hs)
      (Account.of_phase (h r).balanced fun q hchunked => ?_)
    have hphase := habsent.symm.trans hchunked
    cases hphase

theorem accounted_invariant : TurnInvariant cfg (Accounted : ChunkedPrefillWorker P acc n → Prop)
    where
  frame := fun _ _ _ _ h => h
  making := fun hstep hlocated _ h => accounted_making hstep hlocated h
  forming := fun hstep hlocated h => accounted_forming hstep hlocated h
  completing := fun hstep hlocated h => accounted_completing hstep hlocated h
  enqueued := fun hstep _ h => accounted_enqueued hstep h
  released := fun hlocated h => accounted_released hlocated h

/-! ## Nothing emitted is taken back -/

/-- Requests keep their definition and the tokens they emitted. -/
def Credits (w w' : ChunkedPrefillWorker P acc n) : Prop :=
  ∀ r, (w'.requests r).definition = (w.requests r).definition ∧
    (w.requests r).outputTokensEmitted ≤ (w'.requests r).outputTokensEmitted

omit [PendingOrderPolicy P] in
theorem Credits.of_update {start : ChunkedPrefillWorker P acc n} (h : Credits start w)
    {record : RequestRecord} (hdefinition : record.definition = (w.requests r).definition)
    (hemitted : (w.requests r).outputTokensEmitted ≤ record.outputTokensEmitted)
    (hrequests : w'.requests = Function.update w.requests r record) : Credits start w' := by
  intro s
  obtain ⟨hdefinition', hemitted'⟩ := h s
  rw [hrequests]
  by_cases hs : s = r
  · subst hs
    rw [Function.update_self]
    exact ⟨hdefinition.trans hdefinition', hemitted'.trans hemitted⟩
  · rw [Function.update_of_ne hs]
    exact ⟨hdefinition', hemitted'⟩

theorem credited_invariant (start : ChunkedPrefillWorker P acc n) :
    TurnInvariant cfg (Credits start) where
  frame := fun _ _ _ _ h => h
  making := by
    intro config stepTokens w w' hstep _ _ h
    cases hstep with
    | prepare q => exact h
    | retract q victim live =>
      obtain ⟨c, f, record, -, -, -, -, -, -, hrecord, hw⟩ :=
        requeueRetracted_spec (w.issue (.release victim q)) q victim config.retractionPolicy
      rw [hw]
      have hdefinition : record.definition = (w.requests victim).definition := by
        rw [hrecord]
        rfl
      refine h.of_update hdefinition ?_ rfl
      rw [hrecord]
      exact Nat.le_refl _
    | ratio x => exact h
  forming := by
    intro s s' hstep _ h
    cases hstep with
    | chunk => exact h
    | refresh p => exact h
    | admitted _ _ _ gate _ entered =>
      obtain ⟨record, hrecord, rfl⟩ := admitHead_spec entered
      obtain ⟨hdefinition, hemitted, -, -⟩ := admittedRecord_spec hrecord
      -- the stamped record is the one the update holds
      refine h.of_update ?_ ?_ rfl
      · exact hdefinition
      · exact hemitted.ge
  completing := by
    intro p w w' hstep hlocated h
    cases hstep with
    | decoded step =>
      intro r
      obtain ⟨hdefinition, hemitted⟩ := h r
      rcases (hlocated.decodeStep step).credited r with hsame | ⟨-, tokens, -, hretired⟩
      · rw [hsame]
        exact ⟨hdefinition, hemitted⟩
      · obtain ⟨hkept, hmore, -⟩ := DecodeCompletion.retired_spec (w.requests r) tokens
        rw [hretired]
        exact ⟨hkept.trans hdefinition, by omega⟩
    | @prefilled _ r completed completed' admitted step =>
      have hchunk := hlocated.completePrefill admitted step
      intro s
      obtain ⟨hdefinition, hemitted⟩ := h s
      by_cases hs : s = r
      · subst hs
        refine ⟨hchunk.definition.trans hdefinition, ?_⟩
        rcases hchunk.credited with ⟨-, hsame⟩ | ⟨-, hmore⟩ <;> omega
      · rw [(hchunk.other hs).2]
        exact ⟨hdefinition, hemitted⟩
    | cleared => exact h
    | finished => exact h
  enqueued := by
    intro r w w' hstep _ h
    obtain ⟨q, c, sequence, balance, -, -, -, -, -, rfl⟩ := acceptMessage_spec hstep
    have hstamped : ((w.requests r).stampStage .pending).definition =
      (w.requests r).definition := rfl
    exact h.of_update hstamped (Nat.le_refl _) rfl
  released := by
    intro r w _ h
    rcases releaseRequest_cases w r with ⟨q, -, hw⟩ | ⟨-, episodes, -, hw⟩
    · rw [hw]
      exact h
    · rw [hw]
      exact h

omit [PendingOrderPolicy P] in
theorem Credits.isComplete (h : Credits w w') (hr : (w.requests r).isComplete = true) :
    (w'.requests r).isComplete = true := by
  obtain ⟨hdefinition, hemitted⟩ := h r
  obtain ⟨-, htarget, -⟩ := RequestRecord.prompt_of_definition hdefinition
  simp only [RequestRecord.isComplete, ge_iff_le, decide_eq_true_eq] at hr ⊢
  omega

omit [PendingOrderPolicy P] in
theorem Credits.refl (w : ChunkedPrefillWorker P acc n) : Credits w w :=
  fun _ => ⟨rfl, Nat.le_refl _⟩

theorem completeIteration_complete (h : Located cfg w) {events : List RequestId}
    (hstep : w.completeIteration cfg = .ok (w', events)) :
    ∀ s ∈ events, (w'.requests s).isComplete = true := by
  have hall := Run.tryRun_induction
    (I := fun _ (state : ChunkedPrefillWorker P acc n × List RequestId) =>
      Located cfg state.1 ∧ ∀ s ∈ state.2, (state.1.requests s).isComplete = true)
    (fun p _ state state' hI hturn => by
      obtain ⟨hlocated, hcomplete⟩ := hI
      obtain ⟨hpath, -, completed, hevents, hadded⟩ := completePartition_path hlocated hturn
      have hcredits : Credits state.1 state'.1 := (credited_invariant state.1).completing_path
          (hpath.lift id fun _ _ hstep => ⟨p, hstep⟩) hlocated (Credits.refl _)
      refine ⟨located_of_completing hpath hlocated, fun s hs => ?_⟩
      rw [hevents] at hs
      rcases List.mem_append.mp hs with hs | hs
      · exact hcredits.isComplete (hcomplete s hs)
      · exact hadded s hs)
    ⟨h, fun s hs => absurd hs List.not_mem_nil⟩ hstep
  exact hall.2

/-! ## Conservation -/

theorem accounted_new (cfg : ChunkedPrefillConfig n) (budget : PrefixCacheBudget)
    {requests : Requests} (hrequests : ∀ r, (requests r).Fresh) (policies : Fin n → P)
    (balance : LoadBalance) :
    Accounted (ChunkedPrefillWorker.new cfg budget requests policies balance :
      ChunkedPrefillWorker P acc n) := by
  intro r
  refine Account.of_phase (hrequests r).balanced fun p hchunked => ?_
  have hphase : Phase.absent = Phase.chunked p := hchunked
  cases hphase

theorem Located.resident_of_decode (h : Located cfg w) {state : ResidentDecodeState acc}
    (hstate : w.store.decodeOf p r = some state) : w.store.phaseOf r = .resident p :=
  ((h.tracked r).resident p).mp ((w.store.resident_iff_decodeOf p r).mpr (by simp [hstate]))

/-- What holds of the tokens of every request the worker knows. The prompt of a request is its
declared prefix with its own prompt tokens. -/
structure Conserved (cfg : ChunkedPrefillConfig n) (w : ChunkedPrefillWorker P acc n) : Prop where
  /-- A resident decode holds the KV of every token but the last one emitted. -/
  currentKv : ∀ p r state, w.store.decodeOf p r = some state → state.currentKv + 1 =
    (w.requests r).promptTokens + (w.requests r).session.declaredPrefixTokens +
      (w.requests r).outputTokensEmitted
  remaining : ∀ p r state, w.store.decodeOf p r = some state → state.remainingDecode =
    (w.requests r).targetOutputTokens - (w.requests r).outputTokensEmitted
  /-- A retracted request waits with the tokens it emitted as part of its prompt. -/
  retracted : ∀ p, ∀ c ∈ candidates (w.policies p), c.Fits (w.requests c.requestId)
  /-- A prefill holds and computes the whole prompt with the output so far. -/
  prefilled : ∀ p r context, w.store.phaseOf r = .chunked p →
    (w.store.ledger.viewOf r).context = some context →
    context.residentPrefixTokens + context.prefillTokensToCompute =
      (w.requests r).promptTokens + (w.requests r).session.declaredPrefixTokens +
        (w.requests r).outputTokensEmitted
  /-- A recomputation that is over computed the context less what the cache served. -/
  recomputed : ∀ r, ∀ episode ∈ (w.requests r).reprocessedPrefills, episode.completed = true →
    episode.prefillTokensProcessed + episode.prefixCacheHitTokens =
      (w.requests r).promptTokens + (w.requests r).session.declaredPrefixTokens +
        episode.outputTokensBefore
  /-- Every emitted token is in the log once. -/
  logged : ∀ r, (w.requests r).outputTimes = (w.requests r).outputTokensEmitted
  bounded : ∀ r, 0 < (w.requests r).targetOutputTokens →
    (w.requests r).outputTokensEmitted ≤ (w.requests r).targetOutputTokens
  /-- No step takes emitted tokens back. -/
  monotone : ∀ (op : WorkerOp) w', op.Enabled w → op.step cfg w = .ok w' → Credits w w'
  /-- The requests an iteration reports have emitted all their tokens, and no more. -/
  reported : ∀ w' events, w.computing = true → w.completeIteration cfg = .ok (w', events) →
    ∀ r ∈ events, 0 < (w'.requests r).targetOutputTokens →
      (w'.requests r).outputTokensEmitted = (w'.requests r).targetOutputTokens

/-- In every state a run reaches, through any retractions, the tokens of every request add
up. -/
theorem decode_token_conservation (h : Reached cfg w) : Conserved cfg w := by
  obtain ⟨hsettled, haccounts⟩ := h.invariant
    (fun budget requests policies balance hrequests _ =>
      accounted_new cfg budget hrequests policies balance)
    fun w op w' hsettled hw hop hstep => accounted_invariant.step hsettled hw hop hstep
  have hlocated := hsettled.located
  have hin : ∀ p r state, w.store.decodeOf p r = some state → InStep (w.requests r) state := by
    intro p r state hstate
    obtain ⟨state', hstate', hin⟩ :=
      (hlocated.at_resident (hlocated.resident_of_decode hstate)).progress
    obtain rfl : state = state' := Option.some.inj (hstate.symm.trans hstate')
    exact hin
  refine
    { currentKv := fun p r state hstate => (hin p r state hstate).currentKv
      remaining := fun p r state hstate => (hin p r state hstate).remaining
      retracted := fun p c hc => (hlocated.at_waiting hc).progress
      prefilled := fun p r context hphase hcontext =>
        ((haccounts r).computing p context hphase hcontext).whole
      recomputed := fun r => (haccounts r).balanced.closed
      logged := fun r => (haccounts r).balanced.logged
      bounded := fun r => (haccounts r).balanced.bounded
      monotone := fun op w' hop hstep =>
        (credited_invariant w).step hsettled (Credits.refl w) hop hstep
      reported := ?_ }
  intro w' events hcomputing hstep r hr htarget
  obtain ⟨hpath, -, -⟩ := completeIteration_path hlocated hstep
  -- the iteration's turns keep the accounts, so no target is passed
  have hafter := accounted_invariant.completing_path hpath hlocated haccounts
  have hle : (w'.requests r).outputTokensEmitted ≤ (w'.requests r).targetOutputTokens :=
    (hafter r).balanced.bounded htarget
  have hge := completeIteration_complete hlocated hstep r hr
  simp only [RequestRecord.isComplete, ge_iff_le, decide_eq_true_eq] at hge
  omega

/-- An engine that admits on the first tokens of an answer and retracts the shorter output. -/
def retractingEngine : ChunkedPrefillConfig 1 where
  maxBatchTokens := 100
  batchPolicy := .mix
  kvAdmission := .boundedFuture
    ⟨1, 1, 0, 0, 1, 1, .length, rfl, Nat.one_pos, by decide, by decide, Nat.one_pos, Nat.one_pos⟩
  chunkEndAlignment := none
  decodeCompletion := .singleToken
  draftingSlots := 0
  maxBatchTokens_pos := by decide
  partitions_pos := Nat.one_pos
  onePartition := fun _ _ => rfl
  quantum_pos := ChunkedPrefillConfig.quantum_pos_none

/-- Two prompts of twelve tokens with four to emit do not fit twenty-eight units to the end:
the second is retracted after two tokens, and computed again. -/
theorem decode_token_conservation_two :
    ∃ w : ChunkedPrefillWorker PendingOrder (KvAccounting.tokensForTest 28 (by decide)) 1,
      ((w.requests 1).outputTokensEmitted = 4 ∧ (w.requests 2).outputTokensEmitted = 3 ∧
        (w.requests 2).retractionCount = 1 ∧
        (w.requests 2).reprocessedPrefills = [⟨2, 0, 14, true⟩]) ∧
      Conserved retractingEngine w := by
  have hchecked : ∃ w : ChunkedPrefillWorker PendingOrder
      (KvAccounting.tokensForTest 28 (by decide)) 1,
      Run.tryRun (WorkerOp.step retractingEngine)
        (ChunkedPrefillWorker.new retractingEngine .disabled
          (fun r => .fromRequest r 0 12 4 .standalone) (fun _ => .new .fifo) .single)
        [.enqueue 1, .enqueue 2, .formBatch, .completeIteration, .formBatch, .completeIteration,
          .formBatch, .completeIteration, .formBatch, .completeIteration, .formBatch,
          .completeIteration] = .ok w ∧
      decide ((w.requests 1).outputTokensEmitted = 4 ∧ (w.requests 2).outputTokensEmitted = 3 ∧
        (w.requests 2).retractionCount = 1 ∧
        (w.requests 2).reprocessedPrefills = [⟨2, 0, 14, true⟩]) = true :=
    exists_ok_of_check (by decide +kernel)
  obtain ⟨w, hrun, htokens⟩ := hchecked
  have hreached : Reached retractingEngine w :=
    ⟨.disabled, fun r => .fromRequest r 0 12 4 .standalone, fun _ => .new .fifo, .single, _,
      fun _ => rfl, fun _ => rfl, by decide +kernel, hrun⟩
  exact ⟨w, of_decide_eq_true htokens, decode_token_conservation hreached⟩

end ServingSim
