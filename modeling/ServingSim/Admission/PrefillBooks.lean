import ServingSim.Admission.Cancellation
import ServingSim.Admission.TokenConservation

/-
  The books a worker keeps of the prefills of a request.

  Four tables speak of one prefill: the worker's episode map, its started prompts, the
  chunks in the iteration, and the request's own record, which notes the prefix hit of the
  first prefill once and opens an episode for each later one. They are written at different
  places: at admission, at the completion of a chunk, at a retraction and at a
  cancellation. `PrefillBooked` says what a record shows wherever its request is, `Shut` that no
  prefill of it is open and `Opened` how far the open one is; `Filed` says which of them
  holds by where the request is.
-/

namespace ServingSim

open KeyedTotal PendingOrderPolicy KvCacheStore Relation ChunkedPrefillWorker

/-! ## Records -/

/-- The first prefill is complete: what the cache served and what was computed make up the
prompt. -/
def FirstDone (record : RequestRecord) : Prop :=
  ∃ hit, record.prefixCacheHitTokens = some hit ∧ hit + record.prefillTokensProcessed =
      record.promptTokens + record.session.declaredPrefixTokens

/-- What a record shows of the prefills of its request, wherever the request is. -/
structure PrefillBooked (record : RequestRecord) : Prop where
  /-- The hit of the first prefill is no longer than the declared prefix. -/
  within : ∀ hit, record.prefixCacheHitTokens = some hit → hit ≤ record.session.declaredPrefixTokens
  /-- It is noted when the request is first admitted. -/
  noted : record.admitted = true ↔ record.prefixCacheHitTokens ≠ none
  first : 0 < record.outputTokensEmitted → FirstDone record
  /-- A prefill is repeated after the first one is complete. -/
  again : record.reprocessedPrefills ≠ [] → 0 < record.outputTokensEmitted
  /-- An episode is opened after the ones before it were completed. -/
  earlier : ∀ episode ∈ record.reprocessedPrefills.dropLast, episode.completed = true
  retractions : record.retractionCount ≤ record.outputTokensEmitted

/-- No prefill of the request is open. -/
structure Shut (record : RequestRecord) : Prop where
  untouched : record.outputTokensEmitted = 0 →
    record.prefixCacheHitTokens = none ∧ record.prefillTokensProcessed = 0
  closed : ∀ episode ∈ record.reprocessedPrefills, episode.completed = true

/-- The first prefill is open, or the last episode is; its record counts what the context
has processed. -/
structure Opened (reprocessed : Bool) (record : RequestRecord)
    (context : ResolvedPrefillContext) : Prop where
  first : reprocessed = false → record.outputTokensEmitted = 0 ∧
    record.prefixCacheHitTokens = some context.residentPrefixTokens ∧
    record.prefillTokensProcessed = context.processedPrefillTokens
  again : reprocessed = true → 0 < record.outputTokensEmitted ∧
    ∃ last, record.reprocessedPrefills.getLast? = some last ∧ last.completed = false

/-- Records that agree on their first prefill and their retractions. -/
structure SameFirst (record record' : RequestRecord) : Prop where
  definition : record'.definition = record.definition
  admitted : record'.admitted = record.admitted
  hit : record'.prefixCacheHitTokens = record.prefixCacheHitTokens
  retractions : record'.retractionCount = record.retractionCount

section records

variable {record record' : RequestRecord} {context : ResolvedPrefillContext}

theorem SameFirst.refl (record : RequestRecord) : SameFirst record record :=
  ⟨rfl, rfl, rfl, rfl⟩

theorem SameFirst.trans {record'' : RequestRecord} (h : SameFirst record record')
    (h' : SameFirst record' record'') : SameFirst record record'' where
  definition := h'.definition.trans h.definition
  admitted := h'.admitted.trans h.admitted
  hit := h'.hit.trans h.hit
  retractions := h'.retractions.trans h.retractions

theorem SameFirst.firstDone (h : SameFirst record record')
    (hprocessed : record'.prefillTokensProcessed = record.prefillTokensProcessed)
    (hdone : FirstDone record) : FirstDone record' := by
  obtain ⟨hprompt, -, hsession⟩ := RequestRecord.prompt_of_definition h.definition
  obtain ⟨hit, hhit, hsum⟩ := hdone
  refine ⟨hit, h.hit.trans hhit, ?_⟩
  rw [hprocessed, hprompt, hsession]
  exact hsum

theorem recordToken_first (record : RequestRecord) : SameFirst record record.recordToken ∧
      record.recordToken.prefillTokensProcessed = record.prefillTokensProcessed := by
  unfold RequestRecord.recordToken
  dsimp only
  split
  · exact ⟨⟨rfl, rfl, rfl, rfl⟩, rfl⟩
  · exact ⟨⟨rfl, rfl, rfl, rfl⟩, rfl⟩

theorem retired_first (record : RequestRecord) (tokens : Nat) :
    SameFirst record (DecodeCompletion.retired record tokens) ∧
      (DecodeCompletion.retired record tokens).prefillTokensProcessed =
        record.prefillTokensProcessed := by
  have hiterate : SameFirst record (RequestRecord.recordToken^[tokens] record) ∧
      (RequestRecord.recordToken^[tokens] record).prefillTokensProcessed =
        record.prefillTokensProcessed := by
    induction tokens generalizing record with
    | zero => exact ⟨.refl record, rfl⟩
    | succ tokens ih =>
      obtain ⟨hfirst, hprocessed⟩ := recordToken_first record
      obtain ⟨hfirst', hprocessed'⟩ := ih record.recordToken
      rw [Function.iterate_succ_apply]
      exact ⟨hfirst.trans hfirst', hprocessed'.trans hprocessed⟩
  obtain ⟨hfirst, hprocessed⟩ := hiterate
  unfold DecodeCompletion.retired
  dsimp only
  split
  · exact ⟨⟨hfirst.definition, hfirst.admitted, hfirst.hit, hfirst.retractions⟩, hprocessed⟩
  · exact ⟨hfirst, hprocessed⟩

theorem PrefillBooked.retired (h : PrefillBooked record) (hshut : Shut record)
    (hemitted : 0 < record.outputTokensEmitted) (tokens : Nat) :
    PrefillBooked (DecodeCompletion.retired record tokens) ∧
      Shut (DecodeCompletion.retired record tokens) ∧
      record.outputTokensEmitted ≤
        (DecodeCompletion.retired record tokens).outputTokensEmitted := by
  obtain ⟨hfirst, hprocessed⟩ := retired_first record tokens
  obtain ⟨-, hepisodes⟩ := DecodeCompletion.retired_log record tokens
  obtain ⟨-, hmore, -⟩ := DecodeCompletion.retired_spec record tokens
  obtain ⟨-, -, hsession⟩ := RequestRecord.prompt_of_definition hfirst.definition
  have hretractions := h.retractions
  refine ⟨⟨?_, ?_, fun _ => ?_, fun _ => ?_, ?_, ?_⟩, ⟨fun hzero => ?_, ?_⟩, ?_⟩
  · rw [hfirst.hit, hsession]
    exact h.within
  · rw [hfirst.admitted, hfirst.hit]
    exact h.noted
  · exact hfirst.firstDone hprocessed (h.first hemitted)
  · omega
  · rw [hepisodes]
    exact h.earlier
  · rw [hfirst.retractions]
    omega
  · omega
  · rw [hepisodes]
    exact hshut.closed
  · omega

theorem PrefillBooked.retracted (h : PrefillBooked record) (hshut : Shut record)
    (hlive : record.retractionCount < record.outputTokensEmitted) (stage : UnifiedStage) :
    PrefillBooked (record.recordRetraction.stampStage stage) ∧
      Shut (record.recordRetraction.stampStage stage) := by
  refine ⟨⟨h.within, h.noted, h.first, h.again, h.earlier, ?_⟩, hshut.untouched, hshut.closed⟩
  exact hlive

theorem PrefillBooked.stamped (h : PrefillBooked record) (stage : UnifiedStage) :
    PrefillBooked (record.stampStage stage) :=
  ⟨h.within, h.noted, h.first, h.again, h.earlier, h.retractions⟩

theorem Shut.stamped (h : Shut record) (stage : UnifiedStage) : Shut (record.stampStage stage) :=
  ⟨h.untouched, h.closed⟩

theorem RequestRecord.Fresh.booked (h : record.Fresh) : PrefillBooked record ∧ Shut record := by
  rw [h]
  refine ⟨⟨?_, ?_, ?_, ?_, ?_, Nat.le_refl _⟩, fun _ => ⟨rfl, rfl⟩, ?_⟩
  · intro hit hhit
    cases hhit
  · exact ⟨nofun, fun hnone => absurd rfl hnone⟩
  · exact fun hpositive => absurd hpositive (Nat.lt_irrefl 0)
  · exact fun hnil => absurd rfl hnil
  · exact fun episode he => absurd he List.not_mem_nil
  · exact fun episode he => absurd he List.not_mem_nil

theorem PrefillBooked.admitted (h : PrefillBooked record) (hshut : Shut record) {a : Admission}
    (hfits : a.candidate.Fits record) (hadmitted : admittedRecord a record = .ok record')
    (hresident : a.resolvedPrefill.residentPrefixTokens ≤ record.session.declaredPrefixTokens)
    (hnew : a.resolvedPrefill.processedPrefillTokens = 0) :
    PrefillBooked record' ∧ Opened a.candidate.retracted record' a.resolvedPrefill := by
  unfold admittedRecord at hadmitted
  split at hadmitted
  · next hretracted =>
    -- the episodes before the one opened are closed
    obtain ⟨hemitted, -⟩ := hfits.again hretracted
    rw [RequestRecord.beginReprocessedPrefill_spec hadmitted]
    refine ⟨⟨h.within, ⟨fun _ => ?_, fun _ => rfl⟩, fun _ => h.first hemitted, fun _ => hemitted,
      ?_, h.retractions⟩, ⟨fun hfresh => ?_, fun _ =>
      ⟨hemitted, ⟨record.outputTokensEmitted, a.resolvedPrefill.residentPrefixTokens, 0, false⟩, ?_,
        rfl⟩⟩⟩
    · obtain ⟨hit, hhit, -⟩ := h.first hemitted
      exact hhit ▸ Option.some_ne_none hit
    · intro episode hepisode
      rw [List.dropLast_concat] at hepisode
      exact hshut.closed episode hepisode
    · rw [hretracted] at hfresh
      cases hfresh
    · exact List.getLast?_concat
  · next hfresh =>
    have hzero := hfits.first (Bool.eq_false_iff.mpr hfresh)
    rw [RequestRecord.recordPrefixCacheHitTokens_spec hadmitted]
    refine ⟨⟨fun hit hhit => ?_, ⟨fun _ => Option.some_ne_none _, fun _ => rfl⟩, fun hemitted => ?_,
      h.again, h.earlier, h.retractions⟩, ⟨fun _ => ⟨hzero, rfl, ?_⟩, fun hagain => ?_⟩⟩
    · rw [← Option.some.inj hhit]
      exact hresident
    · exact absurd hzero (Nat.ne_of_gt hemitted)
    · exact (hshut.untouched hzero).2.trans hnew.symm
    · exact absurd hagain hfresh

theorem recordChunk_first {finished : Bool} {chunkTokens : Nat}
    (h : ChunkedPrefillWorker.recordChunk true finished chunkTokens record = .ok record') :
    SameFirst record record' ∧ record'.prefillTokensProcessed = record.prefillTokensProcessed := by
  simp only [ChunkedPrefillWorker.recordChunk, if_true, bind_eq_ok_iff] at h
  obtain ⟨recorded, hrecorded, h⟩ := h
  obtain ⟨last, -, -, rfl⟩ := RequestRecord.updateEpisode_spec hrecorded
  cases finished with
  | false =>
    obtain rfl := Except.ok.inj h
    exact ⟨⟨rfl, rfl, rfl, rfl⟩, rfl⟩
  | true =>
    simp only [if_true, bind_eq_ok_iff] at h
    obtain ⟨closed, hclosed, emitted, hemitted, h⟩ := h
    obtain ⟨last', -, -, rfl⟩ := RequestRecord.updateEpisode_spec hclosed
    obtain rfl := Except.ok.inj hemitted
    obtain rfl := Except.ok.inj h
    obtain ⟨hfirst, hprocessed⟩ := recordToken_first { record with
      reprocessedPrefills := (record.reprocessedPrefills.dropLast ++ [{ last with
          prefillTokensProcessed := last.prefillTokensProcessed + chunkTokens }]).dropLast ++
        [{ last' with completed := true }] }
    exact ⟨⟨hfirst.definition, hfirst.admitted, hfirst.hit, hfirst.retractions⟩, hprocessed⟩

theorem PrefillBooked.recordChunk (h : PrefillBooked record) {reprocessed finished : Bool}
    (hopened : Opened reprocessed record context)
    (hcomputing : Computing (some reprocessed) record context)
    (hfinished : finished = decide (context.completeChunk.remainingPrefillTokens = 0))
    (hrecord : recordChunk reprocessed finished context.activeChunk.2 record = .ok record') :
    PrefillBooked record' ∧ (finished = true →
        Shut record' ∧ record'.retractionCount < record'.outputTokensEmitted) ∧
      (finished = false → Opened reprocessed record' context.completeChunk) := by
  have hretractions := h.retractions
  cases reprocessed with
  | false =>
    obtain ⟨hzero, hhit, hprocessed⟩ := hopened.first rfl
    -- a first prefill has emitted nothing, so it was never run again
    have hnone : record.reprocessedPrefills = [] := by
      by_contra hne
      exact absurd hzero (Nat.ne_of_gt (h.again hne))
    cases finished with
    | false =>
      obtain rfl := Except.ok.inj hrecord
      refine ⟨⟨h.within, h.noted, fun hemitted => ?_, h.again, h.earlier, h.retractions⟩,
        nofun, fun _ => ⟨fun _ => ⟨hzero, hhit, ?_⟩, nofun⟩⟩
      · exact absurd hzero (Nat.ne_of_gt hemitted)
      · exact congrArg (· + context.activeChunkTokens) hprocessed
    | true =>
      obtain rfl := Except.ok.inj hrecord
      refine ⟨⟨h.within, h.noted, fun _ => ⟨_, hhit, ?_⟩, fun _ => Nat.one_pos, h.earlier, ?_⟩,
        fun _ => ⟨⟨nofun, fun episode hepisode => ?_⟩, ?_⟩, nofun⟩
      · -- nothing is left to compute
        have hwithin := hcomputing.within
        have hwhole := hcomputing.whole
        have hdone := of_decide_eq_true hfinished.symm
        simp only [ResolvedPrefillContext.remainingPrefillTokens,
          ResolvedPrefillContext.completeChunk] at hdone
        show context.residentPrefixTokens +
          (record.prefillTokensProcessed + context.activeChunkTokens) =
            record.promptTokens + record.session.declaredPrefixTokens
        omega
      · show record.retractionCount ≤ 1
        omega
      · have hmem : episode ∈ record.reprocessedPrefills := hepisode
        rw [hnone] at hmem
        cases hmem
      · show record.retractionCount < 1
        omega
  | true =>
    obtain ⟨hemitted, -⟩ := hopened.again rfl
    obtain ⟨hfirst, hprocessed⟩ := recordChunk_first hrecord
    obtain ⟨last, -, -, -, hmore, -, hepisodes⟩ := recordChunk_reprocessed hrecord
    obtain ⟨-, -, hsession⟩ := RequestRecord.prompt_of_definition hfirst.definition
    have hpositive : 0 < record'.outputTokensEmitted := by omega
    -- a later prefill writes into its last episode; what the first one left stays
    have hlast : record'.reprocessedPrefills.getLast? = some { last with
        prefillTokensProcessed := last.prefillTokensProcessed + context.activeChunk.2
        completed := finished } := by
      rw [hepisodes]
      exact List.getLast?_concat
    refine ⟨⟨?_, ?_, fun _ => ?_, fun _ => hpositive, ?_, ?_⟩,
      fun hdone => ⟨⟨fun hnot => ?_, ?_⟩, ?_⟩,
      fun hrest => ⟨nofun, fun _ => ⟨hpositive, _, hlast, hrest⟩⟩⟩
    · rw [hfirst.hit, hsession]
      exact h.within
    · rw [hfirst.admitted, hfirst.hit]
      exact h.noted
    · exact hfirst.firstDone hprocessed (h.first hemitted)
    · rw [hepisodes, List.dropLast_concat]
      exact h.earlier
    · rw [hfirst.retractions]
      omega
    · exact absurd hnot (Nat.ne_of_gt hpositive)
    · intro episode hepisode
      rw [hepisodes, List.mem_append] at hepisode
      rcases hepisode with hold | hlast
      · exact h.earlier episode hold
      · rw [List.mem_singleton.mp hlast]
        exact hdone
    · rw [hfirst.retractions, hmore, if_pos hdone]
      omega

end records

/-! ## The books of the worker -/

variable {P : Type} [PendingOrderPolicy P] {acc : KvAccounting} {n : Nat}
  {cfg : ChunkedPrefillConfig n} {w w' : ChunkedPrefillWorker P acc n} {r : RequestId} {p : Fin n}

/-- What the record shows, by where the request is. A cancelled request keeps its record as
it was, its prefill open. -/
structure Filed (e : Entries acc n) : Prop where
  booked : PrefillBooked e.record
  opened : ∀ p context reprocessed, e.phase = .chunked p → e.view.context = some context →
    e.episode = some reprocessed → Opened reprocessed e.record context
  shut : (e.record.stage = none ∨ (∃ p, e.waiting p ≠ []) ∨ ∃ p, e.phase = .resident p) →
    Shut e.record
  live : ∀ p, e.phase = .resident p → e.record.retractionCount < e.record.outputTokensEmitted

def PrefillBooks (w : ChunkedPrefillWorker P acc n) : Prop := ∀ r, Filed (w.entriesOf r)

theorem Filed.of_shut {e : Entries acc n} (hbooked : PrefillBooked e.record) (hshut : Shut e.record)
    (hphase : ∀ p, e.phase ≠ .chunked p)
    (hlive : ∀ p, e.phase = .resident p →
      e.record.retractionCount < e.record.outputTokensEmitted) : Filed e :=
  ⟨hbooked, fun p _ _ hchunked => absurd hchunked (hphase p), fun _ => hshut, hlive⟩

theorem Filed.of_chunked {e : Entries acc n} {location : Location n} (hat : At cfg e location)
    (hphase : e.phase = .chunked p) (hbooked : PrefillBooked e.record)
    (hopened : ∀ context reprocessed, e.view.context = some context →
      e.episode = some reprocessed → Opened reprocessed e.record context) : Filed e := by
  have hlocation : location.phase = .chunked p := hat.phase.symm.trans hphase
  refine ⟨hbooked, fun _ context reprocessed _ => hopened context reprocessed, fun hwhere => ?_,
    fun q hresident => ?_⟩
  · rcases hwhere with hstage | ⟨q, hwaiting⟩ | ⟨q, hresident⟩
    · rw [hat.stage.mp hstage] at hlocation
      cases hlocation
    · rw [hat.waiting q] at hwaiting
      cases location with
      | prefilling | decoding | unseen | gone => exact absurd rfl hwaiting
      | queued _ _ => cases hlocation
    · cases hphase.symm.trans hresident
  · cases hphase.symm.trans hresident

theorem PrefillBooks.step (h : PrefillBooks w) (q : RequestId)
    (hother : ∀ s, s ≠ q → w'.entriesOf s = w.entriesOf s) (hq : Filed (w'.entriesOf q)) :
    PrefillBooks w' := by
  intro s
  by_cases hs : s = q
  · exact hs ▸ hq
  · rw [hother s hs]
    exact h s

theorem books_making {config : BoundedFutureKvAdmissionConfig} {stepTokens : Nat}
    (hstep : Making config stepTokens w w') (hlocated : Located cfg w) (h : PrefillBooks w) :
    PrefillBooks w' := by
  cases hstep with
  | prepare q =>
    intro s
    rw [entriesOf_prepare hlocated.tracked]
    exact h s
  | retract q victim live =>
    have hop := issuable_release hlocated live
    have hresident := hlocated.resident_of_live live
    refine h.step victim (fun s hs => entriesOf_retracted hlocated live _ hs) ?_
    obtain ⟨c, f, record, -, -, -, -, -, -, hrecord, hw⟩ :=
      requeueRetracted_spec (w.issue (.release victim q)) q victim config.retractionPolicy
    have hself : (Function.update w.requests victim record) victim = record :=
      Function.update_self ..
    have habsent : (StoreOp.apply w.store (.release victim q)).phaseOf victim = .absent :=
      (phaseOf_apply hlocated.tracked hop).trans (if_pos rfl)
    obtain ⟨hbooked, hshut⟩ := (h victim).booked.retracted
      ((h victim).shut (.inr (.inr ⟨q, hresident⟩))) ((h victim).live q hresident) .pending
    have hkept : PrefillBooked record ∧ Shut record := by
      rw [hrecord]
      exact ⟨hbooked, hshut⟩
    rw [hw]
    refine Filed.of_shut ?_ ?_ (fun q' hchunked => ?_) fun q' hplaced => ?_
    · exact (congrArg PrefillBooked hself).mpr hkept.1
    · exact (congrArg Shut hself).mpr hkept.2
    · cases habsent.symm.trans hchunked
    · cases habsent.symm.trans hplaced
  | ratio x => exact h

theorem previewPrefillContext_resident (store : KvCacheStore acc n) (p : Fin n)
    (freshPromptTokens : Nat) (input : SessionInput) :
    (store.previewPrefillContext p freshPromptTokens input).residentPrefixTokens ≤
      input.declaredPrefixTokens := by
  have hnew : ∀ resident, resident ≤ input.declaredPrefixTokens →
      (ResolvedPrefillContext.new input resident freshPromptTokens).residentPrefixTokens ≤
        input.declaredPrefixTokens := by
    intro resident hle
    simp only [ResolvedPrefillContext.new]
    split <;> omega
  apply hnew
  cases input with
  | standalone => exact Nat.zero_le _
  | pinnedPrefix prefixTokens => exact Nat.le_refl _
  | session sessionId start declared => exact PrefixCache.peek_le ..

theorem PrefillBooks.admitHead {budget : Nat} {slots : Option Nat} {a : Admission}
    (h : PrefillBooks w) (hlocated : Located cfg w) (hgate : gateHead cfg w p budget slots = some a)
    (hentered : w.admitHead p a = .ok w') : PrefillBooks w' := by
  obtain ⟨hpeek, hresolved, -⟩ := gateHead_spec hgate
  have hwaiting := hlocated.at_waiting (mem_of_peek hpeek)
  have hfits : a.candidate.Fits (w.requests a.candidate.requestId) := hwaiting.progress
  obtain ⟨hphase, -⟩ := hlocated.admitted hpeek hentered
  obtain ⟨location, hat⟩ := (hlocated.admitHead hgate hentered).located a.candidate.requestId
  refine h.step a.candidate.requestId
    (fun t ht => entriesOf_admitted hlocated hpeek hentered ht) ?_
  obtain ⟨record, hrecord, rfl⟩ := admitHead_spec hentered
  have hshut : Shut (w.requests a.candidate.requestId) := by
    refine (h a.candidate.requestId).shut (.inr (.inl ⟨p, ?_⟩))
    exact List.ne_nil_of_mem (mem_ofRequest.mpr ⟨mem_of_peek hpeek, rfl⟩)
  have hresident : a.resolvedPrefill.residentPrefixTokens ≤
      (w.requests a.candidate.requestId).session.declaredPrefixTokens := by
    rw [hresolved, ← hfits.session]
    exact previewPrefillContext_resident ..
  have hnew : a.resolvedPrefill.processedPrefillTokens = 0 := by
    rw [hresolved]
    rfl
  obtain ⟨hbooked, hopened⟩ := (h a.candidate.requestId).booked.admitted hshut hfits hrecord
    hresident hnew
  have hself : (Function.update w.requests a.candidate.requestId
      (record.stampStage .prefill)) a.candidate.requestId = record.stampStage .prefill :=
    Function.update_self ..
  have hepisode : (w.prefillEpisodes.insert a.candidate.requestId
      a.candidate.retracted).lookup a.candidate.requestId = some a.candidate.retracted :=
    AList.lookup_insert _
  -- the context scheduled is the one previewed, with what its cache entry returns
  obtain ⟨metadata, hcontext⟩ := contextOf_firstChunk w.store a.candidate.requestId p
    a.resolvedPrefill a.footprint a.chunkTokens
  refine Filed.of_chunked hat hphase ?_ fun context reprocessed hcontext' hepisode' => ?_
  · exact (congrArg PrefillBooked hself).mpr (hbooked.stamped .prefill)
  · obtain rfl := Option.some.inj (hcontext.symm.trans hcontext')
    obtain rfl := Option.some.inj (hepisode.symm.trans hepisode')
    have hstamped : Opened a.candidate.retracted (record.stampStage .prefill)
        a.resolvedPrefill := ⟨hopened.first, hopened.again⟩
    rw [← hself] at hstamped
    exact ⟨hstamped.first, hstamped.again⟩

theorem books_forming {s s' : Forming P acc n} (hstep : FormStep cfg s s')
    (hlocated : Located cfg s.worker) (h : PrefillBooks s.worker) : PrefillBooks s'.worker := by
  have hlocated' := hstep.located hlocated
  cases hstep with
  | @chunk p before after c context budget tokens left available started fresh resolved size
      positive spent =>
    have hat := hlocated.at_started (p := p) (c := c) (by simp [started])
    have hphase : s.worker.store.phaseOf c.requestId = .chunked p := hat.phase
    have hop : StoreOp.Issuable s.worker.store (.schedulePrefillChunk c.requestId p tokens) :=
      hphase
    refine h.step c.requestId (fun t ht => entriesOf_scheduled hlocated.tracked hphase ht
      (ofRequest_rescheduled started (fun d hd => mem_kept hd) ht)) ?_
    have hafter : (StoreOp.apply s.worker.store
        (.schedulePrefillChunk c.requestId p tokens)).phaseOf c.requestId = .chunked p :=
      (phaseOf_apply hlocated.tracked hop).trans hphase
    obtain ⟨location, hat'⟩ := hlocated'.located c.requestId
    have hcontext := contextOf_schedulePrefillChunk s.worker.store c.requestId p tokens resolved
    refine Filed.of_chunked hat' hafter (h c.requestId).booked
      fun context' reprocessed hcontext' hepisode => ?_
    obtain rfl := Option.some.inj (hcontext.symm.trans hcontext')
    -- scheduling a chunk processes nothing yet
    have hold := (h c.requestId).opened p context reprocessed hphase resolved hepisode
    exact ⟨hold.first, hold.again⟩
  | refresh p =>
    intro t
    exact (entriesOf_refresh hlocated p t).symm ▸ h t
  | admitted _ _ _ gate _ entered => exact h.admitHead hlocated gate entered

theorem books_completing (hstep : Completing cfg p w w') (hlocated : Located cfg w)
    (haccounts : Accounted w) (h : PrefillBooks w) : PrefillBooks w' := by
  have hlocated' := hstep.located hlocated
  cases hstep with
  | decoded step =>
    have hdecode := hlocated.decodeStep step
    intro r
    have hphase : (w'.entriesOf r).phase = (w.entriesOf r).phase := hdecode.phase r
    -- a decode step touches the records of its members only
    rcases hdecode.credited r with hsame | ⟨hlive, tokens, -, hretired⟩
    · have hrecord : (w'.entriesOf r).record = (w.entriesOf r).record := hsame
      have hview : (w'.entriesOf r).view = (w.entriesOf r).view :=
        congrArg (fun ledger => RequestLedger.viewOf ledger r) hdecode.ledger
      have hepisode : (w'.entriesOf r).episode = (w.entriesOf r).episode := by
        have hepisodes : w'.prefillEpisodes = w.prefillEpisodes := by rw [hdecode.frame]
        exact congrArg (fun episodes => AList.lookup r episodes) hepisodes
      have hwaiting : (w'.entriesOf r).waiting = (w.entriesOf r).waiting := by
        rw [hdecode.frame]
        rfl
      have hold := h r
      refine ⟨?_, ?_, ?_, ?_⟩
      · rw [hrecord]
        exact hold.booked
      · rw [hphase, hview, hepisode, hrecord]
        exact hold.opened
      · rw [hphase, hwaiting, hrecord]
        exact hold.shut
      · rw [hphase, hrecord]
        exact hold.live
    · -- a member of the step is resident
      have hresident : (w.entriesOf r).phase = .resident p := hlocated.resident_of_live hlive
      have hlt := (h r).live p hresident
      obtain ⟨hbooked, hshut, hmore⟩ := (h r).booked.retired
        ((h r).shut (.inr (.inr ⟨p, hresident⟩))) (by omega) tokens
      have hcount : (DecodeCompletion.retired (w.requests r) tokens).retractionCount =
          (w.requests r).retractionCount := (retired_first (w.requests r) tokens).1.retractions
      have hrecord : (w'.entriesOf r).record = DecodeCompletion.retired (w.requests r) tokens :=
        hretired
      refine Filed.of_shut ?_ ?_ (fun q hchunked => ?_) fun q _ => ?_
      · rw [hrecord]
        exact hbooked
      · rw [hrecord]
        exact hshut
      · cases (hphase.trans hresident).symm.trans hchunked
      · rw [hrecord, hcount]
        exact hlt.trans_le hmore
  | @prefilled _ r completed completed' admitted step =>
    have hchunk := hlocated.completePrefill admitted step
    refine h.step r hchunk.entries ?_
    obtain ⟨reprocessed, context, after, record, hepisode, hcontext, hafter, hrecord, hfinal⟩ :=
      completePrefill_spec step
    have hcontext' := contextOf_completePrefillChunk hcontext
    obtain rfl := Option.some.inj (hafter.symm.trans hcontext')
    have howed := (haccounts r).computing p context hchunk.before hcontext
    rw [show (w.entriesOf r).episode = some reprocessed from hepisode] at howed
    have hopened := (h r).opened p context reprocessed hchunk.before hcontext hepisode
    obtain ⟨hbooked, hclosed, hopen⟩ := (h r).booked.recordChunk hopened howed rfl hrecord
    have hself : (Function.update w.requests r record) r = record := Function.update_self ..
    by_cases hdone : context.completeChunk.remainingPrefillTokens = 0
    · -- the last chunk: the request decodes
      rw [if_pos hdone] at hfinal
      obtain ⟨rfl, -⟩ := hfinal
      obtain ⟨hshut, hlt⟩ := hclosed (decide_eq_true hdone)
      refine Filed.of_shut ((congrArg PrefillBooked hself).mpr hbooked)
        ((congrArg Shut hself).mpr hshut) (fun q hchunked => ?_) fun q _ => ?_
      · have hnone := (hlocated'.at_chunked hchunked).choose_spec.episode
        have herased : (w.prefillEpisodes.erase r).lookup r = none := AList.lookup_erase _ _
        cases herased.symm.trans hnone
      · have hkept := hlt
        rw [← hself] at hkept
        exact hkept
    · rw [if_neg hdone] at hfinal
      obtain ⟨rfl, -⟩ := hfinal
      have hop := issuable_completePrefillChunk hchunk.before
      have hphase : (StoreOp.apply w.store (.completePrefillChunk r)).phaseOf r = .chunked p :=
        (phaseOf_apply hlocated.tracked hop).trans hchunk.before
      obtain ⟨location, hat⟩ := hlocated'.located r
      refine Filed.of_chunked hat hphase ((congrArg PrefillBooked hself).mpr hbooked)
        fun later reprocessed' hlater hepisode' => ?_
      obtain rfl := Option.some.inj (hcontext'.symm.trans hlater)
      obtain rfl := Option.some.inj (hepisode.symm.trans hepisode')
      have hnext := hopen (decide_eq_false hdone)
      rw [← hself] at hnext
      exact ⟨hnext.first, hnext.again⟩
  | cleared =>
    intro r
    exact (entriesOf_clear hlocated.tracked r).symm ▸ h r
  | @finished r resident complete free =>
    have habsent := phaseOf_releaseRetainingPrefix hlocated.tracked resident
    refine h.step r (fun s hs => entriesOf_releaseCompleted hlocated.tracked resident hs) ?_
    refine Filed.of_shut (h r).booked ((h r).shut (.inr (.inr ⟨p, resident⟩)))
      (fun q hchunked => ?_) fun q hplaced => ?_
    · cases habsent.symm.trans hchunked
    · cases habsent.symm.trans hplaced

theorem books_enqueued (hlocated : Located cfg w) (hnew : (w.requests r).stage = none)
    (hstep : w.acceptMessage cfg r = .ok w') (h : PrefillBooks w) : PrefillBooks w' := by
  have hlocated' := hlocated.accept hnew hstep
  obtain ⟨p, c, sequence, balance, hc, -, -, -, -, hw⟩ := acceptMessage_spec hstep
  have hperm : ∀ pending : P, (candidates (push pending c)).Perm (c :: candidates pending) :=
    fun pending => push_perm pending c
  have hphase : w.store.phaseOf r = .absent := by
    obtain ⟨location, hat⟩ := hlocated.located r
    obtain rfl : location = .unseen := hat.stage.mp hnew
    exact hat.phase
  refine h.step r (fun s hs => ?_) ?_
  · rw [hw]
    refine (entriesOf_entered (hc.trans_ne hs.symm) hperm ?_).trans (w.entriesOf_requests hs :)
    exact hlocated.length_waiting_le s p
  · have hself : (Function.update w.requests r ((w.requests r).stampStage .pending)) r =
        (w.requests r).stampStage .pending := Function.update_self ..
    rw [hw]
    refine Filed.of_shut ((congrArg PrefillBooked hself).mpr ((h r).booked.stamped .pending))
      ((congrArg Shut hself).mpr (((h r).shut (.inl hnew)).stamped .pending))
      (fun q hchunked => ?_) fun q hplaced => ?_
    · cases hphase.symm.trans hchunked
    · cases hphase.symm.trans hplaced

theorem books_released (hlocated : Located cfg w) (h : PrefillBooks w) (r : RequestId) :
    PrefillBooks (w.releaseRequest r) := by
  obtain ⟨hphase, hwaiting, -⟩ := releaseRequest_clear hlocated r
  refine h.step r (fun s hs => entriesOf_releaseRequest hlocated hs) ?_
  have hrecord : ((w.releaseRequest r).entriesOf r).record = (w.entriesOf r).record :=
    congrFun (requests_releaseRequest w r) r
  refine ⟨?_, fun p _ _ hchunked => ?_, fun hwhere => ?_, fun p hplaced => ?_⟩
  · rw [hrecord]
    exact (h r).booked
  · cases hphase.symm.trans hchunked
  · rw [hrecord] at hwhere ⊢
    rcases hwhere with hstage | ⟨p, hqueued⟩ | ⟨p, hplaced⟩
    · exact (h r).shut (.inl hstage)
    · exact absurd (hwaiting p) hqueued
    · cases hphase.symm.trans hplaced
  · cases hphase.symm.trans hplaced

theorem books_new (cfg : ChunkedPrefillConfig n) (budget : PrefixCacheBudget)
    {requests : Requests} (hrequests : ∀ r, (requests r).Fresh) (policies : Fin n → P)
    (balance : LoadBalance) :
    PrefillBooks (ChunkedPrefillWorker.new cfg budget requests policies balance :
      ChunkedPrefillWorker P acc n) := by
  intro r
  obtain ⟨hbooked, hshut⟩ := (hrequests r).booked
  refine Filed.of_shut hbooked hshut (fun p hchunked => ?_) fun p hplaced => ?_
  · have hphase : Phase.absent = Phase.chunked p := hchunked
    cases hphase
  · have hphase : Phase.absent = Phase.resident p := hplaced
    cases hphase

end ServingSim
