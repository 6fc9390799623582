import ServingSim.Admission.Location

/-
  The transitions of the chunked-prefill worker, one request at a time.

  The worker's code folds over partitions, queues and lists of completed
  requests. Each turn of these loops does one thing to one request: it arrives,
  is retracted, admitted, given a chunk, or cancelled. This module says what each
  does to the request's entries and that every other request stays where it is;
  it is where the code of a transition is unfolded.
-/

namespace ServingSim

open KeyedTotal PendingOrderPolicy KvCacheStore

variable {P : Type} [PendingOrderPolicy P] {acc : KvAccounting} {n : Nat}
  {cfg : ChunkedPrefillConfig n} {w w' : ChunkedPrefillWorker P acc n} {r : RequestId} {p : Fin n}

/-- Nothing is in the iteration's prefill. -/
def Idle (w : ChunkedPrefillWorker P acc n) : Prop :=
  ∀ p, (w.store.partitions p).prefillAdmits = []

/-! ## Transitions no location sees -/

theorem Located.of_eq (h : Located cfg w) (hkv : w'.kv = w.kv)
    (hrequests : w'.requests = w.requests)
    (hpolicies : w'.policies = w.policies) (hstarted : w'.startedPrefills = w.startedPrefills)
    (hepisodes : w'.prefillEpisodes = w.prefillEpisodes) : Located cfg w' := by
  have hstore : w'.store = w.store := congrArg IssuedStore.store hkv
  refine h.still (hstore ▸ h.tracked) (fun r => ?_) ?_
  · ext1 <;> simp only [ChunkedPrefillWorker.entriesOf, hstore, hrequests, hpolicies, hstarted,
      hepisodes]
  · refine h.scheduled.mono ?_ ?_ ?_ ?_ ?_
    · exact hstore ▸ h.scheduled.nodup
    · exact fun p r hr => hstore ▸ hr
    · exact fun p r _ => by rw [hstore]
    · exact fun p r _ => by rw [hstore]
    · exact fun p c hc => hstarted ▸ hc

theorem entriesOf_prepare (ht : w.store.Tracked) (p : Fin n) (pageSize stepTokens : Nat)
    (r : RequestId) :
    (w.issue (.prepareNextDecode p pageSize stepTokens)).entriesOf r = w.entriesOf r :=
  w.entriesOf_issue ht trivial (by simp [StoreOp.subject]) (by simp) (by simp)

theorem Located.prepare (h : Located cfg w) (p : Fin n) (pageSize stepTokens : Nat) :
    Located cfg (w.issue (.prepareNextDecode p pageSize stepTokens)) := by
  have hpartitions : (w.issue (.prepareNextDecode p pageSize stepTokens)).store.partitions =
      w.store.partitions := w.store.partitions_prepareNextDecode p pageSize stepTokens
  have hledger : (w.issue (.prepareNextDecode p pageSize stepTokens)).store.ledger =
      w.store.ledger := w.store.ledger_prepareNextDecode p pageSize stepTokens
  have hentries := entriesOf_prepare h.tracked p pageSize stepTokens
  have hop : StoreOp.Issuable w.store (.prepareNextDecode p pageSize stepTokens) := trivial
  refine h.still (tracked_apply h.tracked hop) hentries (h.scheduled.mono ?_ ?_ ?_ ?_ ?_)
  · exact hpartitions ▸ h.scheduled.nodup
  · exact fun q r hr => hpartitions ▸ hr
  · exact fun q r _ => congrArg Entries.phase (hentries r)
  · exact fun q r _ => by rw [hledger]
  · exact fun q c hc => hc

theorem entriesOf_refresh (h : Located cfg w) (p : Fin n) (r : RequestId) :
    (w.refreshPolicy p).entriesOf r = w.entriesOf r :=
  w.entriesOf_modifyPolicy (ofRequest_of_perm (refreshHead_perm _ _) (h.length_waiting_le r p))

theorem Located.refresh (h : Located cfg w) (p : Fin n) : Located cfg (w.refreshPolicy p) :=
  h.still h.tracked (entriesOf_refresh h p)
    ⟨h.scheduled.nodup, h.scheduled.placed, h.scheduled.unfinished⟩

/-! ## Retraction -/

omit [PendingOrderPolicy P] in
theorem mem_decodeStates : r ∈ w.decodeStates p ↔ ∃ state, w.store.decodeOf p r = some state ∧
        0 < state.remainingDecode := by
  simp only [ChunkedPrefillWorker.decodeStates, ResidentPartitionState.decodeStates,
    ResidentPartitionState.iterDecoding, List.map_map, List.mem_map, List.mem_filter,
    Function.comp_apply, decide_eq_true_eq, decodeOf, SlotList.get?_eq_some_iff]
  constructor
  · rintro ⟨e, ⟨he, hlive⟩, rfl⟩
    exact ⟨e.2, he, hlive⟩
  · rintro ⟨state, hs, hlive⟩
    exact ⟨(r, state), ⟨hs, hlive⟩, rfl⟩

theorem Located.resident_of_live (h : Located cfg w) (hr : r ∈ w.decodeStates p) :
    w.store.phaseOf r = .resident p := by
  obtain ⟨state, hs, -⟩ := mem_decodeStates.mp hr
  exact ((h.tracked r).resident p).mp ((w.store.resident_iff_decodeOf p r).mpr (by simp [hs]))

theorem requeueRetracted_spec (w : ChunkedPrefillWorker P acc n) (p : Fin n) (r : RequestId)
    (policy : DecodeRetractionPolicy) :
    ∃ (c : AdmissionCandidate) (f : P → P) (record : RequestRecord),
      (∀ pending, (candidates (f pending)).Perm (c :: candidates pending)) ∧
      c.requestId = r ∧ c.retracted = true ∧
      c.freshPromptTokens = record.promptTokens + record.outputTokensEmitted ∧
      c.remainingOutputTokens = record.remainingOutputTokens ∧ c.sessionInput = record.session ∧
      record = ((w.requests r).recordRetraction).stampStage .pending ∧
      w.requeueRetracted p r policy = ({ w with
            requests := Function.update w.requests r record
            enqueueSequence := ⟨w.enqueueSequence.next + 1⟩
            admissionOrder := w.admissionOrder.erase r } :
          ChunkedPrefillWorker P acc n).modifyPolicy p f := by
  cases policy with
  | length =>
    exact ⟨_, fun pending => push pending _, _, fun pending => push_perm pending _, rfl, rfl, rfl,
      rfl, rfl, rfl, rfl⟩
  | fcfs =>
    exact ⟨_, fun pending => pushFront pending _, _, fun pending => pushFront_perm pending _, rfl,
      rfl, rfl, rfl, rfl, rfl, rfl⟩

variable {c : AdmissionCandidate}

theorem waiting_entered {f : P → P} (hc : c.requestId = r)
    (hperm : ∀ pending, (candidates (f pending)).Perm (c :: candidates pending))
    (hnone : ∀ q, ofRequest r (candidates (w.policies q)) = []) (q : Fin n) :
    ofRequest r (candidates ((w.modifyPolicy p f).policies q)) =
      (Location.queued p c).waitingOn q := by
  by_cases hq : q = p
  · subst hq
    have hpushed : ofRequest r (c :: candidates (w.policies q)) = [c] := by
      rw [ofRequest_cons_self hc, hnone q]
    have hlist := ofRequest_of_perm (r := r) (hperm (w.policies q)) (by rw [hpushed]; simp)
    rw [hpushed] at hlist
    simpa [ChunkedPrefillWorker.modifyPolicy, Location.waitingOn] using hlist
  · simpa [ChunkedPrefillWorker.modifyPolicy, hq, Location.waitingOn, Ne.symm hq] using hnone q

theorem entriesOf_entered {f : P → P} (hc : c.requestId ≠ r)
    (hperm : ∀ pending, (candidates (f pending)).Perm (c :: candidates pending))
    (hle : (ofRequest r (candidates (w.policies p))).length ≤ 1) :
    (w.modifyPolicy p f).entriesOf r = w.entriesOf r := by
  have hcons := ofRequest_cons_of_ne hc (candidates (w.policies p))
  have hpolicy := ofRequest_of_perm (r := r) (hperm (w.policies p)) (by rw [hcons]; exact hle)
  rw [hcons] at hpolicy
  exact w.entriesOf_modifyPolicy hpolicy

theorem issuable_release (h : Located cfg w) (hr : r ∈ w.decodeStates p) :
    StoreOp.Issuable w.store (.release r p) := by
  rw [StoreOp.Issuable, h.resident_of_live hr]
  rfl

variable {s : RequestId}

theorem entriesOf_retracted (h : Located cfg w) (hr : r ∈ w.decodeStates p)
    (policy : DecodeRetractionPolicy) (hs : s ≠ r) :
    ((w.issue (.release r p)).requeueRetracted p r policy).entriesOf s = w.entriesOf s := by
  obtain ⟨c, f, record, hperm, hc, -, -, -, -, -, hw⟩ :=
    requeueRetracted_spec (w.issue (.release r p)) p r policy
  rw [hw, entriesOf_entered (hc.trans_ne hs.symm) hperm]
  · refine Eq.trans ?_ (w.entriesOf_issue h.tracked (issuable_release h hr) (r := s)
      (by simpa [StoreOp.subject] using hs.symm) (by simp) (by simp))
    exact (w.issue (.release r p)).entriesOf_requests (q := r) hs
  · exact h.length_waiting_le s p

theorem Located.retract (h : Located cfg w) (hr : r ∈ w.decodeStates p) (hidle : Idle w)
    (policy : DecodeRetractionPolicy) :
    Located cfg ((w.issue (.release r p)).requeueRetracted p r policy) := by
  have hop := issuable_release h hr
  have hat := h.at_resident (h.resident_of_live hr)
  have hothers := fun s hs => entriesOf_retracted h hr policy (s := s) hs
  obtain ⟨state', hstate', hlive⟩ := mem_decodeStates.mp hr
  obtain ⟨state, hstate, hstep⟩ := hat.progress
  obtain rfl : state = state' := Option.some.inj (hstate.symm.trans hstate')
  obtain ⟨c, f, record, hperm, hc, hretracted, hfresh, hremaining, hsession, hrecord, hw⟩ :=
    requeueRetracted_spec (w.issue (.release r p)) p r policy
  have hfits : c.Fits record :=
    { fresh := hfresh
      remaining := hremaining
      session := hsession
      first := fun hf => by rw [hretracted] at hf; cases hf
      again := fun _ => by
        have hemitted : 0 < (w.requests r).outputTokensEmitted := hstep.emitted
        have hleft : state.remainingDecode =
          (w.requests r).targetOutputTokens - (w.requests r).outputTokensEmitted := hstep.remaining
        have hsame : record.outputTokensEmitted = (w.requests r).outputTokensEmitted ∧
            record.targetOutputTokens = (w.requests r).targetOutputTokens := by
          rw [hrecord]
          exact ⟨rfl, rfl⟩
        omega }
  rw [hw] at hothers ⊢
  refine h.step r (tracked_apply h.tracked hop)
    ⟨.queued p c, waiting_entered hc hperm hat.waiting, hat.started,
      (phaseOf_apply h.tracked hop).trans (if_pos rfl), hat.episode, ?_, ?_⟩
    hothers (scheduled_of_idle fun q => admits_release (hidle q) r p)
  · have hstage : record.stage ≠ none := by
      rw [hrecord]
      exact Option.some_ne_none _
    simpa [ChunkedPrefillWorker.entriesOf, ChunkedPrefillWorker.modifyPolicy] using hstage
  · simpa [ChunkedPrefillWorker.entriesOf, ChunkedPrefillWorker.modifyPolicy, Progress] using hfits

/-! ## Scheduling chunks -/

theorem checkpointAlignedChunkTokens_le (start prefillEnd chunkTokens : Nat)
    (alignment : ChunkEndAlignment) (maxChunkTokens : Nat) :
    checkpointAlignedChunkTokens start prefillEnd chunkTokens alignment maxChunkTokens ≤
      chunkTokens := by
  simp only [checkpointAlignedChunkTokens]
  split
  · exact Nat.le_refl _
  · have haligned : (start + chunkTokens) / alignment.quantum * alignment.quantum ≤
        start + chunkTokens := Nat.div_mul_le_self _ _
    generalize hend : (if start + chunkTokens < prefillEnd ∧
        ((start + chunkTokens) / alignment.quantum * alignment.quantum > start ∨
          alignment.quantum ≤ maxChunkTokens) then
        (start + chunkTokens) / alignment.quantum * alignment.quantum else start + chunkTokens) =
      chunkEnd
    have hchunk : chunkEnd ≤ start + chunkTokens := by
      rw [← hend]
      split
      · exact haligned
      · exact Nat.le_refl _
    -- a stop clips the end further
    generalize ((if start % alignment.quantum ≠ 0 then
        [(start / alignment.quantum + 1) * alignment.quantum] else []) ++
      [prefillEnd / alignment.quantum * alignment.quantum -
        if alignment.lastCheckpointOneBlockEarly = true then alignment.quantum else 0]) = stops
    cases hstop : (stops.filter fun stop => start < stop ∧ stop < chunkEnd).min? with
    | none =>
      show chunkEnd - start ≤ chunkTokens
      omega
    | some stop =>
      have hmem := List.min?_mem hstop
      simp only [List.mem_filter, decide_eq_true_eq] at hmem
      show stop - start ≤ chunkTokens
      omega

theorem nextChunkTokens_le (resolved : ResolvedPrefillContext) (budget : Nat)
    (alignment : Option ChunkEndAlignment) (maxChunkTokens : Nat) :
    nextChunkTokens resolved budget alignment maxChunkTokens ≤
      min resolved.remainingPrefillTokens budget := by
  simp only [nextChunkTokens]
  split
  · exact Nat.le_refl _
  · exact checkpointAlignedChunkTokens_le ..

theorem admissionFootprint_congr {context context' : ResolvedPrefillContext}
    (c : AdmissionCandidate)
    (h : context.postPrefillContextTokens = context'.postPrefillContextTokens) :
    ChunkedPrefillWorker.admissionFootprint cfg acc context c =
      ChunkedPrefillWorker.admissionFootprint cfg acc context' c := by
  unfold ChunkedPrefillWorker.admissionFootprint
  rw [h]

theorem view_schedulePrefillChunk (store : KvCacheStore acc n) (r s : RequestId) (p : Fin n)
    (tokens : Nat) :
    (store.schedulePrefillChunk r p tokens).ledger.viewOf s =
      if s = r then
        { store.ledger.viewOf s with
          context := (store.ledger.viewOf s).context.map fun context =>
            context.scheduleChunk tokens }
      else store.ledger.viewOf s :=
  store.ledger.view_updatePrefillContext r s _

theorem admits_schedulePrefillChunk (store : KvCacheStore acc n) (r : RequestId) (p q : Fin n)
    (tokens : Nat) :
    ((store.schedulePrefillChunk r p tokens).partitions q).prefillAdmits =
      (store.partitions q).prefillAdmits ++ if q = p then [r] else [] := by
  by_cases hq : q = p
  · subst hq
    simp [schedulePrefillChunk, ResidentPartitionState.addPrefillAdmit]
  · simp [schedulePrefillChunk, modifyPartition_of_ne _ _ hq, hq]

omit [PendingOrderPolicy P] in
/-- The iteration's prefills with one more that was reserved and not listed. -/
theorem Scheduled.schedule (h : Scheduled w) (hphase : w.store.phaseOf r = .chunked p)
    (ht : w.store.Tracked) (hnew : r ∉ (w.store.partitions p).prefillAdmits)
    {context : ResolvedPrefillContext}
    (hcontext : (w.store.ledger.viewOf r).context = some context) {tokens : Nat}
    {started : Fin n → List AdmissionCandidate}
    (hother : ∀ s, s ≠ r → ∀ q, ofRequest s (started q) = ofRequest s (w.startedPrefills q))
    (hleft : ∀ q, ofRequest r (started q) ≠ [] → tokens < context.remainingPrefillTokens) :
    Scheduled { w.issue (.schedulePrefillChunk r p tokens) with startedPrefills := started } := by
  have hop : StoreOp.Issuable w.store (.schedulePrefillChunk r p tokens) := hphase
  have hphases : ∀ s, (StoreOp.apply w.store (.schedulePrefillChunk r p tokens)).phaseOf s =
      w.store.phaseOf s := fun s => phaseOf_apply ht hop
  have hadmits := fun q => admits_schedulePrefillChunk w.store r p q tokens
  refine ⟨fun q => ?_, fun q s hs => ?_, fun q d hd context' hds hd' => ?_⟩
  · refine (hadmits q).symm ▸ ?_
    split
    · rename_i hq
      subst hq
      exact List.Nodup.append (h.nodup q) (List.nodup_singleton r) (by simpa using hnew)
    · rw [List.append_nil]
      exact h.nodup q
  · refine (hphases s).symm ▸ ?_
    rcases List.mem_append.mp ((hadmits q) ▸ hs) with hold | hadded
    · exact h.placed q s hold
    · split at hadded
      · rename_i hq
        rw [List.mem_singleton.mp hadded, hq]
        exact .inl hphase
      · cases hadded
  · have hview := view_schedulePrefillChunk w.store r d.requestId p tokens
    replace hd' : ((w.store.schedulePrefillChunk r p tokens).ledger.viewOf d.requestId).context =
        some context' := hd'
    rw [hview] at hd'
    by_cases hr : d.requestId = r
    · have hlt := hleft q (List.ne_nil_of_mem (mem_ofRequest.mpr ⟨hd, hr⟩))
      rw [if_pos hr, hr, hcontext] at hd'
      cases hd'
      simp only [ResolvedPrefillContext.remainingPrefillTokens] at hlt
      simp only [ResolvedPrefillContext.scheduleChunk]
      omega
    · rw [if_neg hr] at hd'
      have hd'' : d ∈ w.startedPrefills q := by
        have hmem := mem_ofRequest.mpr ⟨hd, rfl⟩
        rw [hother _ hr q] at hmem
        exact (mem_ofRequest.mp hmem).1
      refine h.unfinished q d hd'' context' ?_ hd'
      rcases List.mem_append.mp ((hadmits q) ▸ hds) with hold | hadded
      · exact hold
      · split at hadded
        · exact absurd (List.mem_singleton.mp hadded) hr
        · cases hadded

theorem entriesOf_scheduled (ht : w.store.Tracked) (hr : w.store.phaseOf r = .chunked p)
    {tokens : Nat} {started : Fin n → List AdmissionCandidate} (hs : s ≠ r)
    (hother : ∀ q, ofRequest s (started q) = ofRequest s (w.startedPrefills q)) :
    ({ w.issue (.schedulePrefillChunk r p tokens) with startedPrefills := started } :
      ChunkedPrefillWorker P acc n).entriesOf s = w.entriesOf s := by
  have hissue : (w.issue (.schedulePrefillChunk r p tokens)).entriesOf s = w.entriesOf s :=
    w.entriesOf_issue ht hr (by simpa [StoreOp.subject] using hs.symm) (by simp) (by simp)
  refine Eq.trans ?_ hissue
  ext1
  case started => exact funext fun q => hother q
  all_goals rfl

theorem Located.schedule (h : Located cfg w)
    (hat : At cfg (w.entriesOf r) (.prefilling p c))
    (hnew : r ∉ (w.store.partitions p).prefillAdmits) {context : ResolvedPrefillContext}
    (hcontext : (w.store.ledger.viewOf r).context = some context) {tokens : Nat}
    {started : Fin n → List AdmissionCandidate}
    (hother : ∀ s, s ≠ r → ∀ q, ofRequest s (started q) = ofRequest s (w.startedPrefills q))
    (hself : ∀ q, (ofRequest r (started q)).Sublist ((Location.prefilling p c).startedOn q))
    (hleft : ∀ q, ofRequest r (started q) ≠ [] → tokens < context.remainingPrefillTokens) :
    Located cfg { w.issue (.schedulePrefillChunk r p tokens) with startedPrefills := started } := by
  have hop : StoreOp.Issuable w.store (.schedulePrefillChunk r p tokens) := hat.phase
  have hphase : ∀ s, (w.issue (.schedulePrefillChunk r p tokens)).store.phaseOf s =
      w.store.phaseOf s := fun s => phaseOf_apply h.tracked hop
  have hview : ∀ s, (w.issue (.schedulePrefillChunk r p tokens)).store.ledger.viewOf s = _ :=
    fun s => view_schedulePrefillChunk w.store r s p tokens
  obtain ⟨hfits, old, hold, hpost, hcharge⟩ := hat.progress
  refine h.step r (tracked_apply h.tracked hop)
    ⟨.prefilling p c, hat.waiting, hself, (hphase r).trans hat.phase, hat.episode, hat.stage,
      hfits, old.scheduleChunk tokens, ?_, hpost, ?_⟩
    (fun s hs => entriesOf_scheduled h.tracked hat.phase hs (hother s hs))
    (h.scheduled.schedule hat.phase h.tracked hnew hcontext hother hleft)
  · refine (congrArg RequestView.context (hview r)).trans ?_
    rw [if_pos rfl]
    exact congrArg (Option.map fun context => context.scheduleChunk tokens) hold
  · refine (congrArg RequestView.chunked (hview r)).trans ?_
    rw [if_pos rfl]
    refine hcharge.trans ?_
    rw [admissionFootprint_congr c (old.postPrefillContextTokens_scheduleChunk tokens)]

omit [PendingOrderPolicy P] in
/-- The other requests' prompts stay started when one leaves or stays. -/
theorem ofRequest_rescheduled {before after kept : List AdmissionCandidate}
    (hstarted : w.startedPrefills p = before ++ c :: after)
    (hkept : ∀ d ∈ kept, d = c) (hs : s ≠ c.requestId) (q : Fin n) :
    ofRequest s (Function.update w.startedPrefills p (before ++ kept ++ after) q) =
      ofRequest s (w.startedPrefills q) := by
  by_cases hq : q = p
  · subst hq
    have hnone : ofRequest s kept = [] := ofRequest_eq_nil_iff.mpr fun d hd => hkept d hd ▸ hs.symm
    rw [Function.update_self, hstarted, ofRequest_append, ofRequest_append, ofRequest_append,
      ofRequest_cons_of_ne hs.symm, hnone, List.append_nil]
  · rw [Function.update_of_ne hq]

theorem mem_kept {c d : AdmissionCandidate} {keep : Prop} [Decidable keep]
    (h : d ∈ if keep then [c] else []) : d = c := by
  split at h
  · exact List.mem_singleton.mp h
  · cases h

theorem Located.scheduleStarted (h : Located cfg w)
    {before after : List AdmissionCandidate} (hstarted : w.startedPrefills p = before ++ c :: after)
    (hnew : c.requestId ∉ (w.store.partitions p).prefillAdmits) {context : ResolvedPrefillContext}
    (hcontext : (w.store.ledger.viewOf c.requestId).context = some context) (tokens : Nat) :
    Located cfg { w.issue (.schedulePrefillChunk c.requestId p tokens) with
      startedPrefills := Function.update w.startedPrefills p
        (before ++ (if tokens < context.remainingPrefillTokens then [c] else []) ++ after) } := by
  have hat := h.at_started (p := p) (c := c) (by simp [hstarted])
  have hlist : ofRequest c.requestId before ++ c :: ofRequest c.requestId after =
      ofRequest c.requestId (w.startedPrefills p) := by
    rw [hstarted, ofRequest_append, ofRequest_cons_self rfl]
  have hsub := hat.started p
  simp only [ChunkedPrefillWorker.entriesOf, ← hlist, Location.startedOn, if_true] at hsub
  -- the prompt is started once
  have honce : ofRequest c.requestId before = [] ∧ ofRequest c.requestId after = [] := by
    have hlen := hsub.length_le
    simp only [List.length_append, List.length_cons, List.length_nil] at hlen
    exact ⟨List.length_eq_zero_iff.mp (by omega), List.length_eq_zero_iff.mp (by omega)⟩
  have hkept : ofRequest c.requestId
      (before ++ (if tokens < context.remainingPrefillTokens then [c] else []) ++ after) =
      if tokens < context.remainingPrefillTokens then [c] else [] := by
    rw [ofRequest_append, ofRequest_append, honce.1, honce.2]
    split
    · simp [ofRequest]
    · rfl
  have hself : ∀ q, q ≠ p → ofRequest c.requestId (w.startedPrefills q) = [] := fun q hq => by
    have hsub := hat.started q
    simpa [ChunkedPrefillWorker.entriesOf, Location.startedOn, Ne.symm hq] using hsub
  refine h.schedule hat hnew hcontext
    (fun s hs q => ofRequest_rescheduled hstarted (fun d hd => mem_kept hd) hs q) (fun q => ?_)
    (fun q hne => ?_)
  · by_cases hq : q = p
    · subst hq
      rw [Function.update_self, hkept]
      split <;> simp [Location.startedOn]
    · rw [Function.update_of_ne hq, hself q hq]
      exact List.nil_sublist _
  · by_cases hq : q = p
    · subst hq
      rw [Function.update_self, hkept] at hne
      by_contra hlt
      exact hne (if_neg hlt)
    · rw [Function.update_of_ne hq] at hne
      exact absurd (hself q hq) hne

/-! ## Admission -/

variable {a : ChunkedPrefillWorker.Admission}

theorem gateHead_spec {budget : Nat} {slots : Option Nat}
    (h : ChunkedPrefillWorker.gateHead cfg w p budget slots = some a) :
    peek (w.policies p) = some a.candidate ∧
      a.resolvedPrefill = w.store.previewPrefillContext p a.candidate.freshPromptTokens
        a.candidate.sessionInput ∧
      a.chunkTokens ≠ 0 ∧
      a.footprint = ChunkedPrefillWorker.admissionFootprint cfg acc a.resolvedPrefill a.candidate ∧
      ChunkedPrefillWorker.admissionFits cfg w p a.footprint = true ∧
      a.chunkTokens ≤ min a.resolvedPrefill.remainingPrefillTokens budget ∧
      ¬ (a.candidate.remainingOutputTokens > 1 ∧ slots = some 0) := by
  simp only [ChunkedPrefillWorker.gateHead, Option.bind_eq_bind, Option.bind_eq_some_iff,
    Option.guard_eq_some', exists_const] at h
  obtain ⟨c, hpeek, hslots, hchunk, hfits, h⟩ := h
  cases h
  exact ⟨hpeek, rfl, hchunk, rfl, hfits, nextChunkTokens_le .., hslots⟩

/-- The worker with a head's reservation made and its episode open. -/
def reservedWorker (w : ChunkedPrefillWorker P acc n) (p : Fin n)
    (a : ChunkedPrefillWorker.Admission) (record : RequestRecord) : ChunkedPrefillWorker P acc n :=
  { (w.modifyPolicy p pop).issue
      (.reserveChunkedPrefillContext a.candidate.requestId p a.resolvedPrefill a.footprint) with
    requests := Function.update w.requests a.candidate.requestId record
    prefillEpisodes := w.prefillEpisodes.insert a.candidate.requestId a.candidate.retracted
    admissionOrder := w.admissionOrder.insert a.candidate.requestId w.nextAdmission
    nextAdmission := w.nextAdmission + 1 }

/-- The prompts started once a head's first chunk is scheduled. -/
def startedAfter (w : ChunkedPrefillWorker P acc n) (p : Fin n)
    (a : ChunkedPrefillWorker.Admission) : Fin n → List AdmissionCandidate :=
  if a.chunkTokens < a.resolvedPrefill.remainingPrefillTokens then
    Function.update w.startedPrefills p (w.startedPrefills p ++ [a.candidate])
  else w.startedPrefills

/-- The record of an admitted head: a fresh prompt reports its prefix hit, a retracted one
opens an episode. -/
def admittedRecord (a : ChunkedPrefillWorker.Admission) (record : RequestRecord) :
    Except String RequestRecord :=
  if a.candidate.retracted then
    record.markAdmitted.beginReprocessedPrefill a.resolvedPrefill.residentPrefixTokens
  else record.markAdmitted.recordPrefixCacheHitTokens a.resolvedPrefill.residentPrefixTokens

theorem admittedRecord_spec {record record' : RequestRecord}
    (h : admittedRecord a record = .ok record') :
    record'.definition = record.definition ∧
      record'.outputTokensEmitted = record.outputTokensEmitted ∧
      record'.outputTimes = record.outputTimes ∧
      record'.reprocessedPrefills = record.reprocessedPrefills ++
        if a.candidate.retracted then
          [⟨record.outputTokensEmitted, a.resolvedPrefill.residentPrefixTokens, 0, false⟩]
        else [] := by
  unfold admittedRecord at h
  split at h
  · next hretracted =>
    rw [RequestRecord.beginReprocessedPrefill_spec h, if_pos hretracted]
    exact ⟨rfl, rfl, rfl, rfl⟩
  · next hfresh =>
    rw [RequestRecord.recordPrefixCacheHitTokens_spec h, if_neg hfresh]
    exact ⟨rfl, rfl, rfl, (List.append_nil _).symm⟩

theorem admitHead_spec (h : w.admitHead p a = .ok w') :
    ∃ record : RequestRecord, admittedRecord a (w.requests a.candidate.requestId) = .ok record ∧
      w' = { (reservedWorker w p a (record.stampStage .prefill)).issue
          (.schedulePrefillChunk a.candidate.requestId p a.chunkTokens) with
        startedPrefills := startedAfter w p a } := by
  simp only [ChunkedPrefillWorker.admitHead, ChunkedPrefillWorker.tryModifyRequest,
    bind_eq_ok_iff] at h
  obtain ⟨recorded, ⟨record, hrecord, hrecorded⟩, -, -, hw⟩ := h
  cases hrecorded
  refine ⟨record, ?_, ?_⟩
  · simpa [admittedRecord, ChunkedPrefillWorker.modifyRequest, ChunkedPrefillWorker.issue,
      ChunkedPrefillWorker.modifyPolicy] using hrecord
  have hw := (Except.ok.inj hw).symm
  rw [hw]
  simp only [startedAfter]
  split
  all_goals
    simp [reservedWorker, ChunkedPrefillWorker.modifyRequest, ChunkedPrefillWorker.issue,
      ChunkedPrefillWorker.modifyPolicy]

theorem AdmissionCandidate.Fits.congr {record record' : RequestRecord}
    (h : c.Fits record) (hdefinition : record'.definition = record.definition)
    (hemitted : record'.outputTokensEmitted = record.outputTokensEmitted) : c.Fits record' := by
  simp only [RequestRecord.definition, RequestRecord.Definition.mk.injEq] at hdefinition
  obtain ⟨-, -, hprompt, htarget, hsession⟩ := hdefinition
  exact
    { fresh := by rw [hprompt, hemitted]; exact h.fresh
      remaining := by rw [htarget, hemitted]; exact h.remaining
      session := by rw [hsession]; exact h.session
      first := by rw [hemitted]; exact h.first
      again := by rw [htarget, hemitted]; exact h.again }

theorem ofRequest_pop {policy : P} (hpeek : peek policy = some c)
    (hle : (ofRequest s (candidates policy)).length ≤ 1) :
    ofRequest s (candidates (pop policy)) =
      if c.requestId = s then [] else ofRequest s (candidates policy) := by
  have hperm := pop_perm policy c hpeek
  by_cases hs : c.requestId = s
  · rw [if_pos hs]
    have hlen : (ofRequest s (candidates policy)).length =
        (ofRequest s (c :: candidates (pop policy))).length := (hperm.filter _).length_eq
    rw [ofRequest_cons_self hs, List.length_cons] at hlen
    exact List.length_eq_zero_iff.mp (by omega)
  · rw [if_neg hs, ← ofRequest_cons_of_ne hs]
    exact ofRequest_of_perm hperm.symm hle

omit [PendingOrderPolicy P] in
/-- A request the store does not know is not in the iteration. -/
theorem Scheduled.not_absent (h : Scheduled w) (hr : w.store.phaseOf r = .absent) :
    ∀ q, ∀ s ∈ (w.store.partitions q).prefillAdmits, s ≠ r := by
  rintro q s hs rfl
  rcases h.placed q s hs with hp | hp <;> rw [hr] at hp <;> cases hp

theorem takePrefix_progress (store : KvCacheStore acc n) (p : Fin n)
    (resolved : ResolvedPrefillContext) :
    (store.takePrefix p resolved).2.remainingPrefillTokens = resolved.remainingPrefillTokens := by
  unfold takePrefix
  split <;> rfl

theorem entriesOf_reserved (h : Located cfg w)
    (hpeek : peek (w.policies p) = some a.candidate) (record : RequestRecord)
    (hs : s ≠ a.candidate.requestId) :
    (reservedWorker w p a record).entriesOf s = w.entriesOf s := by
  have hop : StoreOp.Issuable w.store (.reserveChunkedPrefillContext a.candidate.requestId p
    a.resolvedPrefill a.footprint) := (h.at_waiting (mem_of_peek hpeek)).phase
  have hissue := w.entriesOf_issue h.tracked hop (r := s)
    (by simpa [StoreOp.subject] using hs.symm) (by simp) (by simp)
  ext1
  · funext q
    by_cases hq : q = p
    · subst hq
      have hpop := ofRequest_pop hpeek (h.length_waiting_le s q)
      rw [if_neg hs.symm] at hpop
      simpa [reservedWorker, ChunkedPrefillWorker.entriesOf, ChunkedPrefillWorker.issue,
        ChunkedPrefillWorker.modifyPolicy] using hpop
    · simp [reservedWorker, ChunkedPrefillWorker.entriesOf, ChunkedPrefillWorker.issue,
        ChunkedPrefillWorker.modifyPolicy, hq]
  · rfl
  · simp [reservedWorker, ChunkedPrefillWorker.entriesOf, AList.lookup_insert_ne hs]
  · simp [reservedWorker, ChunkedPrefillWorker.entriesOf, Function.update_of_ne hs]
  · exact (congrArg Entries.phase hissue :)
  · exact (congrArg Entries.view hissue :)
  · exact (congrArg Entries.decode hissue :)

theorem Located.reserve (h : Located cfg w)
    (hpeek : peek (w.policies p) = some a.candidate)
    (hresolved : a.resolvedPrefill = w.store.previewPrefillContext p a.candidate.freshPromptTokens
      a.candidate.sessionInput)
    (hfootprint : a.footprint =
      ChunkedPrefillWorker.admissionFootprint cfg acc a.resolvedPrefill a.candidate)
    {record : RequestRecord}
    (hdefinition : record.definition = (w.requests a.candidate.requestId).definition)
    (hemitted : record.outputTokensEmitted = (w.requests a.candidate.requestId).outputTokensEmitted)
    (hstage : record.stage = some .prefill) :
    Located cfg (reservedWorker w p a record) ∧
      At cfg ((reservedWorker w p a record).entriesOf a.candidate.requestId)
        (.prefilling p a.candidate) := by
  have hat := h.at_waiting (mem_of_peek hpeek)
  have hop : StoreOp.Issuable w.store (.reserveChunkedPrefillContext a.candidate.requestId p
    a.resolvedPrefill a.footprint) := hat.phase
  have hpops := fun s => ofRequest_pop hpeek (h.length_waiting_le s p)
  have hview := view_reserveChunkedPrefillContext w.store a.candidate.requestId
    a.candidate.requestId p a.resolvedPrefill a.footprint
  rw [if_pos rfl] at hview
  have hpost : (w.store.takePrefix p a.resolvedPrefill).2.postPrefillContextTokens =
      a.resolvedPrefill.postPrefillContextTokens :=
    w.store.postPrefillContextTokens_takePrefix p a.resolvedPrefill
  have hself : At cfg ((reservedWorker w p a record).entriesOf a.candidate.requestId)
      (.prefilling p a.candidate) := by
    refine ⟨fun q => ?_, fun q => ?_, ?_, ?_, ?_, ?_, _, congrArg RequestView.context hview, ?_, ?_⟩
    · by_cases hq : q = p
      · subst hq
        have hpop := hpops a.candidate.requestId
        rw [if_pos rfl] at hpop
        simpa [reservedWorker, ChunkedPrefillWorker.entriesOf, ChunkedPrefillWorker.issue,
          ChunkedPrefillWorker.modifyPolicy, Location.waitingOn] using hpop
      · have hwait := hat.waiting q
        simpa [reservedWorker, ChunkedPrefillWorker.entriesOf, ChunkedPrefillWorker.issue,
          ChunkedPrefillWorker.modifyPolicy, Location.waitingOn, hq, Ne.symm hq] using hwait
    · exact (hat.started q).trans (List.nil_sublist _)
    · exact (phaseOf_apply h.tracked hop).trans (if_pos rfl)
    · simp [reservedWorker, ChunkedPrefillWorker.entriesOf, Location.HasEpisode]
    · simp [reservedWorker, ChunkedPrefillWorker.entriesOf, hstage]
    · have hfits : a.candidate.Fits (w.requests a.candidate.requestId) := hat.progress
      have hrecord := hfits.congr hdefinition hemitted
      simpa [reservedWorker, ChunkedPrefillWorker.entriesOf] using hrecord
    · rw [hpost, hresolved]
      exact ResolvedPrefillContext.postPrefillContextTokens_new _ _ _
    · refine (congrArg RequestView.chunked hview).trans ?_
      rw [hfootprint, admissionFootprint_congr a.candidate hpost]
  have hother := fun s hs => entriesOf_reserved h hpeek record (s := s) hs
  have hpartitions : (reservedWorker w p a record).store.partitions = w.store.partitions :=
    w.store.partitions_reserveChunkedPrefillContext _ p a.resolvedPrefill a.footprint
  -- a request that waits is not among the admitted, so their entries are untouched
  have hadmits := h.scheduled.not_absent hat.phase
  have hscheduled : Scheduled (reservedWorker w p a record) := by
    refine h.scheduled.mono ?_ ?_ ?_ ?_ ?_
    · exact hpartitions ▸ h.scheduled.nodup
    · exact fun q s hs => hpartitions ▸ hs
    · exact fun q s hs => congrArg Entries.phase (hother s (hadmits q s (hpartitions ▸ hs)))
    · exact fun q s hs => congrArg (fun e => (Entries.view e).context)
        (hother s (hadmits q s (hpartitions ▸ hs)))
    · exact fun q c hc => hc
  exact ⟨h.step _ (tracked_apply h.tracked hop) ⟨_, hself⟩ hother hscheduled, hself⟩

omit [PendingOrderPolicy P] in
theorem ofRequest_startedAfter
    (hs : s ≠ a.candidate.requestId) (q : Fin n) :
    ofRequest s (startedAfter w p a q) = ofRequest s (w.startedPrefills q) := by
  unfold startedAfter
  split
  · by_cases hq : q = p
    · subst hq
      rw [Function.update_self, ofRequest_append, ofRequest_cons_of_ne hs.symm]
      exact List.append_nil _
    · rw [Function.update_of_ne hq]
  · rfl

theorem entriesOf_admitted (h : Located cfg w)
    (hpeek : peek (w.policies p) = some a.candidate) (hadmission : w.admitHead p a = .ok w')
    (hs : s ≠ a.candidate.requestId) : w'.entriesOf s = w.entriesOf s := by
  have hop : StoreOp.Issuable w.store (.reserveChunkedPrefillContext a.candidate.requestId p
    a.resolvedPrefill a.footprint) := (h.at_waiting (mem_of_peek hpeek)).phase
  obtain ⟨record, -, rfl⟩ := admitHead_spec hadmission
  refine Eq.trans ?_ (entriesOf_reserved h hpeek (record.stampStage .prefill) hs)
  exact entriesOf_scheduled (w := reservedWorker w p a (record.stampStage .prefill))
    (tracked_apply h.tracked hop) ((phaseOf_apply h.tracked hop).trans (if_pos rfl)) hs
    fun q => ofRequest_startedAfter hs q

theorem Located.admitted (h : Located cfg w) {a : ChunkedPrefillWorker.Admission}
    (hpeek : peek (w.policies p) = some a.candidate) (hadmission : w.admitHead p a = .ok w') :
    w'.store.phaseOf a.candidate.requestId = .chunked p ∧
      a.candidate.Fits (w'.requests a.candidate.requestId) := by
  have hwaiting := h.at_waiting (mem_of_peek hpeek)
  have hop : StoreOp.Issuable w.store (.reserveChunkedPrefillContext a.candidate.requestId p
    a.resolvedPrefill a.footprint) := hwaiting.phase
  obtain ⟨record, hrecord, rfl⟩ := admitHead_spec hadmission
  obtain ⟨hdefinition, hemitted, -, -⟩ := admittedRecord_spec hrecord
  have hreserved : (reservedWorker w p a (record.stampStage .prefill)).store.phaseOf
      a.candidate.requestId = .chunked p := (phaseOf_apply h.tracked hop).trans (if_pos rfl)
  have hchunk : StoreOp.Issuable (reservedWorker w p a (record.stampStage .prefill)).store
    (.schedulePrefillChunk a.candidate.requestId p a.chunkTokens) := hreserved
  refine ⟨(phaseOf_apply (tracked_apply h.tracked hop) hchunk).trans hreserved, ?_⟩
  have hfits : a.candidate.Fits (w.requests a.candidate.requestId) := hwaiting.progress
  have hself : (Function.update w.requests a.candidate.requestId (record.stampStage .prefill))
      a.candidate.requestId = record.stampStage .prefill := Function.update_self ..
  exact hfits.congr ((congrArg RequestRecord.definition hself).trans hdefinition)
    ((congrArg RequestRecord.outputTokensEmitted hself).trans hemitted)

theorem admits_admitHead (h : w.admitHead p a = .ok w')
    (q : Fin n) : (w'.store.partitions q).prefillAdmits =
      (w.store.partitions q).prefillAdmits ++ if q = p then [a.candidate.requestId] else [] := by
  obtain ⟨record, -, rfl⟩ := admitHead_spec h
  have hpartitions : (reservedWorker w p a (record.stampStage .prefill)).store.partitions =
      w.store.partitions := w.store.partitions_reserveChunkedPrefillContext ..
  exact (admits_schedulePrefillChunk _ a.candidate.requestId p q a.chunkTokens).trans
    (congrArg (fun partitions : Fin n → ResidentPartitionState acc =>
      (partitions q).prefillAdmits ++ if q = p then [a.candidate.requestId] else []) hpartitions)

theorem Located.admitHead (h : Located cfg w) {budget : Nat} {slots : Option Nat}
    (hgate : ChunkedPrefillWorker.gateHead cfg w p budget slots = some a)
    (hadmission : w.admitHead p a = .ok w') : Located cfg w' := by
  obtain ⟨hpeek, hresolved, -, hfootprint, -⟩ := gateHead_spec hgate
  obtain ⟨admitted, hadmitted, hw⟩ := admitHead_spec hadmission
  obtain ⟨hdefinition, hemitted, -, -⟩ := admittedRecord_spec hadmitted
  obtain ⟨record, hrecord⟩ : ∃ record, record = admitted.stampStage .prefill := ⟨_, rfl⟩
  rw [← hrecord] at hw
  have hrecordDefinition : record.definition = (w.requests a.candidate.requestId).definition := by
    rw [hrecord]
    exact hdefinition
  obtain ⟨hreserved, hat⟩ := h.reserve hpeek hresolved hfootprint hrecordDefinition
    (by rw [hrecord]; exact hemitted) (by rw [hrecord]; rfl)
  have hwaiting := h.at_waiting (mem_of_peek hpeek)
  have hpartitions : (reservedWorker w p a record).store.partitions = w.store.partitions :=
    w.store.partitions_reserveChunkedPrefillContext ..
  have hview := view_reserveChunkedPrefillContext w.store a.candidate.requestId
    a.candidate.requestId p a.resolvedPrefill a.footprint
  rw [if_pos rfl] at hview
  have hnone : ∀ q, ofRequest a.candidate.requestId (w.startedPrefills q) = [] := fun q =>
    List.sublist_nil.mp (hwaiting.started q)
  rw [hw]
  refine hreserved.schedule hat ?_ (congrArg RequestView.context hview) (fun s hs q => ?_)
    (fun q => ?_) fun q hne => ?_
  · rw [hpartitions]
    exact fun hmem => h.scheduled.not_absent hwaiting.phase p _ hmem rfl
  · exact ofRequest_startedAfter hs q
  · unfold startedAfter
    split
    · by_cases hq : q = p
      · subst hq
        rw [Function.update_self, ofRequest_append, hnone, ofRequest_cons_self rfl]
        simp [Location.startedOn, ofRequest]
      · rw [Function.update_of_ne hq, hnone]
        exact List.nil_sublist _
    · rw [hnone]
      exact List.nil_sublist _
  · unfold startedAfter at hne
    split at hne
    · rename_i hlt
      rwa [takePrefix_progress]
    · exact absurd (hnone q) hne

/-! ## Leaving and arriving -/

theorem Scheduled.leave (h : Scheduled w)
    (hother : ∀ s, s ≠ r → w'.entriesOf s = w.entriesOf s)
    (hnodup : ∀ q, (w'.store.partitions q).prefillAdmits.Nodup)
    (hsubset : ∀ q, ∀ s ∈ (w'.store.partitions q).prefillAdmits,
      s ∈ (w.store.partitions q).prefillAdmits)
    (hgone : ∀ q, r ∉ (w'.store.partitions q).prefillAdmits)
    (hstarted : ∀ q, ∀ c ∈ w'.startedPrefills q, c ∈ w.startedPrefills q) : Scheduled w' := by
  have hne : ∀ q, ∀ s ∈ (w'.store.partitions q).prefillAdmits, s ≠ r := by
    rintro q s hs rfl
    exact hgone q hs
  exact h.mono hnodup hsubset
    (fun q s hs => congrArg Entries.phase (hother s (hne q s hs)))
    (fun q s hs => congrArg (fun e => (Entries.view e).context) (hother s (hne q s hs))) hstarted

theorem admits_releaseExternal (store : KvCacheStore acc n) (r : RequestId) (q : Fin n) :
    ((store.releaseExternal r).1.partitions q).prefillAdmits.Perm
      (if store.ledger.placement.lookup r = some q then (store.partitions q).prefillAdmits.erase r
        else (store.partitions q).prefillAdmits) := by
  unfold releaseExternal
  split
  · rename_i hplacement
    rw [hplacement]
    exact .refl _
  · rename_i p hplacement
    rw [hplacement]
    dsimp only
    by_cases hq : q = p
    · subst hq
      rw [if_pos rfl, modifyPartition_self]
      refine (ResidentPartitionState.admits_removePrefillAdmit _ r).trans ?_
      rw [ResidentPartitionState.prefillAdmits_releaseDecode]
      exact .refl _
    · rw [modifyPartition_of_ne _ _ hq, if_neg fun hsome => hq (Option.some.inj hsome).symm]
      exact .refl _

theorem entriesOf_dropped (h : Located cfg w) {episodes : Table RequestId Bool}
    (hepisodes : episodes = w.prefillEpisodes.erase r ∨ episodes = w.prefillEpisodes)
    (hs : s ≠ r) :
    ({ w.issue (.releaseExternal r) with
      startedPrefills := fun p => (w.startedPrefills p).filter fun c => c.requestId ≠ r
      prefillEpisodes := episodes } : ChunkedPrefillWorker P acc n).entriesOf s =
          w.entriesOf s := by
  have hissue : (w.issue (.releaseExternal r)).entriesOf s = w.entriesOf s :=
    w.entriesOf_issue h.tracked trivial
        (by simpa [StoreOp.subject] using hs.symm) (by simp) (by simp)
  ext1
  · rfl
  · funext p
    show ofRequest s ((w.startedPrefills p).filter fun c => c.requestId ≠ r) =
      ofRequest s (w.startedPrefills p)
    rw [ofRequest, List.filter_filter]
    refine List.filter_congr fun c _ => ?_
    by_cases hc : c.requestId = s
    · simp [hc, hs]
    · simp [hc]
  · show episodes.lookup s = w.prefillEpisodes.lookup s
    rcases hepisodes with rfl | rfl
    · exact AList.lookup_erase_ne hs
    · rfl
  · rfl
  · exact (congrArg Entries.phase hissue :)
  · exact (congrArg Entries.view hissue :)
  · exact (congrArg Entries.decode hissue :)

theorem Located.drop (h : Located cfg w)
    (hnone : ∀ p, ∀ c ∈ candidates (w.policies p), c.requestId ≠ r)
    {episodes : Table RequestId Bool}
    (hepisodes : episodes = w.prefillEpisodes.erase r ∨ episodes = w.prefillEpisodes) :
    Located cfg { w.issue (.releaseExternal r) with
      startedPrefills := fun p => (w.startedPrefills p).filter fun c => c.requestId ≠ r
      prefillEpisodes := episodes } := by
  have hop : StoreOp.Issuable w.store (.releaseExternal r) := trivial
  have hphase : (StoreOp.apply w.store (.releaseExternal r)).phaseOf r = .absent :=
    (phaseOf_apply h.tracked hop).trans (if_pos rfl)
  obtain ⟨location, hat⟩ := h.located r
  have hwaiting : ∀ p, ofRequest r (candidates (w.policies p)) = [] := fun p =>
    ofRequest_eq_nil_iff.mpr (hnone p)
  have hstarted : ∀ p, ofRequest r ((w.startedPrefills p).filter fun c => c.requestId ≠ r) = [] :=
    fun p => by simp [ofRequest_eq_nil_iff]
  have hsub : ∀ q (location : Location n), (ofRequest r
      ((w.startedPrefills q).filter fun c => c.requestId ≠ r)).Sublist (location.startedOn q) :=
    fun q location => by
      rw [hstarted]
      exact List.nil_sublist _
  have hother := fun s hs => entriesOf_dropped h hepisodes (s := s) hs
  have hadmits := admits_releaseExternal w.store r
  refine h.step r (tracked_apply h.tracked hop) ?_ hother
    (h.scheduled.leave hother (fun q => ?_) (fun q s hs => ?_) (fun q hmem => ?_)
      fun q c hc => (List.mem_filter.mp hc).1)
  · -- only a request that never arrived is not gone now
    cases location with
    | unseen =>
      refine ⟨.unseen, hwaiting, fun q => hsub q _, hphase, ?_, hat.stage, hat.progress⟩
      show episodes.lookup r = none
      rcases hepisodes with rfl | rfl
      · exact AList.lookup_erase _ _
      · exact hat.episode
    | queued p c =>
      have hwait : ofRequest r (candidates (w.policies p)) = [c] :=
        (hat.waiting p).trans (if_pos rfl)
      rw [hwaiting p] at hwait
      cases hwait
    | prefilling | decoding | gone =>
      exact ⟨.gone, hwaiting, fun q => hsub q _, hphase, trivial,
        iff_of_false (hat.stamped nofun) nofun, trivial⟩
  · refine (hadmits q).nodup_iff.mpr ?_
    split
    · exact (h.scheduled.nodup q).erase r
    · exact h.scheduled.nodup q
  · have hmem := (hadmits q).mem_iff.mp hs
    split at hmem
    · exact List.mem_of_mem_erase hmem
    · exact hmem
  · have hmem' := (hadmits q).mem_iff.mp hmem
    split at hmem'
    · exact (h.scheduled.nodup q).not_mem_erase hmem'
    · rename_i hplacement
      -- a prefill of the partition's iteration is placed on the partition
      refine hplacement ((h.tracked r).placement.trans ?_)
      rcases h.scheduled.placed q r hmem' with hp | hp <;> rw [hp] <;> rfl

theorem releaseRequest_cases (w : ChunkedPrefillWorker P acc n) (r : RequestId) :
    (∃ p, (remove (w.policies p) r).1.isSome = true ∧
      w.releaseRequest r = w.modifyPolicy p fun policy => (remove policy r).2) ∨
    (∀ p, ∀ c ∈ candidates (w.policies p), c.requestId ≠ r) ∧ ∃ episodes : Table RequestId Bool,
        (episodes = w.prefillEpisodes.erase r ∨ episodes = w.prefillEpisodes) ∧
        w.releaseRequest r = { w.issue (.releaseExternal r) with
          startedPrefills := fun p => (w.startedPrefills p).filter fun c => c.requestId ≠ r
          prefillEpisodes := episodes } := by
  cases hfind : (List.finRange n).find? fun p => (remove (w.policies p) r).1.isSome with
  | some p =>
    have hsome := List.find?_some hfind
    refine .inl ⟨p, hsome, ?_⟩
    simp [ChunkedPrefillWorker.releaseRequest, ChunkedPrefillWorker.cancelPending, hfind]
  | none =>
    refine .inr ⟨fun p => ?_, ?_⟩
    · have hp := List.find?_eq_none.mp hfind p (List.mem_finRange p)
      rw [← remove_eq_none_iff]
      simpa using hp
    · refine ⟨_, ?_, by
        simp only [ChunkedPrefillWorker.releaseRequest, ChunkedPrefillWorker.cancelPending, hfind]
        rfl⟩
      split
      · exact .inl rfl
      · exact .inr rfl

theorem Located.cancel (h : Located cfg w) (r : RequestId) : Located cfg (w.releaseRequest r) := by
  obtain ⟨location, hat⟩ := h.located r
  rcases releaseRequest_cases w r with ⟨p, hsome, hw⟩ | ⟨hnone, episodes, hepisodes, hw⟩
  · -- pending: it leaves its pending set only
    have hfound : ¬ ∀ c ∈ candidates (w.policies p), c.requestId ≠ r := fun hnone => by
      rw [(remove_eq_none_iff _ _).mpr hnone] at hsome
      cases hsome
    simp only [not_forall, not_not] at hfound
    obtain ⟨c, hc, rfl⟩ := hfound
    have hqueued := h.at_waiting hc
    have hperm := remove_perm _ c.requestId (h.nodup_waiting p)
    have hkept : ∀ s, ofRequest s (candidates (remove (w.policies p) c.requestId).2) =
        if s = c.requestId then [] else ofRequest s (candidates (w.policies p)) := by
      intro s
      have hfilter : ofRequest s ((candidates (w.policies p)).filter fun d =>
          d.requestId ≠ c.requestId) =
          if s = c.requestId then [] else ofRequest s (candidates (w.policies p)) := by
        rw [ofRequest, List.filter_filter]
        split
        · rename_i hs
          rw [List.filter_eq_nil_iff]
          simp [hs]
        · rename_i hs
          refine List.filter_congr fun d _ => ?_
          by_cases hd : d.requestId = s
          · simp [hd, hs]
          · simp [hd]
      rw [← hfilter]
      refine ofRequest_of_perm hperm ?_
      rw [hfilter]
      split
      · simp
      · exact h.length_waiting_le s p
    rw [hw]
    refine h.step c.requestId h.tracked
      ⟨.gone, fun q => ?_, hqueued.started, hqueued.phase, trivial, ?_, trivial⟩
      (fun s hs => w.entriesOf_modifyPolicy ((hkept s).trans (if_neg hs)))
      ⟨h.scheduled.nodup, h.scheduled.placed, h.scheduled.unfinished⟩
    · by_cases hq : q = p
      · subst hq
        have hnil := hkept c.requestId
        rw [if_pos rfl] at hnil
        simpa [ChunkedPrefillWorker.entriesOf, ChunkedPrefillWorker.modifyPolicy,
          Location.waitingOn] using hnil
      · have hwait := hqueued.waiting q
        simpa [ChunkedPrefillWorker.entriesOf, ChunkedPrefillWorker.modifyPolicy, hq,
          Location.waitingOn, Ne.symm hq] using hwait
    · exact iff_of_false (hqueued.stamped fun h => by cases h) fun h => by cases h
  · -- not pending: the worker and the store drop what they hold
    rw [hw]
    exact h.drop hnone hepisodes

theorem acceptMessage_spec (h : w.acceptMessage cfg r = .ok w') :
    ∃ (p : Fin n) (c : AdmissionCandidate) (sequence : EnqueueSequence) (balance : LoadBalance),
      c.requestId = r ∧ c.retracted = false ∧
      c.freshPromptTokens = (w.requests r).promptTokens ∧
      c.remainingOutputTokens = (w.requests r).targetOutputTokens ∧
      c.sessionInput = (w.requests r).session ∧
      w' = ({ w with
        requests := Function.update w.requests r ((w.requests r).stampStage .pending)
        enqueueSequence := sequence
        balance := balance } : ChunkedPrefillWorker P acc n).modifyPolicy p
          fun policy => push policy c := by
  simp only [ChunkedPrefillWorker.acceptMessage, bind_eq_ok_iff] at h
  obtain ⟨⟨balance, p⟩, -, hw⟩ := h
  have hw := (Except.ok.inj hw).symm
  refine ⟨p, _, _, balance, rfl, rfl, ?_, ?_, ?_, hw⟩
  all_goals simp [ChunkedPrefillWorker.modifyRequest, EnqueueSequence.freeze,
    RequestRecord.stampStage]

theorem Located.accept (h : Located cfg w) (hnew : (w.requests r).stage = none)
    (hstep : w.acceptMessage cfg r = .ok w') : Located cfg w' := by
  obtain ⟨p, c, sequence, balance, hc, hretracted, hfresh, hremaining, hsession, hw⟩ :=
    acceptMessage_spec hstep
  obtain ⟨location, hat⟩ := h.located r
  obtain rfl : location = .unseen := hat.stage.mp hnew
  have hemitted : (w.requests r).outputTokensEmitted = 0 := hat.progress
  have hperm : ∀ pending : P, (candidates (push pending c)).Perm (c :: candidates pending) :=
    fun pending => push_perm pending c
  have hfits : c.Fits ((w.requests r).stampStage .pending) :=
    { fresh := hfresh.trans (by simp [RequestRecord.stampStage, hemitted])
      remaining := hremaining.trans (by simp [RequestRecord.stampStage, hemitted])
      session := hsession
      first := fun _ => hemitted
      again := fun hagain => by
        rw [hretracted] at hagain
        cases hagain }
  rw [hw]
  refine h.step r h.tracked
    ⟨.queued p c, waiting_entered hc hperm hat.waiting, hat.started, hat.phase, hat.episode,
      ?_, ?_⟩ (fun s hs => ?_) ⟨h.scheduled.nodup, h.scheduled.placed, h.scheduled.unfinished⟩
  · simp [ChunkedPrefillWorker.entriesOf, ChunkedPrefillWorker.modifyPolicy,
      RequestRecord.stampStage]
  · simpa [ChunkedPrefillWorker.entriesOf, ChunkedPrefillWorker.modifyPolicy, Progress] using hfits
  · refine (entriesOf_entered (hc.trans_ne hs.symm) hperm ?_).trans (w.entriesOf_requests hs :)
    exact h.length_waiting_le s p

end ServingSim
