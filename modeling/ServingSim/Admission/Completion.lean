import ServingSim.Admission.DecodeStep
import ServingSim.Admission.Moves

/-
  The transitions of the chunked-prefill worker that complete an iteration.

  A partition's decodes take their step, its scheduled chunks are recorded, and
  the requests that produced their last token leave. What is proved about each is
  where every request is afterwards and what the operations issued to the store
  may do, which is all the later modules use.
-/

namespace ServingSim

open KeyedTotal PendingOrderPolicy KvCacheStore

variable {P : Type} [PendingOrderPolicy P] {acc : KvAccounting} {n : Nat}
  {cfg : ChunkedPrefillConfig n} {w w' : ChunkedPrefillWorker P acc n} {r : RequestId} {p : Fin n}

/-! ## Decode steps -/

section decodeStep

variable {start store : KvCacheStore acc n} {tokens : RequestId → Nat}

omit [PendingOrderPolicy P] in
/-- A step moves no request to another phase. -/
theorem phaseOf_advanced (h : Advanced start store p tokens) (r : RequestId) :
    store.phaseOf r = start.phaseOf r := by
  have hres : ∀ q, store.Resident q r ↔ start.Resident q r := fun q => by
    rw [resident_iff_decodeOf, resident_iff_decodeOf]
    by_cases hq : q = p
    · subst hq
      rw [h.decodeOf, Option.isSome_map]
    · rw [KvCacheStore.decodeOf, h.other q hq]
      rfl
  simp only [phaseOf, h.ledger, hres]

theorem admits_advanced (h : Advanced start store p tokens) (q : Fin n) :
    (store.partitions q).prefillAdmits = (start.partitions q).prefillAdmits := by
  by_cases hq : q = p
  · subst hq
    exact h.admits
  · rw [h.other q hq]

theorem InStep.advance {record : RequestRecord} {state : ResidentDecodeState acc}
    (h : InStep record state) {t : Nat} (ht : t ≤ record.targetOutputTokens -
      record.outputTokensEmitted) :
    InStep (DecodeCompletion.retired record t) (state.advanceBy t) := by
  obtain ⟨hdefinition, hemitted, -⟩ := DecodeCompletion.retired_spec record t
  simp only [RequestRecord.definition, RequestRecord.Definition.mk.injEq] at hdefinition
  obtain ⟨-, -, hprompt, htarget, hsession⟩ := hdefinition
  obtain ⟨hkv, hremaining⟩ := state.advanceBy_spec t
  have hcurrent := h.currentKv
  have hleft := h.remaining
  have hpositive := h.emitted
  refine ⟨?_, ?_, ?_⟩
  · rw [hkv, hprompt, hsession, hemitted]
    omega
  · rw [hremaining, htarget, hemitted]
    omega
  · rw [hemitted]
    omega

theorem InStep.rest {record : RequestRecord} {state : ResidentDecodeState acc}
    (h : InStep record state) (hdone : state.remainingDecode = 0) (t : Nat) :
    InStep record (state.advanceBy t) := by
  obtain ⟨hkv, hremaining⟩ := state.advanceBy_spec t
  have hcurrent := h.currentKv
  have hleft := h.remaining
  exact ⟨by omega, by omega, h.emitted⟩

end decodeStep

omit [PendingOrderPolicy P] in
theorem members_eq (w : ChunkedPrefillWorker P acc n) (p : Fin n) :
    (w.store.partitions p).decodeMembers.map Prod.fst = w.decodeStates p := by
  simp [ResidentPartitionState.decodeMembers, ChunkedPrefillWorker.decodeStates,
    ResidentPartitionState.decodeStates]

omit [PendingOrderPolicy P] in
theorem nodup_decodeStates (w : ChunkedPrefillWorker P acc n) (p : Fin n) :
    (w.decodeStates p).Nodup := by
  have hkeys := (w.store.partitions p).decodes.keys_nodup
  simp only [ChunkedPrefillWorker.decodeStates, ResidentPartitionState.decodeStates,
    ResidentPartitionState.iterDecoding, List.map_map]
  exact hkeys.sublist (List.filter_sublist.map _)

/-- What a decode step on one partition comes to. -/
structure DecodeStep (cfg : ChunkedPrefillConfig n) (w w' : ChunkedPrefillWorker P acc n)
    (p : Fin n) (completed : List RequestId) : Prop where
  located : Located cfg w'
  issues : IssuedStore.Issues (StepOp w.store p cfg.queryWidth) w.kv w'.kv
  /-- A partition that runs no decode in the batch stays as it is. -/
  idle : w.batchPlan p = false → w' = w
  nodup : completed.Nodup
  resident : ∀ r ∈ completed, w'.store.phaseOf r = .resident p
  complete : ∀ r ∈ completed, (w'.requests r).isComplete = true
  admits : ∀ q, (w'.store.partitions q).prefillAdmits = (w.store.partitions q).prefillAdmits
  frame : w' = { w with kv := w'.kv, requests := w'.requests }
  phase : ∀ r, w'.store.phaseOf r = w.store.phaseOf r
  ledger : w'.store.ledger = w.store.ledger
  /-- A record keeps its definition and is credited the tokens its decode retired. -/
  credited : ∀ r, w'.requests r = w.requests r ∨ r ∈ w.decodeStates p ∧ ∃ tokens,
    tokens ≤ (w.requests r).targetOutputTokens - (w.requests r).outputTokensEmitted ∧
    w'.requests r = DecodeCompletion.retired (w.requests r) tokens

theorem Located.decodeStep (h : Located cfg w) {completed : List RequestId}
    (hstep : w.completeDecodesOn cfg p = .ok (w', completed)) :
    DecodeStep cfg w w' p completed := by
  simp only [ChunkedPrefillWorker.completeDecodesOn] at hstep
  split at hstep
  case isFalse hplan =>
    cases hstep
    exact ⟨h, .refl, fun _ => rfl, List.nodup_nil, fun r hr => (List.not_mem_nil hr).elim,
      fun r hr => (List.not_mem_nil hr).elim, fun _ => rfl, rfl, fun _ => rfl, rfl,
      fun _ => .inl rfl⟩
  case isTrue hplan =>
  simp only [DecodeCompletion.completeDecodes, bind_eq_ok_iff] at hstep
  obtain ⟨⟨kv, final', done'⟩, ⟨⟨final, done, assigned⟩, hmembers, hkv⟩, hw⟩ := hstep
  simp only [pure, Except.pure, Except.ok.injEq, Prod.mk.injEq] at hkv hw
  obtain ⟨rfl, rfl, rfl⟩ := hkv
  obtain ⟨rfl, rfl⟩ := hw
  have hids : (w.kv.store.partitions p).decodeMembers.map Prod.fst = w.decodeStates p :=
    members_eq w p
  have hnodup := nodup_decodeStates w p
  have hretired := DecodeCompletion.retireMembers_spec (hids ▸ hnodup) hmembers
  have hplaced : ∀ r ∈ (w.kv.store.partitions p).decodeMembers.map Prod.fst,
      w.kv.store.ledger.placement.lookup r = some p := fun r hr => by
    have hphase := h.resident_of_live (hids ▸ hr)
    have ht := (h.tracked r).placement
    rw [hphase] at ht
    exact ht
  obtain ⟨tokens, hissues, hadvanced, htokens⟩ :=
    DecodeCompletion.advanceRetired_spec cfg.decodeCompletion hretired (hids ▸ hnodup) hplaced
  set kv' := cfg.decodeCompletion.advanceRetired p assigned w.kv with hkv'
  have htracked : kv'.store.Tracked :=
    hissues.invariant (fun store op ht hop => tracked_apply ht hop.1) h.tracked
  have hphase := fun r => phaseOf_advanced hadvanced r
  have hadmits := fun q => admits_advanced hadvanced q
  have hcompleted : ∀ r ∈ done, r ∈ w.decodeStates p ∧ (final r).isComplete = true := by
    intro r hr
    rw [hretired.completed, hids] at hr
    simpa using hr
  -- what a member retires is what its record has left at most
  have hmember : ∀ e ∈ assigned, e.1 ∈ w.decodeStates p ∧
      e.2 ≤ (w.requests e.1).targetOutputTokens - (w.requests e.1).outputTokensEmitted ∧
      final e.1 = DecodeCompletion.retired (w.requests e.1) e.2 := by
    intro e he
    have hlive : e.1 ∈ w.decodeStates p := by
      rw [← hids, ← hretired.keys]
      exact List.mem_map_of_mem he
    obtain ⟨⟨residentKv, hkv⟩, hfinal⟩ := hretired.each e he
    obtain ⟨state, hstate, hin⟩ := (h.at_resident (h.resident_of_live hlive)).progress
    obtain ⟨state', hstate', hpositive⟩ := mem_decodeStates.mp hlive
    obtain rfl : state = state' := Option.some.inj (hstate.symm.trans hstate')
    have hremaining : state.remainingDecode = (w.requests e.1).remainingOutputTokens :=
      hin.remaining
    exact ⟨hlive, DecodeCompletion.retiredTokens_le_remaining (by omega) hkv, hfinal⟩
  refine ⟨⟨htracked, fun r => ?_, ?_⟩, hissues, fun hf => absurd hplan (by simp [hf]), ?_,
    fun r hr => ?_, fun r hr => (hcompleted r hr).2, hadmits, rfl, hphase,
    hadvanced.ledger, fun r => ?_⟩
  · obtain ⟨location, hat⟩ := h.located r
    by_cases hr : r ∈ w.decodeStates p
    · -- a member: its decode grew by what its record was credited
      have hloc := h.at_resident (h.resident_of_live hr)
      obtain ⟨state, hstate, hin⟩ := hloc.progress
      rw [← hids, ← hretired.keys] at hr
      obtain ⟨e, he, rfl⟩ := List.mem_map.mp hr
      obtain ⟨-, hle, hfinal⟩ := hmember e he
      obtain ⟨-, -, hstage⟩ := DecodeCompletion.retired_spec (w.requests e.1) e.2
      have hsome : (final e.1).stage ≠ none := by
        rw [hfinal]
        exact hstage fun hnone => by cases hloc.stage.mp hnone
      refine ⟨.decoding p, hloc.waiting, hloc.started, (hphase e.1).trans hloc.phase, hloc.episode,
        ⟨fun hnone => absurd hnone hsome, fun hunseen => by cases hunseen⟩, state.advanceBy e.2, ?_,
        ?_⟩
      · have hdecode := hadvanced.decodeOf e.1
        rw [htokens e he] at hdecode
        exact hdecode.trans (congrArg (Option.map _) hstate)
      · show InStep (final e.1) _
        rw [hfinal]
        exact hin.advance hle
    · -- any other request keeps its record, and its decode if it has one
      refine ⟨location, hat.congr rfl rfl rfl (hretired.other r (hids ▸ hr)) (hphase r) ?_
        fun q state _ hstate hin => ?_⟩
      · simp [ChunkedPrefillWorker.entriesOf, ChunkedPrefillWorker.store, hadvanced.ledger]
      · by_cases hq : q = p
        · subst hq
          have hdone : state.remainingDecode = 0 := by
            by_contra hlive
            exact hr (mem_decodeStates.mpr ⟨state, hstate, Nat.pos_of_ne_zero hlive⟩)
          exact ⟨state.advanceBy (tokens r),
            (hadvanced.decodeOf r).trans (congrArg (Option.map _) hstate), hin.rest hdone _⟩
        · refine ⟨state, ?_, hin⟩
          have hother := hadvanced.other q hq
          simpa [ChunkedPrefillWorker.entriesOf, ChunkedPrefillWorker.store,
            KvCacheStore.decodeOf, hother] using hstate
  · refine h.scheduled.mono ?_ ?_ ?_ ?_ ?_
    · exact fun q => (hadmits q).symm ▸ h.scheduled.nodup q
    · exact fun q r hr => (hadmits q) ▸ hr
    · exact fun q r _ => hphase r
    · exact fun q r _ => by
        simp [ChunkedPrefillWorker.store, hadvanced.ledger]
    · exact fun q c hc => hc
  · rw [hretired.completed, hids]
    exact hnodup.sublist List.filter_sublist
  · exact (hphase r).trans (h.resident_of_live (hcompleted r hr).1)
  · by_cases hr : r ∈ w.decodeStates p
    · rw [← hids, ← hretired.keys] at hr
      obtain ⟨e, he, rfl⟩ := List.mem_map.mp hr
      obtain ⟨hlive, hle, hfinal⟩ := hmember e he
      exact .inr ⟨hlive, e.2, hle, hfinal⟩
    · exact .inl (hretired.other r (hids ▸ hr))

/-! ## Completing chunks -/

theorem recordChunk_spec {reprocessed finished : Bool} {chunkTokens : Nat}
    {record record' : RequestRecord}
    (h : ChunkedPrefillWorker.recordChunk reprocessed finished chunkTokens record = .ok record') :
    record'.definition = record.definition ∧ record'.outputTokensEmitted =
        (if finished then if reprocessed then record.outputTokensEmitted + 1 else 1
          else record.outputTokensEmitted) ∧
      (record.stage ≠ none → record'.stage ≠ none) := by
  cases reprocessed with
  | false =>
    cases finished with
    | false =>
      cases h
      exact ⟨rfl, rfl, id⟩
    | true =>
      cases h
      exact ⟨rfl, rfl, fun _ => Option.some_ne_none _⟩
  | true =>
    simp only [ChunkedPrefillWorker.recordChunk, if_true, bind_eq_ok_iff] at h
    obtain ⟨recorded, hrecorded, h⟩ := h
    obtain ⟨episode, -, -, rfl⟩ := RequestRecord.updateEpisode_spec hrecorded
    cases finished with
    | false =>
      cases h
      exact ⟨rfl, rfl, id⟩
    | true =>
      simp only [if_true, bind_eq_ok_iff] at h
      obtain ⟨closed, hclosed, emitted, hemitted, h⟩ := h
      obtain ⟨episode', -, -, rfl⟩ := RequestRecord.updateEpisode_spec hclosed
      cases hemitted
      cases h
      refine ⟨?_, ?_, fun _ => Option.some_ne_none _⟩
      · rw [RequestRecord.definition_stampStage, RequestRecord.definition_recordToken]
        rfl
      · rw [RequestRecord.outputTokensEmitted_stampStage,
          RequestRecord.outputTokensEmitted_recordToken]
        rfl

theorem view_completePrefillChunk (store : KvCacheStore acc n) (r s : RequestId) :
    (store.completePrefillChunk r).ledger.viewOf s =
      if s = r then
        { store.ledger.viewOf s with
          context := (store.ledger.viewOf s).context.map ResolvedPrefillContext.completeChunk }
      else store.ledger.viewOf s :=
  store.ledger.view_updatePrefillContext r s _

theorem contextOf_completePrefillChunk {store : KvCacheStore acc n} {r : RequestId}
    {context : ResolvedPrefillContext} (h : (store.ledger.viewOf r).context = some context) :
    ((store.completePrefillChunk r).ledger.viewOf r).context = some context.completeChunk := by
  rw [view_completePrefillChunk, if_pos rfl, h]
  rfl

theorem held_le_admissionFootprint (context : ResolvedPrefillContext) (c : AdmissionCandidate) :
    acc.heldWhileRunning context.postPrefillContextTokens 1 ≤
      (ChunkedPrefillWorker.admissionFootprint cfg acc context c).reservedUnits := by
  unfold ChunkedPrefillWorker.admissionFootprint
  split
  · exact acc.held_le_footprint (Nat.le_add_right _ _)
  · exact acc.held_le_footprint (Nat.le_add_right _ _)

/-- An operation of a chunk's completion: issuable, it takes no units and leaves
the prefix caches. -/
def ChunkOp (store : KvCacheStore acc n) (op : StoreOp n) : Prop :=
  op.Issuable store ∧ (∀ q, (op.apply store).protectedUnits q ≤ store.protectedUnits q) ∧
    (op.apply store).prefixCaches = store.prefixCaches

/-- What the completion of one scheduled chunk comes to. -/
structure ChunkStep (cfg : ChunkedPrefillConfig n) (w w' : ChunkedPrefillWorker P acc n)
    (p : Fin n) (r : RequestId) (completed completed' : List RequestId) : Prop where
  located : Located cfg w'
  issues : IssuedStore.Issues ChunkOp w.kv w'.kv
  before : w.store.phaseOf r = .chunked p
  entries : ∀ s, s ≠ r → w'.entriesOf s = w.entriesOf s
  completed : completed' = completed ∨ completed' = completed ++ [r] ∧
    w'.store.phaseOf r = .resident p ∧ (w'.requests r).isComplete = true
  admits : ∀ q, (w'.store.partitions q).prefillAdmits = (w.store.partitions q).prefillAdmits
  frame : w' = { w with
    kv := w'.kv, requests := w'.requests, prefillEpisodes := w'.prefillEpisodes }
  definition : (w'.requests r).definition = (w.requests r).definition
  /-- A prefill that stays one emits nothing; one that starts to decode emits a token. -/
  credited : w'.store.phaseOf r = .chunked p ∧
      (w'.requests r).outputTokensEmitted = (w.requests r).outputTokensEmitted ∨
    w'.store.phaseOf r = .resident p ∧
      (w'.requests r).outputTokensEmitted = (w.requests r).outputTokensEmitted + 1

theorem ChunkStep.other {completed completed' : List RequestId}
    (h : ChunkStep cfg w w' p r completed completed') {s : RequestId} (hs : s ≠ r) :
    w'.store.phaseOf s = w.store.phaseOf s ∧ w'.requests s = w.requests s :=
  ⟨congrArg Entries.phase (h.entries s hs), congrArg Entries.record (h.entries s hs)⟩

theorem decodeOf_finish (store : KvCacheStore acc n) {context : ResolvedPrefillContext}
    (remaining : Nat) (hcontext : (store.ledger.viewOf r).context = some context)
    (hnew : ¬ store.Resident p r) :
    ∃ state, (store.finishChunkedPrefill r p remaining).decodeOf p r = some state ∧
      state.currentKv = context.postPrefillContextTokens ∧ state.remainingDecode = remaining := by
  rw [store.finishChunkedPrefill_eq r p remaining hcontext]
  obtain ⟨state, hslots, hkv, hremaining⟩ := (store.partitions p).slots_beginDecode r
    context.postPrefillContextTokens remaining
    ((store.modifyLedger fun ledger => ledger.forgetChunkedPrefill r).promptTokensOf r
      context.postPrefillContextTokens) hnew
  refine ⟨state, ?_, hkv, hremaining⟩
  rw [KvCacheStore.decodeOf, commitResident, modifyPartition_self, SlotList.get?_eq_some_iff]
  refine (congrArg ((r, state) ∈ ·) hslots).mpr ?_
  simp

theorem admits_finish (store : KvCacheStore acc n) (r : RequestId) (p q : Fin n)
    (remaining : Nat) :
    ((store.finishChunkedPrefill r p remaining).partitions q).prefillAdmits =
      (store.partitions q).prefillAdmits := by
  unfold finishChunkedPrefill
  split
  · rfl
  · by_cases hq : q = p
    · subst hq
      simp [commitResident]
    · simp [commitResident, modifyPartition_of_ne _ _ hq]

theorem Progress.record {e e' : Entries acc n} {location : Location n} (h : Progress cfg e location)
    (hdefinition : e'.record.definition = e.record.definition)
    (hemitted : e'.record.outputTokensEmitted = e.record.outputTokensEmitted)
    (hview : e'.view = e.view) (hdecode : e'.decode = e.decode) : Progress cfg e' location := by
  cases location with
  | unseen => exact hemitted.trans h
  | queued p c => exact AdmissionCandidate.Fits.congr h hdefinition hemitted
  | prefilling p c => exact ⟨h.1.congr hdefinition hemitted, hview ▸ h.2⟩
  | gone => trivial
  | decoding p =>
    obtain ⟨state, hstate, hin⟩ := h
    simp only [RequestRecord.definition, RequestRecord.Definition.mk.injEq] at hdefinition
    obtain ⟨-, -, hprompt, htarget, hsession⟩ := hdefinition
    refine ⟨state, hdecode ▸ hstate, ?_, ?_, ?_⟩
    · rw [hprompt, hsession, hemitted]
      exact hin.currentKv
    · rw [htarget, hemitted]
      exact hin.remaining
    · rw [hemitted]
      exact hin.emitted

theorem Located.record (h : Located cfg w) {record : RequestRecord}
    (hdefinition : record.definition = (w.requests r).definition)
    (hemitted : record.outputTokensEmitted = (w.requests r).outputTokensEmitted)
    (hstage : record.stage = none ↔ (w.requests r).stage = none) :
    Located cfg { w with requests := Function.update w.requests r record } := by
  obtain ⟨location, hat⟩ := h.located r
  have hrecord : ({ w with requests := Function.update w.requests r record } :
      ChunkedPrefillWorker P acc n).requests r = record := Function.update_self ..
  refine h.step r h.tracked
    ⟨location, hat.waiting, hat.started, hat.phase, hat.episode, ?_,
        hat.progress.record ?_ ?_ rfl rfl⟩
    (fun s hs => w.entriesOf_requests hs)
    ⟨h.scheduled.nodup, h.scheduled.placed, h.scheduled.unfinished⟩
  · exact (congrArg (fun x : RequestRecord => x.stage = none) hrecord).to_iff.trans
      (hstage.trans hat.stage)
  · exact (congrArg RequestRecord.definition hrecord).trans hdefinition
  · exact (congrArg RequestRecord.outputTokensEmitted hrecord).trans hemitted

theorem Located.completeChunk (h : Located cfg w) (hr : w.store.phaseOf r = .chunked p) :
    Located cfg (w.issue (.completePrefillChunk r)) := by
  have hop := issuable_completePrefillChunk hr
  obtain ⟨c, hat⟩ := h.at_chunked hr
  obtain ⟨hfits, old, hold, hpost, hcharge⟩ := hat.progress
  have hview := fun s => view_completePrefillChunk w.store r s
  have hphase : ∀ s, (w.issue (.completePrefillChunk r)).store.phaseOf s = w.store.phaseOf s :=
    fun s => phaseOf_apply h.tracked hop
  have hself : (w.store.completePrefillChunk r).ledger.viewOf r =
      { w.store.ledger.viewOf r with context := some old.completeChunk } := by
    rw [hview, if_pos rfl]
    have hcontext : (w.store.ledger.viewOf r).context = some old := hold
    rw [hcontext]
    rfl
  refine h.step r (tracked_apply h.tracked hop)
    ⟨.prefilling p c, hat.waiting, hat.started, (hphase r).trans hat.phase, hat.episode, hat.stage,
      hfits, old.completeChunk, congrArg RequestView.context hself, hpost,
      (congrArg RequestView.chunked hself).trans hcharge⟩
    (fun s hs => w.entriesOf_issue h.tracked hop (by simpa [StoreOp.subject] using hs.symm)
      (by simp) (by simp))
    ⟨h.scheduled.nodup, fun q s hs => ?_, fun q d hd context hds hcontext => ?_⟩
  · rw [hphase]
    exact h.scheduled.placed q s hs
  · by_cases hdr : d.requestId = r
    · have hlt := h.scheduled.unfinished q d hd old hds (hdr ▸ hold)
      have hnew : some old.completeChunk = some context :=
        (congrArg RequestView.context hself).symm.trans (hdr ▸ hcontext)
      cases hnew
      simp only [ResolvedPrefillContext.completeChunk]
      omega
    · refine h.scheduled.unfinished q d hd context hds ?_
      have hsame := hview d.requestId
      rw [if_neg hdr] at hsame
      exact (congrArg RequestView.context hsame).symm.trans hcontext

/-- The worker once a prefill that computed its last tokens starts to decode. -/
def startedDecode (w : ChunkedPrefillWorker P acc n) (p : Fin n) (r : RequestId)
    (record : RequestRecord) : ChunkedPrefillWorker P acc n :=
  { w.issue (.finishChunkedPrefill r p record.remainingOutputTokens) with
    requests := Function.update w.requests r record
    prefillEpisodes := w.prefillEpisodes.erase r }

theorem entriesOf_startedDecode (ht : w.store.Tracked) (hr : w.store.phaseOf r = .chunked p)
    (record : RequestRecord) {s : RequestId} (hs : s ≠ r) :
    (startedDecode w p r record).entriesOf s = w.entriesOf s := by
  have hissue : (w.issue (.finishChunkedPrefill r p record.remainingOutputTokens)).entriesOf s =
      w.entriesOf s :=
    w.entriesOf_issue ht hr (by simpa [StoreOp.subject] using hs.symm) (by simp) (by simp)
  ext1
  · rfl
  · rfl
  · simp [startedDecode, ChunkedPrefillWorker.entriesOf, AList.lookup_erase_ne hs]
  · exact Function.update_of_ne hs _ _
  · exact (congrArg Entries.phase hissue :)
  · exact (congrArg Entries.view hissue :)
  · exact (congrArg Entries.decode hissue :)

theorem Located.startDecode (h : Located cfg w) (hr : w.store.phaseOf r = .chunked p)
    (hdone : ∀ q, ofRequest r (w.startedPrefills q) = []) {record : RequestRecord}
    (hdefinition : record.definition = (w.requests r).definition)
    (hemitted : record.outputTokensEmitted = (w.requests r).outputTokensEmitted + 1)
    (hstage : record.stage ≠ none) : Located cfg (startedDecode w p r record) := by
  have hop : StoreOp.Issuable w.store
      (.finishChunkedPrefill r p record.remainingOutputTokens) := hr
  obtain ⟨c, hat⟩ := h.at_chunked hr
  obtain ⟨hfits, context, hcontext, hpost, -⟩ := hat.progress
  have hnew : ¬ w.store.Resident p r := fun hres => by
    have hresident := ((h.tracked r).resident p).mp hres
    rw [hr] at hresident
    cases hresident
  obtain ⟨state, hstate, hkv, hremaining⟩ :=
    decodeOf_finish w.store record.remainingOutputTokens hcontext hnew
  have hphase : ∀ s, (startedDecode w p r record).store.phaseOf s =
      if s = r then .resident p else w.store.phaseOf s := fun s => phaseOf_apply h.tracked hop
  have hrecord : (startedDecode w p r record).requests r = record := Function.update_self ..
  have hother := fun s hs => entriesOf_startedDecode h.tracked hr record (s := s) hs
  refine h.step r (tracked_apply h.tracked hop)
    ⟨.decoding p, hat.waiting, fun q => ?_, (hphase r).trans (if_pos rfl), ?_, ?_, state,
        hstate, ?_⟩
    hother ⟨fun q => ?_, fun q s hs => ?_, fun q d hd context' hds hcontext' => ?_⟩
  · have hnil : ((startedDecode w p r record).entriesOf r).started q = [] := hdone q
    rw [hnil]
    exact List.nil_sublist _
  · simp [startedDecode, ChunkedPrefillWorker.entriesOf, Location.HasEpisode]
  · exact ⟨fun hnone => absurd ((congrArg RequestRecord.stage hrecord).symm.trans hnone) hstage,
      fun hunseen => by cases hunseen⟩
  · -- the context is every token but the one just emitted
    simp only [RequestRecord.definition, RequestRecord.Definition.mk.injEq] at hdefinition
    obtain ⟨-, -, hprompt, htarget, hsession⟩ := hdefinition
    have hfresh : c.freshPromptTokens =
      (w.requests r).promptTokens + (w.requests r).outputTokensEmitted := hfits.fresh
    have hinput : c.sessionInput = (w.requests r).session := hfits.session
    show InStep ((startedDecode w p r record).requests r) state
    rw [hrecord]
    refine ⟨?_, ?_, ?_⟩
    · rw [hkv, hpost, hfresh, hinput, hprompt, hsession, hemitted]
      omega
    · rw [hremaining]
      rfl
    · omega
  · exact (admits_finish w.store r p q _).symm ▸ h.scheduled.nodup q
  · have hs' : s ∈ (w.store.partitions q).prefillAdmits :=
      (admits_finish w.store r p q record.remainingOutputTokens) ▸ hs
    rw [hphase]
    split
    · rename_i hsr
      rcases h.scheduled.placed q s hs' with hp | hp <;> rw [hsr, hr] at hp <;> cases hp
      exact .inr rfl
    · exact h.scheduled.placed q s hs'
  · have hne : d.requestId ≠ r := ofRequest_eq_nil_iff.mp (hdone q) d hd
    have hview : (startedDecode w p r record).store.ledger.viewOf d.requestId =
        w.store.ledger.viewOf d.requestId := congrArg Entries.view (hother d.requestId hne)
    rw [hview] at hcontext'
    exact h.scheduled.unfinished q d hd context'
      ((admits_finish w.store r p q record.remainingOutputTokens) ▸ hds) hcontext'

omit [PendingOrderPolicy P] in
/-- What the completion of a scheduled chunk reads and writes. -/
theorem completePrefill_spec {completed completed' : List RequestId}
    (h : ChunkedPrefillWorker.completePrefill p (w, completed) r = .ok (w', completed')) :
    ∃ reprocessed context after record, w.prefillEpisodes.lookup r = some reprocessed ∧
      (w.store.ledger.viewOf r).context = some context ∧
      ((w.store.completePrefillChunk r).ledger.viewOf r).context = some after ∧
      ChunkedPrefillWorker.recordChunk reprocessed (decide (after.remainingPrefillTokens = 0))
        context.activeChunk.2 (w.requests r) = .ok record ∧
      if after.remainingPrefillTokens = 0 then
        w' = startedDecode (w.issue (.completePrefillChunk r)) p r record ∧
          completed' = if record.isComplete then completed ++ [r] else completed
      else
        w' = { w.issue (.completePrefillChunk r) with
          requests := Function.update w.requests r record } ∧ completed' = completed := by
  simp only [ChunkedPrefillWorker.completePrefill, ChunkedPrefillWorker.resolvedPrefillContext,
    ChunkedPrefillWorker.tryModifyRequest, bind_eq_ok_iff, required_eq_ok_iff] at h
  obtain ⟨reprocessed, hepisode, context, hcontext, after, hafter, recorded,
    ⟨record, hrecord, hrecorded⟩, hfinal⟩ := h
  cases hrecorded
  refine ⟨reprocessed, context, after, record, hepisode, hcontext, hafter, hrecord, ?_⟩
  by_cases hdone : after.remainingPrefillTokens = 0
  · rw [if_pos hdone] at hfinal ⊢
    simp only [Function.update_self, pure, Except.pure, Except.ok.injEq, Prod.mk.injEq] at hfinal
    exact ⟨hfinal.1.symm, hfinal.2.symm⟩
  · rw [if_neg hdone] at hfinal ⊢
    simp only [pure, Except.pure, Except.ok.injEq, Prod.mk.injEq] at hfinal
    exact ⟨hfinal.1.symm, hfinal.2.symm⟩

theorem Located.completePrefill (h : Located cfg w) {completed completed' : List RequestId}
    (hr : r ∈ (w.store.partitions p).prefillAdmits)
    (hstep : ChunkedPrefillWorker.completePrefill p (w, completed) r = .ok (w', completed')) :
    ChunkStep cfg w w' p r completed completed' := by
  obtain ⟨reprocessed, context, after, record, hepisode, hcontext, hafter, hrecord, hfinal⟩ :=
    completePrefill_spec hstep
  -- a request with an episode open is being prefilled
  have hphase : w.store.phaseOf r = .chunked p := by
    rcases h.scheduled.placed p r hr with hchunked | hresident
    · exact hchunked
    · have hnone : w.prefillEpisodes.lookup r = none := (h.at_resident hresident).episode
      rw [hepisode] at hnone
      cases hnone
  obtain ⟨c, hat⟩ := h.at_chunked hphase
  obtain ⟨hfits, old, hold, hpost, hcharge⟩ := hat.progress
  obtain rfl : context = old := Option.some.inj (hcontext.symm.trans hold)
  have hretracted : reprocessed = c.retracted := Option.some.inj (hepisode.symm.trans hat.episode)
  have hop := issuable_completePrefillChunk hphase
  have hphases : ∀ s, (w.store.completePrefillChunk r).phaseOf s = w.store.phaseOf s :=
    fun s => phaseOf_apply h.tracked hop
  have hview := view_completePrefillChunk w.store r r
  rw [if_pos rfl] at hview
  have hcompleted : after = context.completeChunk := by
    rw [hview] at hafter
    simp only [hcontext, Option.map_some, Option.some.injEq] at hafter
    exact hafter.symm
  have hissues : IssuedStore.Issues ChunkOp w.kv (w.kv.issue (.completePrefillChunk r)) :=
    .one ⟨hop, (show Shrinks w.store (StoreOp.apply w.store (.completePrefillChunk r)) from
      shrinks_apply w.store trivial).protected_le, rfl⟩
  obtain ⟨hdefinition, hemitted, hstage⟩ := recordChunk_spec hrecord
  have hstamped : (w.requests r).stage ≠ none := hat.stamped fun h => by cases h
  have hchunk := h.completeChunk hphase
  have hothers : ∀ s, s ≠ r → (w.issue (.completePrefillChunk r)).entriesOf s = w.entriesOf s :=
    fun s hs => w.entriesOf_issue h.tracked hop (by simpa [StoreOp.subject] using hs.symm)
      (by simp) (by simp)
  by_cases hdone : after.remainingPrefillTokens = 0
  · -- the last chunk: the prompt is not started any more and the request decodes
    rw [if_pos hdone] at hfinal
    obtain ⟨rfl, hcompleted'⟩ := hfinal
    have hgone : ∀ q, ofRequest r (w.startedPrefills q) = [] := by
      intro q
      rw [ofRequest_eq_nil_iff]
      intro d hd hdr
      have hq : Phase.chunked q = Phase.chunked p :=
        (h.at_started hd).phase.symm.trans ((congrArg w.store.phaseOf hdr).trans hphase)
      cases hq
      have hlt := h.scheduled.unfinished p d hd context (hdr ▸ hr) (hdr ▸ hold)
      rw [hcompleted] at hdone
      simp only [ResolvedPrefillContext.remainingPrefillTokens,
        ResolvedPrefillContext.completeChunk] at hdone
      omega
    have hcredited : record.outputTokensEmitted = (w.requests r).outputTokensEmitted + 1 := by
      rw [hemitted, decide_eq_true hdone]
      cases reprocessed with
      | true => rfl
      | false =>
        have hzero : (w.requests r).outputTokensEmitted = 0 := hfits.first hretracted.symm
        simp [hzero]
    have hchunked : (w.store.completePrefillChunk r).phaseOf r = .chunked p :=
      (hphases r).trans hphase
    have hfinish : ∀ s, (startedDecode (w.issue (.completePrefillChunk r)) p r record).store.phaseOf
        s = if s = r then .resident p else (w.store.completePrefillChunk r).phaseOf s := fun s =>
      phaseOf_apply hchunk.tracked (show StoreOp.Issuable (w.store.completePrefillChunk r)
        (.finishChunkedPrefill r p record.remainingOutputTokens) from hchunked)
    have hop' : ChunkOp (w.store.completePrefillChunk r)
        (.finishChunkedPrefill r p record.remainingOutputTokens) := by
      refine ⟨hchunked, fun q => ?_, ?_⟩
      · refine protected_finish_le _ _ hafter
          ((congrArg RequestView.chunked hview).trans hcharge) ?_ q
        rw [hcompleted]
        exact held_le_admissionFootprint context c
      · exact (congrArg KvCacheStore.prefixCaches
          ((w.store.completePrefillChunk r).finishChunkedPrefill_eq r p _ hafter)).trans rfl
    have hrecord : (startedDecode (w.issue (.completePrefillChunk r)) p r record).requests r =
        record := Function.update_self ..
    refine ⟨hchunk.startDecode hchunked hgone hdefinition hcredited (hstage hstamped),
      .issue hissues hop', hphase, fun s hs => ?_, ?_,
      fun q => admits_finish _ r p q _, rfl,
      (congrArg RequestRecord.definition hrecord).trans hdefinition,
      .inr ⟨(hfinish r).trans (if_pos rfl),
        (congrArg RequestRecord.outputTokensEmitted hrecord).trans hcredited⟩⟩
    · exact (entriesOf_startedDecode (w := w.issue (.completePrefillChunk r))
          hchunk.tracked hchunked
        record hs).trans (hothers s hs)
    · rw [hcompleted']
      split
      · rename_i hcomplete
        refine .inr ⟨rfl, (hfinish r).trans (if_pos rfl), ?_⟩
        exact (congrArg RequestRecord.isComplete (Function.update_self ..)).trans hcomplete
      · exact .inl rfl
  · -- tokens are left
    rw [if_neg hdone] at hfinal
    obtain ⟨rfl, rfl⟩ := hfinal
    have hkept : record.outputTokensEmitted = (w.requests r).outputTokensEmitted := by
      rw [hemitted, decide_eq_false hdone]
      rfl
    have hrecord : (Function.update w.requests r record) r = record := Function.update_self ..
    exact ⟨hchunk.record hdefinition hkept ⟨fun hnone => absurd hnone (hstage hstamped),
      fun hnone => absurd hnone hstamped⟩, hissues, hphase, fun s hs =>
        ((w.issue (.completePrefillChunk r)).entriesOf_requests (q := r) hs).trans (hothers s hs),
      .inl rfl, fun q => rfl, rfl,
      (congrArg RequestRecord.definition hrecord).trans hdefinition,
      .inl ⟨(hphases r).trans hphase,
        (congrArg RequestRecord.outputTokensEmitted hrecord).trans hkept⟩⟩

/-! ## The end of an iteration -/

theorem admits_clearPrefillAdmits (store : KvCacheStore acc n) (p q : Fin n) :
    ((store.clearPrefillAdmits p).partitions q).prefillAdmits =
      if q = p then [] else (store.partitions q).prefillAdmits := by
  by_cases hq : q = p
  · subst hq
    simp [clearPrefillAdmits, ResidentPartitionState.clearPrefillAdmits]
  · simp [clearPrefillAdmits, modifyPartition_of_ne _ _ hq, hq]

theorem entriesOf_clear (ht : w.store.Tracked) (s : RequestId) :
    (w.issue (.clearPrefillAdmits p)).entriesOf s = w.entriesOf s :=
  w.entriesOf_issue ht trivial (by simp [StoreOp.subject]) (by simp) (by simp)

theorem Located.clear (h : Located cfg w) (p : Fin n) :
    Located cfg (w.issue (.clearPrefillAdmits p)) := by
  have hop : StoreOp.Issuable w.store (.clearPrefillAdmits p) := trivial
  have hall := fun s => entriesOf_clear (p := p) h.tracked s
  have hadmits := fun q => admits_clearPrefillAdmits w.store p q
  have hsubset : ∀ q, ∀ s ∈ ((w.store.clearPrefillAdmits p).partitions q).prefillAdmits,
      s ∈ (w.store.partitions q).prefillAdmits := fun q s hs => by
    rw [hadmits] at hs
    split at hs
    · cases hs
    · exact hs
  refine h.still (tracked_apply h.tracked hop) hall (h.scheduled.mono (fun q => ?_) hsubset
    (fun q s _ => congrArg Entries.phase (hall s))
    (fun q s _ => congrArg (fun e => (Entries.view e).context) (hall s)) fun q c hc => hc)
  show ((w.store.clearPrefillAdmits p).partitions q).prefillAdmits.Nodup
  rw [hadmits]
  split
  · exact List.nodup_nil
  · exact h.scheduled.nodup q

theorem admits_releaseRetainingPrefix (store : KvCacheStore acc n) (r : RequestId) (p q : Fin n) :
    ((store.releaseRetainingPrefix r p).partitions q).prefillAdmits =
      (store.partitions q).prefillAdmits := by
  rw [partitions_releaseRetainingPrefix]
  by_cases hq : q = p
  · subst hq
    simp [release]
  · simp [release, modifyPartition_of_ne _ _ hq]

theorem entriesOf_releaseCompleted (ht : w.store.Tracked) (hr : w.store.phaseOf r = .resident p)
    {s : RequestId} (hs : s ≠ r) :
    (ChunkedPrefillWorker.releaseCompleted p w r).entriesOf s = w.entriesOf s := by
  have hop := issuable_releaseRetainingPrefix hr
  exact (w.entriesOf_issue ht hop (r := s) (by simpa [StoreOp.subject] using hs.symm) (by simp)
    (by simp) :)

theorem Located.finish (h : Located cfg w) (hr : w.store.phaseOf r = .resident p)
    (hclear : (w.store.partitions p).prefillAdmits = []) :
    Located cfg (ChunkedPrefillWorker.releaseCompleted p w r) := by
  have hop := issuable_releaseRetainingPrefix hr
  have hat := h.at_resident hr
  have hother : ∀ s, s ≠ r →
      (ChunkedPrefillWorker.releaseCompleted p w r).entriesOf s = w.entriesOf s :=
    fun s hs => entriesOf_releaseCompleted h.tracked hr hs
  have hadmits := fun q => admits_releaseRetainingPrefix w.store r p q
  refine h.step r (tracked_apply h.tracked hop)
    ⟨.gone, hat.waiting, hat.started, (phaseOf_apply h.tracked hop).trans (if_pos rfl), trivial,
      ?_, trivial⟩ hother
    (h.scheduled.leave hother (fun q => (hadmits q).symm ▸ h.scheduled.nodup q)
      (fun q s hs => (hadmits q) ▸ hs) (fun q hmem => ?_) fun q c hc => hc)
  · exact iff_of_false (hat.stamped fun h => by cases h) fun h => by cases h
  · have hmem' : r ∈ (w.store.partitions q).prefillAdmits := (hadmits q) ▸ hmem
    rcases h.scheduled.placed q r hmem' with hp | hp
    · rw [hr] at hp
      cases hp
    · rw [hr] at hp
      cases hp
      simp [hclear] at hmem'

end ServingSim
