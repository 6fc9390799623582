import ServingSim.Admission.PipelineMoves
import ServingSim.Admission.PrefillEnd

/-
  The chunks of a prefill, in a pipeline's head and in the worker that forms whole
  iterations.

  The head's loops are made of the moves of its books. Between steps nothing is scheduled
  that is not committed, so every state a run reaches has every request in a place.

  What is proved:
    1. `prefill_chunks_tile` — in both engines the chunks of every prefill tile it, and its
       decode starts once, after the last of them is complete.
-/

namespace ServingSim

open KeyedTotal PendingOrderPolicy KvCacheStore EndToEnd

variable {P : Type} {acc : KvAccounting} {cfg : PipelinedConfig} {r : RequestId}

/-- The requests a store's iteration prefills. -/
def headAdmits (kv : IssuedStore acc 1) : List RequestId :=
  (kv.store.partitions headPartition).prefillAdmits

theorem headAdmits_schedule (kv : IssuedStore acc 1) (r : RequestId) (tokens : Nat) :
    headAdmits (kv.issue (.schedulePrefillChunk r headPartition tokens)) = headAdmits kv ++ [r] :=
  (admits_schedulePrefillChunk kv.store r headPartition headPartition tokens).trans
    (congrArg (headAdmits kv ++ ·) (if_pos rfl))

theorem headAdmits_release (kv : IssuedStore acc 1) (r : RequestId) :
    headAdmits (kv.issue (.releaseRetainingPrefix r headPartition)) = headAdmits kv :=
  admits_releaseRetainingPrefix kv.store r headPartition headPartition

namespace Pipe

variable {s : Pipe acc}

/-! ## Started prompts -/

theorem Kept.nodup_started (h : s.Kept) : (s.started.map fun c => c.requestId).Nodup := by
  rw [List.nodup_iff_count_le_one]
  intro r
  obtain ⟨place, hat⟩ := h.places r
  have hle : (ofRequest r s.started).length ≤ 1 := by
    have haccount := hat.account
    have hnil : ∀ {e : PipeEntries}, e.NoPrefill → e.started.length ≤ 1 := by
      intro e hnone
      rw [hnone.started]
      exact Nat.zero_le 1
    cases place with
    | prefilling c =>
      obtain ⟨-, context, episode, hprogress⟩ := haccount
      refine (congrArg List.length hprogress.started).trans_le ?_
      split
      · exact Nat.le_refl 1
      · exact Nat.zero_le 1
    | unseen | queued _ | decoding | done => exact hnil haccount.2.1
  rw [List.count, List.countP_map, List.countP_eq_length_filter]
  refine le_trans (Nat.le_of_eq (congrArg List.length ?_)) hle
  exact List.filter_congr fun c _ => beq_eq_decide _ _

theorem Kept.scheduleStarted (h : s.Kept) (before : List AdmissionCandidate)
    {rest kept : List AdmissionCandidate}
    {kv' : IssuedStore acc 1} {budget left : Nat} (hadmits : s.admits = headAdmits s.kv)
    (hstarted : s.started = before ++ rest) (hfresh : ∀ c ∈ rest, c.requestId ∉ s.admits)
    (honce : (rest.map fun c => c.requestId).Nodup)
    (hrun : PipelineHeadWorker.scheduleStarted cfg rest s.kv budget = .ok (kv', left, kept)) :
    ({ s with kv := kv', admits := headAdmits kv', started := before ++ kept } :
      Pipe acc).Kept := by
  induction rest generalizing s before budget kv' left kept with
  | nil =>
    cases hrun
    rw [← hadmits, ← hstarted]
    exact h
  | cons c rest ih =>
    simp only [PipelineHeadWorker.scheduleStarted, PipelineHeadWorker.resolvedPrefillContext,
      bind_eq_ok_iff, required_eq_ok_iff] at hrun
    obtain ⟨context, hcontext, hrun⟩ := hrun
    obtain ⟨hnew, honce⟩ := List.nodup_cons.mp honce
    generalize hsize : nextChunkTokens context budget cfg.chunkEndAlignment cfg.maxBatchTokens =
      tokens at hrun
    split at hrun
    · -- one that cannot run keeps its place
      simp only [bind_eq_ok_iff] at hrun
      obtain ⟨⟨final, left', kept'⟩, hrest, hend⟩ := hrun
      simp only [pure, Except.pure, Except.ok.injEq, Prod.mk.injEq] at hend
      obtain ⟨rfl, -, rfl⟩ := hend
      have hafter := ih h (before ++ [c]) hadmits
        (by rw [hstarted, List.append_assoc]; rfl)
        (fun d hd => hfresh d (List.mem_cons_of_mem _ hd)) honce hrest
      have hkept : before ++ c :: kept' = (before ++ [c]) ++ kept' := by
        rw [List.append_assoc]
        rfl
      rw [hkept]
      exact hafter
    · next hpositive =>
      simp only [bind_eq_ok_iff] at hrun
      obtain ⟨spent, -, ⟨final, left', kept'⟩, hrest, hend⟩ := hrun
      simp only [pure, Except.pure, Except.ok.injEq, Prod.mk.injEq] at hend
      obtain ⟨rfl, -, rfl⟩ := hend
      have hfit := (nextChunkTokens_le context budget cfg.chunkEndAlignment
        cfg.maxBatchTokens).trans (Nat.min_le_left _ _)
      rw [hsize] at hfit
      have hchunk := h.chunk hstarted (hfresh c List.mem_cons_self) hcontext
        (Nat.pos_of_ne_zero hpositive) hfit
      have hafter := ih hchunk _ ((congrArg (· ++ [c.requestId]) hadmits).trans
        (headAdmits_schedule s.kv c.requestId tokens).symm) rfl (fun d hd hmem => ?_) honce hrest
      · have hkept : before ++ (if tokens < context.remainingPrefillTokens then c :: kept'
            else kept') =
            (before ++ if tokens < context.remainingPrefillTokens then [c] else []) ++ kept' := by
          rw [List.append_assoc]
          split <;> rfl
        rw [hkept]
        exact hafter
      · rcases List.mem_append.mp hmem with hmem | hmem
        · exact hfresh d (List.mem_cons_of_mem _ hd) hmem
        · refine hnew (List.mem_map.mpr ⟨d, hd, ?_⟩)
          exact List.mem_singleton.mp hmem

/-! ## Committing -/

theorem Kept.commitChunks (h : s.Kept) {chunks chunks' : List PrefillChunk}
    {kv' : IssuedStore acc 1}
    (hrun : s.admits.foldlM PipelineHeadWorker.commitChunk (s.kv, chunks) = .ok (kv', chunks')) :
    ∃ added, chunks' = chunks ++ added ∧
      ({ s with kv := kv', admits := [], chunks := s.chunks ++ added } : Pipe acc).Kept := by
  generalize hadmits : s.admits = admits at hrun
  induction admits generalizing s chunks with
  | nil =>
    cases hrun
    refine ⟨[], (List.append_nil _).symm, ?_⟩
    rw [List.append_nil, ← hadmits]
    exact h
  | cons r rest ih =>
    rw [List.foldlM_cons] at hrun
    simp only [PipelineHeadWorker.commitChunk, PipelineHeadWorker.resolvedPrefillContext,
      bind_eq_ok_iff, required_eq_ok_iff] at hrun
    obtain ⟨state, ⟨context, hcontext, after, hafter, hstate⟩, hrest⟩ := hrun
    obtain rfl := Except.ok.inj hstate
    have hview := view_completePrefillChunk s.kv.store r r
    rw [if_pos rfl, show (s.kv.store.ledger.viewOf r).context = some context from hcontext] at hview
    obtain rfl : after = context.completeChunk :=
      Option.some.inj (hafter.symm.trans (congrArg RequestView.context hview))
    obtain ⟨added, hadded, hkept⟩ := ih (h.committed hadmits hcontext) rfl hrest
    refine ⟨_, hadded.trans (List.append_assoc _ _ _), ?_⟩
    rw [← List.append_assoc]
    exact hkept

/-! ## Leaving the pipeline -/

theorem prefillTokensProcessed_retired (record : RequestRecord) :
    (DecodeCompletion.retired record 1).prefillTokensProcessed =
      record.prefillTokensProcessed := by
  have htoken : record.recordToken.prefillTokensProcessed = record.prefillTokensProcessed := by
    unfold RequestRecord.recordToken
    dsimp only
    split <;> rfl
  unfold DecodeCompletion.retired
  dsimp only
  split
  · exact htoken
  · exact htoken

theorem Kept.emitted (h : s.Kept) (finished : List RequestId) {ids : List RequestId}
    (hids : ∀ r ∈ ids, r ∈ s.decodes) :
    ({ s with
      requests := (ids.foldl PipelineHeadWorker.emitToken (s.requests, finished)).1 } :
        Pipe acc).Kept ∧
      ∃ added, (ids.foldl PipelineHeadWorker.emitToken (s.requests, finished)).2 =
        finished ++ added ∧ added.Sublist ids := by
  induction ids generalizing s finished with
  | nil => exact ⟨h, [], (List.append_nil _).symm, .slnil⟩
  | cons r ids ih =>
    have hat := h.at_decode (hids r List.mem_cons_self)
    have hseen : (s.requests r).stage ≠ none := by
      intro hnone
      cases hat.stage.mp hnone
    have hstage := (DecodeCompletion.retired_spec (s.requests r) 1).2.2 hseen
    have hnoted := h.noted (prefillTokensProcessed_retired (s.requests r))
      (iff_of_false hstage hseen)
    rw [List.foldl_cons, PipelineHeadWorker.emitToken]
    dsimp only
    split
    · obtain ⟨hkept, added, hadded, hsublist⟩ := ih hnoted (finished ++ [r])
        fun q hq => hids q (List.mem_cons_of_mem r hq)
      exact ⟨hkept, r :: added, hadded.trans (List.append_assoc _ _ _), hsublist.cons_cons r⟩
    · obtain ⟨hkept, added, hadded, hsublist⟩ := ih hnoted finished
        fun q hq => hids q (List.mem_cons_of_mem r hq)
      exact ⟨hkept, added, hadded, hsublist.cons r⟩

theorem Kept.nodup_decodes (h : s.Kept) : s.decodes.Nodup := by
  rw [List.nodup_iff_count_le_one]
  intro r
  by_cases hr : r ∈ s.decodes
  · obtain ⟨hsteps, -⟩ := (h.at_decode hr).account
    have honce : s.scheduled.count r + s.decodes.count r ≤ 1 := hsteps.once
    omega
  · rw [List.count_eq_zero.mpr hr]
    exact Nat.zero_le 1

end Pipe

namespace PipelineHeadWorker

variable {w w' : PipelineHeadWorker P acc}

section scheduleDecodes

theorem nodup_decodeMembers : w.decodeMembers.Nodup := by
  have hkeys := (w.store.partitions headPartition).decodes.keys_nodup
  simp only [decodeMembers, ResidentPartitionState.decodeMembers,
    ResidentPartitionState.iterDecoding, List.map_map]
  exact hkeys.sublist (List.filter_sublist.map _)

theorem resident_of_member (ht : w.kv.store.Tracked) (hr : r ∈ w.decodeMembers) :
    w.kv.store.phaseOf r = .resident headPartition := by
  simp only [decodeMembers, ResidentPartitionState.decodeMembers,
    ResidentPartitionState.iterDecoding, List.map_map, List.mem_map, List.mem_filter,
    Function.comp_apply] at hr
  obtain ⟨e, ⟨hmem, -⟩, rfl⟩ := hr
  have hstate : w.kv.store.decodeOf headPartition e.1 = some e.2 :=
    (SlotList.get?_eq_some_iff _ _ _).mpr hmem
  exact ((ht e.1).resident headPartition).mp
    ((w.kv.store.resident_iff_decodeOf headPartition e.1).mpr (by simp [hstate]))

theorem foldl_scheduleDecode (cfg : PipelinedConfig) (members : List RequestId)
    (state : List RequestId × Nat) :
    ∃ added, (members.foldl (w.scheduleDecode cfg) state).1 = state.1 ++ added ∧
      added.Sublist members ∧ ∀ r ∈ added, r ∉ w.inFlightDecodes := by
  induction members generalizing state with
  | nil => exact ⟨[], (List.append_nil _).symm, .slnil, fun r hr => (List.not_mem_nil hr).elim⟩
  | cons r members ih =>
    rw [List.foldl_cons]
    obtain ⟨added, hadded, hsublist, hready⟩ := ih (w.scheduleDecode cfg state r)
    rw [hadded, scheduleDecode]
    split
    · next htaken =>
      obtain ⟨-, -, hnew⟩ := htaken
      refine ⟨r :: added, List.append_assoc _ _ _, hsublist.cons_cons r, ?_⟩
      intro q hq
      rcases List.mem_cons.mp hq with rfl | hq
      · exact hnew
      · exact hready q hq
    · exact ⟨added, rfl, hsublist.cons r, hready⟩

theorem scheduleDecodes_spec (cfg : PipelinedConfig) :
    (w.scheduleDecodes cfg).1.Sublist w.decodeMembers ∧
      ∀ r ∈ (w.scheduleDecodes cfg).1, r ∉ w.inFlightDecodes := by
  obtain ⟨added, hadded, hspec⟩ :=
    foldl_scheduleDecode (w := w) cfg w.decodeMembers ([], cfg.maxBatchTokens)
  rw [List.nil_append] at hadded
  rw [scheduleDecodes, hadded]
  exact hspec

end scheduleDecodes

variable [PendingOrderPolicy P]

/-- The books of a pipeline head. -/
def pipe (w : PipelineHeadWorker P acc) : Pipe acc where
  kv := w.kv
  requests := w.requests
  waiting := candidates w.policy
  started := w.startedPrefills
  scheduled := w.scheduledDecodes
  admits := headAdmits w.kv
  chunks := w.inFlight.flatMap fun flight => flight.2.chunks
  decodes := w.inFlight.flatMap fun flight => flight.2.decodes
  inFlight := w.inFlightDecodes

/-- A head between two steps: every request is in a place and no microbatch is half formed. -/
structure Ready (w : PipelineHeadWorker P acc) : Prop where
  kept : w.pipe.Kept
  idle : headAdmits w.kv = []
  unscheduled : w.scheduledDecodes = []

/-! ## Arrival -/

theorem Ready.acceptRequest (h : Ready w) (hnew : (w.requests r).stage = none) :
    Ready (w.acceptRequest r) := by
  refine ⟨?_, h.idle, h.unscheduled⟩
  obtain ⟨candidate, hcandidate, hpolicy, hrequests⟩ : ∃ candidate : AdmissionCandidate,
      candidate.requestId = r ∧ (w.acceptRequest r).policy = push w.policy candidate ∧
        (w.acceptRequest r).requests =
          Function.update w.requests r ((w.requests r).stampStage .pending) :=
    ⟨_, rfl, rfl, rfl⟩
  subst hcandidate
  have harrived := h.kept.arrived hnew (push_perm w.policy candidate)
  rw [← hpolicy] at harrived
  exact harrived

/-! ## Forming a microbatch -/

variable {a : ChunkedPrefillWorker.Admission}

theorem gateFresh_spec {budget : Nat}
    (h : gateFresh cfg w budget = some a) :
    peek w.policy = some a.candidate ∧ a.resolvedPrefill.processedPrefillTokens = 0 ∧
      0 < a.chunkTokens ∧ a.chunkTokens ≤ a.resolvedPrefill.remainingPrefillTokens := by
  simp only [gateFresh, Option.bind_eq_bind, Option.bind_eq_some_iff, Option.guard_eq_some',
    exists_const] at h
  obtain ⟨c, hpeek, hchunk, -, h⟩ := h
  cases h
  exact ⟨hpeek, rfl, Nat.pos_of_ne_zero hchunk, (nextChunkTokens_le ..).trans (Nat.min_le_left _ _)⟩

theorem admitFresh_spec (h : w.admitFresh a = .ok w') :
    ∃ record : RequestRecord, record.prefillTokensProcessed =
        (w.requests a.candidate.requestId).prefillTokensProcessed ∧
      record.stage ≠ none ∧
      w' = { w with
        kv := (w.kv.issue (.reserveChunkedPrefillContext a.candidate.requestId headPartition
          a.resolvedPrefill a.footprint)).issue
            (.schedulePrefillChunk a.candidate.requestId headPartition a.chunkTokens)
        requests := Function.update w.requests a.candidate.requestId record
        policy := pop w.policy
        startedPrefills := w.startedPrefills ++
          if a.chunkTokens < a.resolvedPrefill.remainingPrefillTokens then [a.candidate]
          else [] } := by
  simp only [admitFresh, bind_eq_ok_iff] at h
  obtain ⟨record, hrecord, h⟩ := h
  obtain rfl := Except.ok.inj h
  refine ⟨record.stampStage .prefill, ?_, ?_, ?_⟩
  · rw [RequestRecord.recordPrefixCacheHitTokens_spec hrecord]
    rfl
  · intro hnone
    cases hnone
  · split
    · rfl
    · rw [List.append_nil]
      rfl

theorem admitFresh_kept {budget : Nat} (h : w.pipe.Kept)
    (hgate : gateFresh cfg w budget = some a) (hentered : w.admitFresh a = .ok w') :
    w'.pipe.Kept := by
  obtain ⟨hpeek, hnew, hpositive, hfit⟩ := gateFresh_spec hgate
  obtain ⟨record, hprocessed, hstage, rfl⟩ := admitFresh_spec hentered
  have hadmitted := h.admitted a.footprint (pop_perm w.policy a.candidate hpeek) hnew
    hpositive hfit hprocessed hstage
  have hreserved : headAdmits (w.kv.issue (.reserveChunkedPrefillContext a.candidate.requestId
      headPartition a.resolvedPrefill a.footprint)) = headAdmits w.kv :=
    congrArg (fun partitions : Fin 1 → ResidentPartitionState acc =>
      (partitions headPartition).prefillAdmits)
      (w.kv.store.partitions_reserveChunkedPrefillContext ..)
  have hadmits : headAdmits ((w.kv.issue (.reserveChunkedPrefillContext a.candidate.requestId
      headPartition a.resolvedPrefill a.footprint)).issue
        (.schedulePrefillChunk a.candidate.requestId headPartition a.chunkTokens)) =
      headAdmits w.kv ++ [a.candidate.requestId] :=
    (headAdmits_schedule _ a.candidate.requestId a.chunkTokens).trans
      (congrArg (· ++ [a.candidate.requestId]) hreserved)
  rw [pipe]
  rw [hadmits]
  exact hadmitted

theorem refreshPolicy_kept (h : w.pipe.Kept) : w.refreshPolicy.pipe.Kept :=
  h.reordered (refreshHead_perm w.policy _)

theorem admitFreshPrompts_kept {fuel budget : Nat} (h : w.pipe.Kept)
    (hrun : admitFreshPrompts cfg fuel w budget = .ok w') :
    w'.pipe.Kept ∧ w'.scheduledDecodes = w.scheduledDecodes := by
  induction fuel generalizing w budget with
  | zero =>
    obtain rfl := Except.ok.inj hrun
    exact ⟨h, rfl⟩
  | succ fuel ih =>
    rw [admitFreshPrompts] at hrun
    split at hrun
    · split at hrun
      · obtain rfl := Except.ok.inj hrun
        exact ⟨refreshPolicy_kept h, rfl⟩
      · next a hgate =>
        simp only [bind_eq_ok_iff] at hrun
        obtain ⟨admitted, hentered, left, -, hrest⟩ := hrun
        obtain ⟨hkept, hscheduled⟩ :=
          ih (admitFresh_kept (refreshPolicy_kept h) hgate hentered) hrest
        obtain ⟨record, -, -, rfl⟩ := admitFresh_spec hentered
        exact ⟨hkept, hscheduled⟩
    · obtain rfl := Except.ok.inj hrun
      exact ⟨h, rfl⟩

theorem Ready.formMicrobatch {hasBatch : Bool} (h : Ready w)
    (hform : w.formMicrobatch cfg = .ok (w', hasBatch)) :
    w'.pipe.Kept ∧ (hasBatch = false → Ready w') := by
  simp only [PipelineHeadWorker.formMicrobatch, bind_eq_ok_iff] at hform
  obtain ⟨⟨kv, left, kept⟩, hstarted, formed, hfresh, hform⟩ := hform
  simp only [pure, Except.pure, Except.ok.injEq, Prod.mk.injEq] at hform
  obtain ⟨rfl, rfl⟩ := hform
  obtain ⟨hsublist, hready⟩ := scheduleDecodes_spec (w := w) cfg
  have hselected := h.kept.selected (hsublist.nodup nodup_decodeMembers)
    (fun r hr => resident_of_member h.kept.tracked (hsublist.subset hr)) hready
  have hnone : ∀ c ∈ w.startedPrefills, c.requestId ∉ headAdmits w.kv := by
    intro c _
    rw [h.idle]
    exact List.not_mem_nil
  have hscheduled := hselected.scheduleStarted [] rfl rfl hnone
    h.kept.nodup_started hstarted
  obtain ⟨hkept, hdecodes⟩ := admitFreshPrompts_kept (w := { w with
    kv := kv, startedPrefills := kept, scheduledDecodes := (w.scheduleDecodes cfg).1 })
    hscheduled hfresh
  refine ⟨hkept, ?_⟩
  intro hempty
  rw [Bool.or_eq_false_iff, Bool.not_eq_false', Bool.not_eq_false', List.isEmpty_iff,
    List.isEmpty_iff] at hempty
  exact ⟨hkept, hempty.1, hdecodes.trans hempty.2⟩

theorem launchMicrobatch_ready (h : w.pipe.Kept) (hlaunch : w.launchMicrobatch = .ok w') :
    Ready w' := by
  simp only [launchMicrobatch, commitMicrobatch, bind_eq_ok_iff] at hlaunch
  obtain ⟨⟨committed, ticket⟩, ⟨⟨kv, chunks⟩, hchunks, hcommitted⟩, hlaunch⟩ := hlaunch
  simp only [pure, Except.pure, Except.ok.injEq, Prod.mk.injEq] at hcommitted
  obtain ⟨rfl, rfl⟩ := hcommitted
  obtain rfl := Except.ok.inj hlaunch
  obtain ⟨added, hadded, hkept⟩ := h.commitChunks hchunks
  rw [List.nil_append] at hadded
  subst hadded
  have hidle : headAdmits (kv.issue (.clearPrefillAdmits headPartition)) = [] :=
    (admits_clearPrefillAdmits kv.store headPartition headPartition).trans (if_pos rfl)
  refine ⟨?_, hidle, rfl⟩
  have hcleared := hkept.committedDecodes.cleared
  rw [pipe]
  simp only [List.flatMap_append, List.flatMap_singleton]
  rw [hidle]
  exact hcleared

/-! ## Completing a microbatch -/

/-- The books of a head that a microbatch is leaving. -/
def leaving (w : PipelineHeadWorker P acc) (chunks : List PrefillChunk)
    (decodes : List RequestId) : Pipe acc :=
  { w.pipe with chunks := chunks ++ w.pipe.chunks, decodes := decodes ++ w.pipe.decodes }

/-- A head whose oldest microbatch leaves, its decodes through. -/
structure Leaves (w : PipelineHeadWorker P acc) (chunks : List PrefillChunk) : Prop where
  kept : (w.leaving chunks []).Kept
  idle : headAdmits w.kv = []
  unscheduled : w.scheduledDecodes = []

theorem Leaves.ready (h : Leaves w []) : Ready w := ⟨h.kept, h.idle, h.unscheduled⟩

theorem Leaves.released {chunks : List PrefillChunk} (h : Leaves w chunks)
    (hresident : w.kv.store.phaseOf r = .resident headPartition)
    (hdecodes : r ∉ w.pipe.decodes) :
    Leaves (w.issue (.releaseRetainingPrefix r headPartition)) chunks := by
  have hadmits := headAdmits_release w.kv r
  have hscheduled : r ∉ w.scheduledDecodes := by
    rw [h.unscheduled]
    exact List.not_mem_nil
  have hreleased := h.kept.released hresident hscheduled hdecodes
  refine ⟨?_, hadmits.trans h.idle, h.unscheduled⟩
  rw [leaving, pipe]
  rw [show headAdmits (w.issue (.releaseRetainingPrefix r headPartition)).kv = headAdmits w.kv
    from hadmits]
  exact hreleased

theorem Leaves.releasedAll {chunks : List PrefillChunk} (h : Leaves w chunks) {ids : List RequestId}
    (honce : ids.Nodup) (hresident : ∀ r ∈ ids, w.kv.store.phaseOf r = .resident headPartition)
    (hdecodes : ∀ r ∈ ids, r ∉ w.pipe.decodes) :
    Leaves (ids.foldl (fun w r => w.issue (.releaseRetainingPrefix r headPartition)) w) chunks := by
  induction ids generalizing w with
  | nil => exact h
  | cons r ids ih =>
    obtain ⟨hr, honce⟩ := List.nodup_cons.mp honce
    have hop := issuable_releaseRetainingPrefix (hresident r List.mem_cons_self)
    refine ih (h.released (hresident r List.mem_cons_self) (hdecodes r List.mem_cons_self)) honce
      ?_ fun q hq => hdecodes q (List.mem_cons_of_mem r hq)
    intro q hq
    refine (phaseOf_apply h.kept.tracked hop).trans ?_
    refine (if_neg ?_).trans (hresident q (List.mem_cons_of_mem r hq))
    rintro rfl
    exact hr hq

theorem Leaves.prefillEnded {chunk : PrefillChunk} {chunks : List PrefillChunk}
    {record : RequestRecord} (h : Leaves w (chunk :: chunks)) (remaining : Nat)
    (hfinishes : chunk.finishesPrefill = true)
    (hprocessed : record.prefillTokensProcessed =
      (w.requests chunk.request).prefillTokensProcessed + chunk.chunkTokens)
    (hstage : record.stage ≠ none) :
    let resident := { w with requests := Function.update w.requests chunk.request record }.issue
      (.finishChunkedPrefill chunk.request headPartition remaining)
    Leaves resident chunks ∧ resident.kv.store.phaseOf chunk.request = .resident headPartition ∧
      chunk.request ∉ resident.pipe.decodes := by
  intro resident
  obtain ⟨c, hat⟩ := h.kept.at_chunk List.mem_cons_self
  have hop : StoreOp.Issuable w.kv.store
      (.finishChunkedPrefill chunk.request headPartition remaining) := hat.phase
  have hadmits : headAdmits resident.kv = headAdmits w.kv :=
    admits_finish w.kv.store chunk.request headPartition headPartition remaining
  have hnotAdmit : chunk.request ∉ headAdmits w.kv := by
    rw [h.idle]
    exact List.not_mem_nil
  have hended := h.kept.prefillEnded remaining rfl hfinishes hnotAdmit hprocessed hstage
  obtain ⟨hdecode, -⟩ := hat.account
  refine ⟨⟨?_, hadmits.trans h.idle, h.unscheduled⟩,
    (phaseOf_apply h.kept.tracked hop).trans (if_pos rfl),
    List.count_eq_zero.mp hdecode.decodes⟩
  rw [leaving, pipe, hadmits]
  exact hended

theorem Leaves.completeChunk {chunk : PrefillChunk} {chunks : List PrefillChunk}
    (h : Leaves w (chunk :: chunks)) (completed : List RequestId) :
    Leaves (PipelineHeadWorker.completeChunk (w, completed) chunk).1 chunks := by
  unfold PipelineHeadWorker.completeChunk
  dsimp only
  split
  · next hfinishes =>
    generalize hstamped : RequestRecord.stampStage _ _ = stamped
    have hprocessed : stamped.prefillTokensProcessed =
        (w.requests chunk.request).prefillTokensProcessed + chunk.chunkTokens := by
      rw [← hstamped]
      rfl
    have hstage : stamped.stage ≠ none := by
      rw [← hstamped]
      exact Option.some_ne_none _
    obtain ⟨hleaves, hresident, hdecodes⟩ :=
      h.prefillEnded stamped.remainingOutputTokens hfinishes hprocessed hstage
    split
    · exact hleaves.released hresident hdecodes
    · exact hleaves
  · next hfinishes =>
    rw [Bool.not_eq_true] at hfinishes
    exact ⟨h.kept.chunkExited rfl hfinishes rfl rfl, h.idle, h.unscheduled⟩

theorem Leaves.completeChunks {chunks : List PrefillChunk} (h : Leaves w chunks)
    (completed : List RequestId) :
    Ready (chunks.foldl PipelineHeadWorker.completeChunk (w, completed)).1 := by
  induction chunks generalizing w completed with
  | nil => exact h.ready
  | cons chunk chunks ih =>
    rw [List.foldl_cons]
    exact ih (h.completeChunk completed) _

theorem completeMicrobatch_ready {ticket : MicrobatchTicket}
    (h : (w.leaving ticket.chunks ticket.decodes).Kept) (hidle : headAdmits w.kv = [])
    (hunscheduled : w.scheduledDecodes = []) : Ready (w.completeMicrobatch ticket).1 := by
  have hflying : ∀ r ∈ ticket.decodes, r ∈ (w.leaving ticket.chunks ticket.decodes).decodes :=
    fun r hr => List.mem_append_left _ hr
  have hresident : ∀ r ∈ ticket.decodes, w.kv.store.phaseOf r = .resident headPartition :=
    fun r hr => (h.at_decode (hflying r hr)).phase
  obtain ⟨honce, -, hdisjoint⟩ := List.nodup_append'.mp h.nodup_decodes
  obtain ⟨hemitted, added, hadded, hsublist⟩ := h.emitted [] hflying
  unfold completeMicrobatch
  generalize hrun : ticket.decodes.foldl emitToken (w.requests, []) = emitted
  obtain ⟨requests, finished⟩ := emitted
  obtain rfl : finished = added := (congrArg Prod.snd hrun).symm.trans hadded
  have hrequests : (ticket.decodes.foldl emitToken (w.requests, [])).1 = requests :=
    congrArg Prod.fst hrun
  generalize hadvanced : (if ticket.decodes.isEmpty = true then w
    else w.issue (.advance (.requestSubset headPartition ticket.decodes) 1)) = advanced
  obtain ⟨kv, rfl, hgrown, hadmits, hgrownResident⟩ : ∃ kv, advanced = { w with kv := kv } ∧
      ({ w.leaving ticket.chunks ticket.decodes with kv := kv, requests := requests } :
        Pipe acc).Kept ∧ headAdmits kv = [] ∧
      ∀ r ∈ ticket.decodes, kv.store.phaseOf r = .resident headPartition := by
    rw [← hrequests]
    split at hadvanced
    · exact ⟨w.kv, hadvanced.symm, hemitted, hidle, hresident⟩
    · refine ⟨_, hadvanced.symm, hemitted.advanced hresident, ?_, ?_⟩
      · refine Eq.trans ?_ hidle
        exact admits_advance_eq w.kv.store (.requestSubset headPartition ticket.decodes) 1
          headPartition
      · intro r hr
        exact (phaseOf_apply h.tracked (h.issuable_advance hresident)).trans (hresident r hr)
  have hleaves : Leaves { w with
      kv := kv
      requests := requests
      inFlightDecodes := w.inFlightDecodes \ ticket.decodes.toFinset } ticket.chunks := by
    refine ⟨?_, hadmits, hunscheduled⟩
    rw [leaving, pipe, hadmits.trans hidle.symm]
    exact hgrown.returned rfl
  refine Leaves.completeChunks (hleaves.releasedAll (hsublist.nodup honce) ?_ ?_) finished
  · intro r hr
    exact hgrownResident r (hsublist.subset hr)
  · intro r hr
    exact hdisjoint (hsublist.subset hr)

/-! ## The shell's steps -/

theorem Ready.completeExit (h : Ready w) {microbatch : Nat}
    (hstep : w.completeExit microbatch = .ok w') : Ready w' := by
  unfold PipelineHeadWorker.completeExit at hstep
  split at hstep
  · cases hstep
  · next oldest ticket younger hinFlight =>
    simp only [bind_eq_ok_iff] at hstep
    obtain ⟨-, -, hstep⟩ := hstep
    obtain rfl := Except.ok.inj hstep
    have hkept := h.kept
    rw [pipe, hinFlight] at hkept
    exact completeMicrobatch_ready hkept h.idle h.unscheduled

theorem Ready.completeExits {exits : List Nat} (h : Ready w)
    (hrun : exits.foldlM PipelineHeadWorker.completeExit w = .ok w') : Ready w' := by
  induction exits generalizing w with
  | nil =>
    obtain rfl := Except.ok.inj hrun
    exact h
  | cons microbatch exits ih =>
    rw [List.foldlM_cons, bind_eq_ok_iff] at hrun
    obtain ⟨next, hexit, hrest⟩ := hrun
    exact ih (h.completeExit hexit) hrest

theorem Ready.step {op : PipelineOp} (h : Ready w) (hop : op.Enabled cfg w)
    (hstep : op.step cfg w = .ok w') : Ready w' := by
  cases op with
  | request r =>
    obtain rfl := Except.ok.inj hstep
    exact h.acceptRequest hop
  | microbatchExit microbatch =>
    obtain rfl := Except.ok.inj hstep
    exact ⟨h.kept, h.idle, h.unscheduled⟩
  | completeExited =>
    have hready : Ready { w with exits := [] } := ⟨h.kept, h.idle, h.unscheduled⟩
    exact hready.completeExits hstep
  | computed =>
    obtain rfl := Except.ok.inj hstep
    exact ⟨h.kept, h.idle, h.unscheduled⟩
  | form =>
    simp only [PipelineOp.step, bind_eq_ok_iff] at hstep
    obtain ⟨⟨formed, hasBatch⟩, hform, hstep⟩ := hstep
    obtain ⟨hkept, hempty⟩ := h.formMicrobatch hform
    cases hasBatch with
    | false =>
      obtain rfl := Except.ok.inj hstep
      exact hempty rfl
    | true => exact launchMicrobatch_ready hkept hstep

theorem ready_new (budget : PrefixCacheBudget) {requests : Requests} {policy : P}
    (hrequests : ∀ r, (requests r).Fresh) (hpolicy : candidates policy = []) :
    Ready (new budget requests policy : PipelineHeadWorker P acc) := by
  refine ⟨⟨tracked_new budget, ?_⟩, rfl, rfl⟩
  intro r
  have hprocessed : (requests r).prefillTokensProcessed = 0 := by
    rw [hrequests r]
    rfl
  refine ⟨.unseen, ⟨iff_of_true (hrequests r).stage rfl, ?_, rfl, ⟨rfl, rfl, ?_⟩, ⟨rfl, rfl, rfl⟩,
    rfl, hprocessed⟩⟩
  · show ofRequest r (candidates policy) = []
    rw [hpolicy]
    rfl
  · exact decide_eq_false (Finset.notMem_empty r)

end PipelineHeadWorker

/-- A state that a run of the shell leads to, from a new head that holds no request. -/
structure PipelineReached [PendingOrderPolicy P] (cfg : PipelinedConfig)
    (w : PipelineHeadWorker P acc) : Prop where
  run : ∃ (budget : PrefixCacheBudget) (requests : Requests) (policy : P) (ops : List PipelineOp),
    (∀ r, (requests r).Fresh) ∧ candidates policy = [] ∧
    Run.TryAllowed (PipelineOp.step cfg) (fun w op => op.Enabled cfg w)
      (PipelineHeadWorker.new budget requests policy : PipelineHeadWorker P acc) ops ∧
    Run.tryRun (PipelineOp.step cfg) (PipelineHeadWorker.new budget requests policy) ops = .ok w

variable [PendingOrderPolicy P] {w : PipelineHeadWorker P acc}

theorem PipelineReached.ready (h : PipelineReached cfg w) : w.Ready := by
  obtain ⟨budget, requests, policy, ops, hrequests, hpolicy, hallowed, hrun⟩ := h.run
  exact Run.tryInvariant PipelineHeadWorker.Ready (fun w op w' hw hop hstep => hw.step hop hstep)
    (PipelineHeadWorker.ready_new budget hrequests hpolicy) hallowed hrun

/-! ## Tiling -/

/-- The chunks of an episode tile its prefill. -/
structure TilesPrefill (e : PrefillEpisode) : Prop where
  /-- The first chunk starts at the resident hit, each next one where the one before ended. -/
  contiguous : LaidFrom e.resident e.chunks
  /-- In order and disjoint. -/
  ordered : e.chunks.Pairwise fun a b => a.1 + a.2 ≤ b.1
  within : ∀ chunk ∈ e.chunks, e.resident ≤ chunk.1 ∧ chunk.1 + chunk.2 ≤ e.resident + e.toCompute
  /-- A decode starts once, when all tokens to compute are complete. -/
  decodes : e.decodes = [] ∨ e.decodes = [e.toCompute]
  /-- By then the chunks end at the prefill's end and sum to what was to compute. -/
  whole : e.decodes ≠ [] → total e.chunks = e.toCompute ∧
    ∀ point, e.resident ≤ point → point < e.resident + e.toCompute →
      ∃ chunk ∈ e.chunks, chunk.1 ≤ point ∧ point < chunk.1 + chunk.2

theorem Tiling.tilesPrefill {e : PrefillEpisode} (h : Tiling e) : TilesPrefill e := by
  have hwithin := h.within
  have hcompleted := h.completed
  refine ⟨h.laid, h.laid.ordered, ?_, h.decodes.imp_right And.left, ?_⟩
  · intro chunk hchunk
    have hin := h.laid.within chunk hchunk
    omega
  · intro hstarted
    have hend : e.completed = e.toCompute := (h.decodes.resolve_left hstarted).2
    have htotal : total e.chunks = e.toCompute := by omega
    refine ⟨htotal, ?_⟩
    intro point hfrom hto
    exact h.laid.covers hfrom (htotal ▸ hto)

/-- The chunks of every prefill tile it, in an engine that completes its iterations one by
one and in a pipeline with several microbatches in flight. A prefill of the first decodes as
soon as its chunks are complete; one of the second is the only one of its request, and
decodes as soon as its chunks have left the pipeline. -/
theorem prefill_chunks_tile {n : Nat} {config : ChunkedPrefillConfig n}
    {v : ChunkedPrefillWorker P acc n} (r : RequestId) :
    (Reached config v → ∀ e ∈ v.kv.episodes r,
      TilesPrefill e ∧ (e.decodes = [e.toCompute] ↔ e.completed = e.toCompute)) ∧
    (PipelineReached cfg w → ∀ e ∈ w.kv.episodes r, w.kv.episodes r = [e] ∧
      TilesPrefill e ∧ (e.decodes = [e.toCompute] ↔
        (w.requests r).prefillTokensProcessed = e.toCompute)) := by
  refine ⟨?_, ?_⟩
  · intro hreached e he
    have hsettles := hreached.paced.2.tiled r
    have htiling := hsettles.recorded.tiling e he
    refine ⟨htiling.tilesPrefill, ?_⟩
    rcases htiling.decodes with hnone | ⟨hdecodes, hend⟩
    · have hleft := hsettles.unfinished e he hnone
      refine iff_of_false ?_ hleft.ne
      rw [hnone]
      exact (List.cons_ne_nil _ _).symm
    · exact iff_of_true hdecodes hend
  · intro hreached e he
    obtain ⟨place, hat⟩ := hreached.ready.kept.places r
    have haccount := hat.account
    have hepisodes : (w.pipe.entriesOf r).episodes = w.kv.episodes r := rfl
    have hrecord : (w.pipe.entriesOf r).record = w.requests r := rfl
    cases place with
    | unseen | queued c =>
      obtain ⟨-, -, hempty, -⟩ := haccount
      rw [← hepisodes, hempty] at he
      cases he
    | prefilling c =>
      obtain ⟨-, context, episode, hprogress⟩ := haccount
      rw [← hepisodes, hprogress.episodes] at he ⊢
      obtain rfl := List.mem_singleton.mp he
      refine ⟨rfl, hprogress.tiling.tilesPrefill, iff_of_false ?_ ?_⟩
      · rw [hprogress.current.decodes]
        exact (List.cons_ne_nil _ _).symm
      · rw [← hrecord, hprogress.current.toCompute]
        exact hprogress.ahead.ne
    | decoding | done =>
      obtain ⟨-, -, episode, hsingle, htiling, hdecodes, hended⟩ := haccount
      rw [← hepisodes, hsingle] at he ⊢
      obtain rfl := List.mem_singleton.mp he
      exact ⟨rfl, htiling.tilesPrefill, iff_of_true hdecodes hended⟩

theorem fourTokenBlock_pos : ∀ alignment ∈ some (ChunkEndAlignment.mk 4 false),
    alignment.quantum > 0 := by
  intro alignment halignment
  cases halignment
  decide

theorem tenTokens_pos : 10 > 0 := by decide

theorem threeMicrobatches_pos : 3 > 0 := by decide

theorem depthThree_pos : ∀ depth ∈ some 3, depth > 0 := by
  intro depth hdepth
  cases hdepth
  decide

/-- Three microbatches of ten tokens, chunks that end where a block of four does. -/
def tenTokenPipeline : PipelinedConfig where
  maxBatchTokens := 10
  chunkEndAlignment := some ⟨4, false⟩
  balancedDepth := some 3
  depth := 3
  maxBatchTokens_pos := tenTokens_pos
  quantum_pos := fourTokenBlock_pos
  balancedDepth_pos := depthThree_pos
  depth_pos := threeMicrobatches_pos

/-- Prompts of nineteen tokens behind a prefix of five that is always resident. -/
def pinnedPrompts : Requests := fun r => RequestRecord.fromRequest r 0 19 2 (.pinnedPrefix 5)

/-- A prompt in three chunks, in three iterations and in three microbatches in flight. -/
theorem prefill_chunks_tile_three : ∃ (v : ChunkedPrefillWorker PendingOrder hundredTokens 1)
      (w : PipelineHeadWorker PendingOrder hundredTokens),
      v.kv.episodes 1 = [⟨5, 19, [(5, 9), (14, 9), (23, 1)], 19, [19]⟩] ∧
      TilesPrefill ⟨5, 19, [(5, 9), (14, 9), (23, 1)], 19, [19]⟩ ∧
      w.kv.episodes 1 = [⟨5, 19, [(5, 3), (8, 8), (16, 8)], 19, [19]⟩] ∧
      TilesPrefill ⟨5, 19, [(5, 3), (8, 8), (16, 8)], 19, [19]⟩ ∧
      (w.requests 1).prefillTokensProcessed = 19 := by
  have hiterations : ∃ v : ChunkedPrefillWorker PendingOrder hundredTokens 1,
      Run.tryRun (WorkerOp.step tenTokenCap)
        (ChunkedPrefillWorker.new tenTokenCap .disabled pinnedPrompts (fun _ => .new .fifo) .single)
        [.enqueue 1, .formBatch, .completeIteration, .formBatch, .completeIteration, .formBatch,
          .completeIteration] = .ok v ∧
      decide (v.kv.episodes 1 = [⟨5, 19, [(5, 9), (14, 9), (23, 1)], 19, [19]⟩]) = true :=
    exists_ok_of_check (by decide +kernel)
  have hmicrobatches : ∃ w : PipelineHeadWorker PendingOrder hundredTokens,
      Run.tryRun (PipelineOp.step tenTokenPipeline)
        (PipelineHeadWorker.new .disabled pinnedPrompts (.new .fifo))
        [.request 1, .form, .computed, .form, .computed, .form, .microbatchExit 1,
          .microbatchExit 2, .microbatchExit 3, .completeExited] = .ok w ∧
      decide (w.kv.episodes 1 = [⟨5, 19, [(5, 3), (8, 8), (16, 8)], 19, [19]⟩]) = true :=
    exists_ok_of_check (by decide +kernel)
  obtain ⟨v, hrun, hepisodes⟩ := hiterations
  obtain ⟨w, hrun', hepisodes'⟩ := hmicrobatches
  replace hepisodes := of_decide_eq_true hepisodes
  replace hepisodes' := of_decide_eq_true hepisodes'
  have hreached : Reached tenTokenCap v :=
    ⟨.disabled, pinnedPrompts, fun _ => .new .fifo, .single, _, fun _ => rfl, fun _ => rfl,
      by decide +kernel, hrun⟩
  have hreached' : PipelineReached tenTokenPipeline w :=
    ⟨.disabled, pinnedPrompts, .new .fifo, _, fun _ => rfl, rfl, by decide +kernel, hrun'⟩
  obtain ⟨hsingle, hpipelined⟩ :
      (Reached tenTokenCap v → _) ∧ (PipelineReached tenTokenPipeline w → _) :=
    prefill_chunks_tile 1
  obtain ⟨htiles, -⟩ := hsingle hreached _ (hepisodes ▸ List.mem_cons_self)
  obtain ⟨-, htiles', hdecodes⟩ := hpipelined hreached' _ (hepisodes' ▸ List.mem_cons_self)
  exact ⟨v, w, hepisodes, htiles, hepisodes', htiles', hdecodes.mp rfl⟩

end ServingSim
