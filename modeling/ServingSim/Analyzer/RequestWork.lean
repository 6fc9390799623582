import ServingSim.Admission.TokenConservation
import ServingSim.Analyzer.Workload

/-
  What the check reads of one request's record, and what each step of the lifecycle adds
  to it (`sim::run::slo_entry`, `conservation::workload::collect_expected`).
-/

namespace ServingSim

open ChunkedPrefillWorker

def ReprocessedPrefillEpisode.workInput (episode : ReprocessedPrefillEpisode) :
    ReprocessedPrefillWorkInput where
  outputTokensBefore := episode.outputTokensBefore
  prefixCacheHitTokens := episode.prefixCacheHitTokens
  prefillTokensProcessed := episode.prefillTokensProcessed
  completed := episode.completed

namespace RequestRecord

def sloInput (record : RequestRecord) : RequestSloWorkInput where
  completed := record.completed
  freshPromptTokens := record.promptTokens
  declaredPrefixTokens := record.session.declaredPrefixTokens
  prefixCacheHitTokens := record.prefixCacheHitTokens.map fun hit : Nat => (hit : ℚ)
  prefillTokensProcessed := record.prefillTokensProcessed
  numOutputTokens := record.outputTokensEmitted
  reprocessedPrefills := record.reprocessedPrefills.map ReprocessedPrefillEpisode.workInput

/-- The closed form of what the request has computed. -/
def work (record : RequestRecord) : Work := record.sloInput.work

/-- How many of its re-prefills are over. -/
def recomputed (record : RequestRecord) : Nat :=
  (record.reprocessedPrefills.filter fun episode => episode.completed).length

theorem completedReprocessed_sloInput (record : RequestRecord) :
    record.sloInput.completedReprocessed = record.recomputed := by
  rw [RequestSloWorkInput.completedReprocessed, recomputed]
  simp only [sloInput, List.filter_map, List.length_map]
  rfl

end RequestRecord

/-- Records with the same counts, hit and episodes. -/
structure SameWork (record record' : RequestRecord) : Prop where
  definition : record'.definition = record.definition
  emitted : record'.outputTokensEmitted = record.outputTokensEmitted
  processed : record'.prefillTokensProcessed = record.prefillTokensProcessed
  hit : record'.prefixCacheHitTokens = record.prefixCacheHitTokens
  completed : record'.completed = record.completed
  episodes : record'.reprocessedPrefills = record.reprocessedPrefills

/-- What the counts of a record say about each other: a re-prefill and a filled context come
after the first token, and every re-prefill that is over stands for one token. -/
structure WorkRecorded (record : RequestRecord) : Prop where
  unstarted : record.outputTokensEmitted = 0 → record.reprocessedPrefills = []
  computed : 0 < record.outputTokensEmitted → ∃ hit, record.prefixCacheHitTokens = some hit ∧
    hit + record.prefillTokensProcessed = record.promptTokens + record.session.declaredPrefixTokens
  replaced : 0 < record.outputTokensEmitted → record.recomputed + 1 ≤ record.outputTokensEmitted
  finished : record.completed = true →
    0 < record.outputTokensEmitted ∧ record.targetOutputTokens ≤ record.outputTokensEmitted

/-- A first prefill under way: the record counts what its context does. -/
structure FirstPrefill (record : RequestRecord) (context : ResolvedPrefillContext) : Prop where
  hit : record.prefixCacheHitTokens = some context.residentPrefixTokens
  processed : record.prefillTokensProcessed = context.processedPrefillTokens

section records

variable {record record' : RequestRecord} {context : ResolvedPrefillContext}

theorem SameWork.work (h : SameWork record record') : record'.work = record.work := by
  apply RequestSloWorkInput.work_congr
  · simp only [RequestSloWorkInput.hitTokens, RequestRecord.sloInput, h.hit]
  · simp only [RequestRecord.sloInput, h.processed]
  · simp only [RequestRecord.sloInput, h.emitted]
  · simp only [RequestRecord.sloInput, h.episodes]

theorem SameWork.recorded (h : SameWork record record') (hr : WorkRecorded record) :
    WorkRecorded record' := by
  obtain ⟨hprompt, htarget, hsession⟩ := RequestRecord.prompt_of_definition h.definition
  constructor
  · rw [h.emitted, h.episodes]
    exact hr.unstarted
  · rw [h.emitted, h.hit, h.processed, hprompt, hsession]
    exact hr.computed
  · rw [h.emitted, RequestRecord.recomputed, h.episodes]
    exact hr.replaced
  · rw [h.completed, h.emitted, htarget]
    exact hr.finished

theorem RequestRecord.Fresh.recorded (h : record.Fresh) : WorkRecorded record := by
  rw [h]
  exact ⟨fun _ => rfl, nofun, nofun, nofun⟩

theorem RequestRecord.Fresh.work_eq (h : record.Fresh) : record.work = 0 := by
  have hnone : record.sloInput.reprocessedPrefills = [] := by
    rw [h]
    rfl
  have hemitted : record.sloInput.numOutputTokens ≤ 1 := by
    rw [h]
    simp [RequestRecord.sloInput, RequestRecord.fromRequest]
  have hzero : record.sloInput.prefillTokensProcessed = 0 := by
    rw [h]
    simp [RequestRecord.sloInput, RequestRecord.fromRequest]
  obtain ⟨hpasses, hkv, hprefill, hcausal⟩ := RequestSloWorkInput.work_of_prefill hemitted hnone
  funext quantity
  cases quantity with
  | prefillTokens => exact hprefill.trans hzero
  | decodePasses => exact hpasses
  | batchTokens => simp [RequestRecord.work, RequestSloWorkInput.work, hprefill, hzero, hpasses]
  | decodeKv => exact hkv
  | causal =>
    simp [RequestRecord.work, RequestSloWorkInput.work, hcausal, hzero, triangular]

/-! ## Admission -/

theorem WorkRecorded.admitted (h : WorkRecorded record) {a : Admission}
    (hadmitted : admittedRecord a record = .ok record')
    (hfirst : a.candidate.retracted = false →
      record.outputTokensEmitted = 0 ∧ record.prefillTokensProcessed = 0)
    (hagain : a.candidate.retracted = true → 0 < record.outputTokensEmitted) :
    WorkRecorded record' ∧ record'.work = record.work ∧ (a.candidate.retracted = false →
        record'.prefixCacheHitTokens = some a.resolvedPrefill.residentPrefixTokens ∧
        record'.prefillTokensProcessed = 0) := by
  unfold admittedRecord at hadmitted
  split at hadmitted
  · next hretracted =>
    have hpositive := hagain hretracted
    obtain rfl := RequestRecord.beginReprocessedPrefill_spec hadmitted
    refine ⟨⟨fun hzero => ?_, h.computed, ?_, h.finished⟩, ?_, fun hfresh => ?_⟩
    · have hzero' : record.outputTokensEmitted = 0 := hzero
      omega
    · simpa [RequestRecord.recomputed, RequestRecord.markAdmitted] using h.replaced
    · -- an episode that has computed nothing costs nothing
      funext quantity
      cases quantity with
      | prefillTokens | decodePasses | batchTokens | decodeKv | causal =>
        simp [RequestRecord.work, RequestSloWorkInput.work, RequestSloWorkInput.prefillTokens,
          RequestSloWorkInput.decodePasses, RequestSloWorkInput.completedReprocessed,
          RequestSloWorkInput.decodeKv, RequestSloWorkInput.causal, RequestRecord.sloInput,
          RequestSloWorkInput.logicalContextTokens, RequestSloWorkInput.hitTokens,
          RequestSloWorkInput.replacedKv, RequestSloWorkInput.episodeCausal, triangular,
          ReprocessedPrefillEpisode.workInput, RequestRecord.markAdmitted, Function.comp_def]
    · rw [hretracted] at hfresh
      cases hfresh
  · next hretracted =>
    obtain ⟨hzero, hnone⟩ := hfirst (Bool.eq_false_iff.mpr hretracted)
    obtain rfl := RequestRecord.recordPrefixCacheHitTokens_spec hadmitted
    have hepisodes := h.unstarted hzero
    refine ⟨⟨h.unstarted, fun hpositive => ?_, h.replaced, h.finished⟩, ?_, fun _ => ⟨rfl, hnone⟩⟩
    · have hpositive' : 0 < record.outputTokensEmitted := hpositive
      omega
    · funext quantity
      cases quantity with
      | prefillTokens | decodePasses | batchTokens | decodeKv | causal =>
        simp [RequestRecord.work, RequestSloWorkInput.work, RequestSloWorkInput.prefillTokens,
          RequestSloWorkInput.decodePasses, RequestSloWorkInput.completedReprocessed,
          RequestSloWorkInput.decodeKv, RequestSloWorkInput.causal, RequestRecord.sloInput,
          RequestRecord.markAdmitted, hzero, hnone, hepisodes]

/-! ## Chunks -/

theorem recordToken_observed (record : RequestRecord) :
    record.recordToken.prefillTokensProcessed = record.prefillTokensProcessed ∧
      record.recordToken.prefixCacheHitTokens = record.prefixCacheHitTokens ∧
      (record.recordToken.completed = true →
        record.completed = true ∨ record.recordToken.isComplete = true) := by
  unfold RequestRecord.recordToken
  dsimp only
  split
  · next hcomplete => exact ⟨rfl, rfl, fun _ => .inr hcomplete⟩
  · exact ⟨rfl, rfl, fun hcompleted => .inl hcompleted⟩

theorem recordChunk_observed {finished : Bool} {chunkTokens : Nat}
    (h : recordChunk true finished chunkTokens record = .ok record') :
    record'.prefillTokensProcessed = record.prefillTokensProcessed ∧
      record'.prefixCacheHitTokens = record.prefixCacheHitTokens ∧
      (record'.completed = true → record.completed = true ∨ record'.isComplete = true) := by
  simp only [recordChunk, if_true, bind_eq_ok_iff] at h
  obtain ⟨recorded, hrecorded, h⟩ := h
  obtain ⟨last, -, -, rfl⟩ := RequestRecord.updateEpisode_spec hrecorded
  cases finished with
  | false =>
    obtain rfl := Except.ok.inj h
    exact ⟨rfl, rfl, fun hcompleted => .inl hcompleted⟩
  | true =>
    simp only [if_true, bind_eq_ok_iff] at h
    obtain ⟨closed, hclosed, emitted, hemitted, h⟩ := h
    obtain ⟨last', -, -, rfl⟩ := RequestRecord.updateEpisode_spec hclosed
    obtain rfl := Except.ok.inj hemitted
    obtain rfl := Except.ok.inj h
    exact recordToken_observed _

theorem WorkRecorded.chunk (h : WorkRecorded record) {reprocessed finished : Bool}
    (hc : Computing (some reprocessed) record context)
    (hfresh : reprocessed = false → record.outputTokensEmitted = 0 ∧ FirstPrefill record context)
    (hagain : reprocessed = true → 0 < record.outputTokensEmitted)
    (hfinished : finished = decide (context.completeChunk.remainingPrefillTokens = 0))
    (hrecord : recordChunk reprocessed finished context.activeChunk.2 record = .ok record') :
    WorkRecorded record' ∧ record'.work = record.work + chunkShare context.activeChunk ∧
      (reprocessed = false → finished = false → FirstPrefill record' context.completeChunk) := by
  cases reprocessed with
  | false =>
    obtain ⟨hzero, hhit, hprocessed⟩ := hfresh rfl
    have hnone := h.unstarted hzero
    have hwork : ∀ after : RequestRecord, after.outputTokensEmitted ≤ 1 →
        after.reprocessedPrefills = [] → after.prefixCacheHitTokens = record.prefixCacheHitTokens →
        after.prefillTokensProcessed = record.prefillTokensProcessed + context.activeChunk.2 →
        after.work = record.work + chunkShare context.activeChunk := by
      intro after hemitted hepisodes hsame hadded
      apply RequestSloWorkInput.chunk_telescopes
      · simp [RequestRecord.sloInput, hzero]
      · simpa [RequestRecord.sloInput] using hemitted
      · simp [RequestRecord.sloInput, hnone]
      · simp [RequestRecord.sloInput, hepisodes]
      · simp [RequestSloWorkInput.hitTokens, RequestRecord.sloInput, hsame]
      · simp [RequestSloWorkInput.hitTokens, RequestRecord.sloInput, hhit, hprocessed,
          ResolvedPrefillContext.activeChunk]
      · simp [RequestRecord.sloInput, hadded]
    cases finished with
    | false =>
      obtain rfl := Except.ok.inj hrecord
      refine ⟨⟨h.unstarted, fun hpositive => ?_, h.replaced, h.finished⟩,
        hwork _ (by simp [hzero]) hnone rfl rfl, fun _ _ => ⟨hhit, ?_⟩⟩
      · have hpositive' : 0 < record.outputTokensEmitted := hpositive
        omega
      · simp [ResolvedPrefillContext.completeChunk, ResolvedPrefillContext.activeChunk, hprocessed]
    | true =>
      -- the last chunk fills the context and emits the first token
      obtain rfl := Except.ok.inj hrecord
      have hdone := of_decide_eq_true hfinished.symm
      have hwithin := hc.within
      have hwhole := hc.whole
      simp only [ResolvedPrefillContext.remainingPrefillTokens,
        ResolvedPrefillContext.completeChunk] at hdone
      refine ⟨⟨fun hzero => absurd hzero Nat.one_ne_zero, fun _ => ⟨_, hhit, ?_⟩, fun _ => ?_,
        fun hcompleted => ⟨Nat.one_pos, ?_⟩⟩, hwork _ (Nat.le_refl _) hnone rfl rfl,
        fun _ hnot => by cases hnot⟩
      · show context.residentPrefixTokens +
            (record.prefillTokensProcessed + context.activeChunkTokens) =
          record.promptTokens + record.session.declaredPrefixTokens
        omega
      · show (record.reprocessedPrefills.filter fun episode => episode.completed).length + 1 ≤ 1
        rw [hnone]
        exact Nat.le_refl _
      · exact of_decide_eq_true hcompleted
  | true =>
    have hpositive := hagain rfl
    obtain ⟨last, hlast, hbefore, hhit, hprocessed⟩ := hc.reprocessed rfl
    obtain ⟨last', hlast', hopen, hdefinition, hemitted, -, hepisodes⟩ :=
      recordChunk_reprocessed hrecord
    obtain rfl : last = last' := Option.some.inj (hlast.symm.trans hlast')
    obtain ⟨hsame, hsameHit, hcompleted⟩ := recordChunk_observed hrecord
    obtain ⟨hprompt, htarget, hsession⟩ := RequestRecord.prompt_of_definition hdefinition
    have hsplit : record.reprocessedPrefills = record.reprocessedPrefills.dropLast ++ [last] :=
      (List.dropLast_append_getLast? last hlast).symm
    have hcount : record'.recomputed = record.recomputed + if finished then 1 else 0 := by
      rw [RequestRecord.recomputed, RequestRecord.recomputed, hepisodes]
      conv_rhs => rw [hsplit]
      cases finished with
      | false => simp [hopen]
      | true => simp [hopen]
    have hreplaced := h.replaced hpositive
    refine ⟨⟨fun hzero => ?_, fun _ => ?_, fun _ => ?_, fun hdone => ?_⟩, ?_,
      fun hnot => by cases hnot⟩
    · omega
    · rw [hsameHit, hsame, hprompt, hsession]
      exact h.computed hpositive
    · omega
    · rcases hcompleted hdone with hold | hnew
      · have hbound := (h.finished hold).2
        rw [htarget]
        omega
      · refine ⟨by omega, ?_⟩
        exact of_decide_eq_true hnew
    · have hbeforeEpisodes : record.sloInput.reprocessedPrefills =
          record.reprocessedPrefills.dropLast.map ReprocessedPrefillEpisode.workInput ++
            [last.workInput] := by
        rw [RequestRecord.sloInput, hsplit, List.map_append, List.dropLast_concat]
        rfl
      have hafterEpisodes : record'.sloInput.reprocessedPrefills =
          record.reprocessedPrefills.dropLast.map ReprocessedPrefillEpisode.workInput ++
            [ReprocessedPrefillEpisode.workInput { last with
              prefillTokensProcessed := last.prefillTokensProcessed + context.activeChunk.2
              completed := finished }] := by
        rw [RequestRecord.sloInput, hepisodes, List.map_append]
        rfl
      apply RequestSloWorkInput.reprocessed_telescopes hbeforeEpisodes hafterEpisodes
      · exact hopen
      · rfl
      · simp [ReprocessedPrefillEpisode.workInput, ResolvedPrefillContext.activeChunk, hhit,
          hprocessed]
      · simp [ReprocessedPrefillEpisode.workInput]
      · simp [RequestSloWorkInput.hitTokens, RequestRecord.sloInput, hsameHit, hsame]
      · cases finished with
        | false => simp [RequestRecord.sloInput, ReprocessedPrefillEpisode.workInput, hemitted]
        | true => simp [RequestRecord.sloInput, ReprocessedPrefillEpisode.workInput, hemitted]
      · intro _
        refine ⟨?_, ?_, ?_⟩
        · simp only [RequestRecord.sloInput]
          exact_mod_cast hpositive
        · simp [RequestRecord.sloInput, ReprocessedPrefillEpisode.workInput, hbefore]
        · apply add_nonneg
          · simp only [RequestSloWorkInput.hitTokens, RequestRecord.sloInput]
            cases record.prefixCacheHitTokens with
            | none => simp
            | some hit => simp
          · simp [RequestRecord.sloInput]

/-! ## Decode -/

theorem WorkRecorded.decoded (h : WorkRecorded record) (hpositive : 0 < record.outputTokensEmitted)
    {currentKv : Nat} (hkv : currentKv + 1 = record.promptTokens +
      record.session.declaredPrefixTokens + record.outputTokensEmitted) :
    WorkRecorded (DecodeCompletion.retired record 1) ∧
      (DecodeCompletion.retired record 1).work = record.work + rowShare currentKv := by
  obtain ⟨hdefinition, hemitted, -⟩ := DecodeCompletion.retired_spec record 1
  obtain ⟨-, hepisodes⟩ := DecodeCompletion.retired_log record 1
  obtain ⟨hprompt, htarget, hsession⟩ := RequestRecord.prompt_of_definition hdefinition
  obtain ⟨hprocessed, hhit, hcompleted⟩ :
      (DecodeCompletion.retired record 1).prefillTokensProcessed = record.prefillTokensProcessed ∧
      (DecodeCompletion.retired record 1).prefixCacheHitTokens = record.prefixCacheHitTokens ∧
      ((DecodeCompletion.retired record 1).completed = true → record.completed = true ∨
        (DecodeCompletion.retired record 1).isComplete = true) := by
    have hobserved := recordToken_observed record
    simp only [DecodeCompletion.retired, Function.iterate_one]
    split
    · exact hobserved
    · exact hobserved
  have hreplaced := h.replaced hpositive
  obtain ⟨hit, hsome, hfilled⟩ := h.computed hpositive
  refine ⟨⟨fun hzero => ?_, fun _ => ?_, fun _ => ?_, fun hdone => ⟨by omega, ?_⟩⟩, ?_⟩
  · omega
  · rw [hhit, hprocessed, hprompt, hsession]
    exact h.computed hpositive
  · rw [RequestRecord.recomputed, hepisodes]
    have hcount : record.recomputed + 1 ≤ record.outputTokensEmitted := hreplaced
    rw [RequestRecord.recomputed] at hcount
    omega
  · rcases hcompleted hdone with hold | hnew
    · have hbound := (h.finished hold).2
      rw [htarget]
      omega
    · exact of_decide_eq_true hnew
  · apply RequestSloWorkInput.decode_telescopes
    · rw [RequestRecord.completedReprocessed_sloInput]
      simp only [RequestRecord.sloInput]
      exact_mod_cast hreplaced
    · simp only [RequestSloWorkInput.logicalContextTokens, RequestSloWorkInput.hitTokens,
        RequestRecord.sloInput, hsome, Option.map_some, Option.getD_some]
      have htotal : hit + record.prefillTokensProcessed + record.outputTokensEmitted =
          currentKv + 1 := by omega
      exact_mod_cast htotal
    · simp [RequestRecord.sloInput, hemitted]
    · simp [RequestSloWorkInput.hitTokens, RequestRecord.sloInput, hhit]
    · simp [RequestRecord.sloInput, hprocessed]
    · simp [RequestRecord.sloInput, hepisodes]

/-! ## Saved work -/

theorem WorkRecorded.causal_saved (h : WorkRecorded record) (hbalanced : Balanced record)
    (hpositive : 0 < record.outputTokensEmitted) :
    record.sloInput.causal + record.sloInput.savedCausal = record.sloInput.coldCausal := by
  obtain ⟨hit, hsome, hfilled⟩ := h.computed hpositive
  have hlogical : record.sloInput.logicalContextTokens =
      record.promptTokens + record.session.declaredPrefixTokens := by
    simp only [RequestSloWorkInput.logicalContextTokens, RequestSloWorkInput.hitTokens,
      RequestRecord.sloInput, hsome, Option.map_some, Option.getD_some]
    exact_mod_cast hfilled
  apply RequestSloWorkInput.causal_add_saved
  constructor
  · intro _
    exact hlogical
  · intro episode hepisode hcompleted
    simp only [RequestRecord.sloInput, List.mem_map] at hepisode
    obtain ⟨closed, hclosed, rfl⟩ := hepisode
    have hsum := hbalanced.closed closed hclosed hcompleted
    rw [hlogical]
    simp only [ReprocessedPrefillEpisode.workInput]
    rw [add_comm (closed.prefixCacheHitTokens : ℚ)]
    exact_mod_cast hsum

end records

end ServingSim
