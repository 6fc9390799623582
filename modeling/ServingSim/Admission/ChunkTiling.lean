import ServingSim.Admission.TokenConservation
import ServingSim.Kv.PrefillEpisodes

/-
  The chunks of a prefill, in the worker that forms whole iterations.

  The store counts what is processed and what is active; the worker decides what is
  scheduled and when it is complete. Between iterations no chunk is active, so the next
  one starts where the last one ended; a prefill whose last chunk is complete decodes in
  the same turn.
-/

namespace ServingSim

open KvCacheStore Relation ChunkedPrefillWorker EndToEnd

/-! ## Operations on one request -/

namespace IssuedStore

variable {acc : KvAccounting} {n : Nat} {kv kv' : IssuedStore acc n} {r : RequestId} {p : Fin n}
  {context : ResolvedPrefillContext} {tokens : Nat}

/-- A prefill that has not started its decode has tokens left that are not complete. -/
def Unfinished (kv : IssuedStore acc n) (r : RequestId) : Prop :=
  ∀ e ∈ kv.episodes r, e.decodes = [] → e.completed < e.toCompute

theorem unfinished_of_last {earlier : List PrefillEpisode} {e : PrefillEpisode}
    (hepisodes : kv.episodes r = earlier ++ [e])
    (hearlier : ∀ e ∈ earlier, e.decodes = [] → e.completed < e.toCompute)
    (he : e.decodes = [] → e.completed < e.toCompute) : kv.Unfinished r := by
  unfold Unfinished
  rw [hepisodes]
  intro e' he'
  rcases List.mem_append.mp he' with he' | he'
  · exact hearlier e' he'
  · rw [List.mem_singleton.mp he']
    exact he

/-- The account of a request in an engine that completes the chunks of an iteration
together. -/
structure Settles (kv : IssuedStore acc n) (r : RequestId) : Prop where
  recorded : kv.Recorded r
  unfinished : kv.Unfinished r

theorem Settles.congr (h : kv.Settles r) (hepisodes : kv'.episodes r = kv.episodes r)
    (hphase : kv'.store.phaseOf r = kv.store.phaseOf r)
    (hview : kv'.store.ledger.viewOf r = kv.store.ledger.viewOf r) : kv'.Settles r := by
  refine ⟨h.recorded.congr hepisodes hphase hview, ?_⟩
  unfold Unfinished
  rw [hepisodes]
  exact h.unfinished

theorem Settles.left (h : kv.Settles r) (hepisodes : kv'.episodes r = kv.episodes r)
    (hphase : ∀ p, kv'.store.phaseOf r ≠ .chunked p) : kv'.Settles r := by
  refine ⟨h.recorded.left hepisodes hphase, ?_⟩
  unfold Unfinished
  rw [hepisodes]
  exact h.unfinished

theorem Recorded.reserved (h : kv.Recorded r) {resolved : ResolvedPrefillContext}
    (footprint : KvFootprint) (hnew : resolved.processedPrefillTokens = 0) (hpositive : 0 < tokens)
    (hfit : tokens ≤ resolved.remainingPrefillTokens) :
    ∃ e, ((kv.issue (.reserveChunkedPrefillContext r p resolved footprint)).issue
          (.schedulePrefillChunk r p tokens)).episodes r = kv.episodes r ++ [e] ∧
      e.completed = 0 ∧ e.toCompute = resolved.prefillTokensToCompute ∧
      ((kv.issue (.reserveChunkedPrefillContext r p resolved footprint)).issue
        (.schedulePrefillChunk r p tokens)).Recorded r := by
  obtain ⟨metadata, hcontext⟩ :=
    contextOf_firstChunk kv.store r p resolved footprint tokens
  obtain ⟨htiling, hcurrent⟩ := Tiling.opened metadata hnew hpositive hfit
  have hopened : (kv.issue (.reserveChunkedPrefillContext r p resolved footprint)).episodes r =
      kv.episodes r ++ [.opened resolved] := by
    rw [episodes_issue]
    exact if_pos rfl
  have hlast := episodes_issue_last hopened (observe_schedule _ p tokens _ _)
  rw [show ((StoreOp.apply (kv.issue (.reserveChunkedPrefillContext r p resolved footprint)).store
    (.schedulePrefillChunk r p tokens)).ledger.viewOf r).context = _ from hcontext] at hlast
  refine ⟨_, hlast, rfl, rfl, recorded_of_last hlast h.tiling htiling ?_⟩
  intro q context' _ hcontext'
  rw [Option.some.inj (hcontext'.symm.trans hcontext)]
  exact hcurrent

theorem Recorded.scheduled (h : kv.Recorded r) (hphase : kv.store.phaseOf r = .chunked p)
    (hcontext : (kv.store.ledger.viewOf r).context = some context)
    (hrest : context.activeChunkTokens = 0) (hpositive : 0 < tokens)
    (hfit : tokens ≤ context.remainingPrefillTokens) :
    ∃ earlier e e', kv.episodes r = earlier ++ [e] ∧
      (kv.issue (.schedulePrefillChunk r p tokens)).episodes r = earlier ++ [e'] ∧
      e'.decodes = e.decodes ∧ e'.completed = e.completed ∧ e'.toCompute = e.toCompute ∧
      (kv.issue (.schedulePrefillChunk r p tokens)).Recorded r := by
  obtain ⟨earlier, e, hepisodes, hcurrent⟩ := h.current p context hphase hcontext
  have htilings := h.tiling
  rw [hepisodes] at htilings
  have hnext := contextOf_schedulePrefillChunk kv.store r p tokens hcontext
  obtain ⟨htiling, hcurrent'⟩ := Tiling.scheduled
    (htilings e (List.mem_append_right _ (List.mem_singleton_self e))) hcurrent hrest hpositive hfit
  have hlast := episodes_issue_last hepisodes (observe_schedule kv.store p tokens earlier e)
  rw [show ((StoreOp.apply kv.store (.schedulePrefillChunk r p tokens)).ledger.viewOf r).context =
    _ from hnext] at hlast
  refine ⟨earlier, e, _, hepisodes, hlast, rfl, rfl, rfl,
    recorded_of_last hlast (fun e' he' => htilings e' (List.mem_append_left _ he')) htiling ?_⟩
  intro q context' _ hcontext'
  rw [Option.some.inj (hcontext'.symm.trans hnext)]
  exact hcurrent'

theorem Recorded.advanced (h : kv.Recorded r) (hphase : kv.store.phaseOf r = .chunked p)
    (hcontext : (kv.store.ledger.viewOf r).context = some context) :
    ∃ earlier e e', kv.episodes r = earlier ++ [e] ∧
      (kv.issue (.completePrefillChunk r)).episodes r = earlier ++ [e'] ∧
      e'.toCompute = context.prefillTokensToCompute ∧
      e'.completed = context.completeChunk.processedPrefillTokens ∧
      (kv.issue (.completePrefillChunk r)).Recorded r := by
  obtain ⟨earlier, e, hepisodes, hcurrent⟩ := h.current p context hphase hcontext
  have htilings := h.tiling
  rw [hepisodes] at htilings
  have hnext := contextOf_completePrefillChunk hcontext
  obtain ⟨htiling, hcurrent'⟩ := Tiling.advanced
    (htilings e (List.mem_append_right _ (List.mem_singleton_self e))) hcurrent
  have hlast := episodes_issue_last hepisodes (observe_complete kv.store earlier e)
  rw [hcontext] at hlast
  refine ⟨earlier, e, _, hepisodes, hlast, hcurrent'.toCompute, hcurrent'.completed,
    recorded_of_last hlast (fun e' he' => htilings e' (List.mem_append_left _ he')) htiling ?_⟩
  intro q context' _ hcontext'
  rw [Option.some.inj (hcontext'.symm.trans hnext)]
  exact hcurrent'

theorem Recorded.decoding (h : kv.Recorded r) (ht : kv.store.Tracked)
    (hphase : kv.store.phaseOf r = .chunked p)
    (hcontext : (kv.store.ledger.viewOf r).context = some context)
    (hdone : context.remainingPrefillTokens = 0) (remaining : Nat) :
    ∃ earlier e e', kv.episodes r = earlier ++ [e] ∧
      (kv.issue (.finishChunkedPrefill r p remaining)).episodes r = earlier ++ [e'] ∧
      e'.decodes ≠ [] ∧ (kv.issue (.finishChunkedPrefill r p remaining)).Recorded r := by
  obtain ⟨earlier, e, hepisodes, hcurrent⟩ := h.current p context hphase hcontext
  have htilings := h.tiling
  rw [hepisodes] at htilings
  have hresident : (kv.issue (.finishChunkedPrefill r p remaining)).store.phaseOf r =
      .resident p :=
    (phaseOf_apply ht (show StoreOp.Issuable kv.store (.finishChunkedPrefill r p remaining) from
      hphase)).trans (if_pos rfl)
  have htiling := Tiling.finished
    (htilings e (List.mem_append_right _ (List.mem_singleton_self e))) hcurrent hdone
  have hlast := episodes_issue_last hepisodes (observe_finish kv.store p remaining earlier e)
  refine ⟨earlier, e, _, hepisodes, hlast, ?_,
    recorded_of_last hlast (fun e' he' => htilings e' (List.mem_append_left _ he')) htiling ?_⟩
  · exact List.append_ne_nil_of_right_ne_nil _ (List.cons_ne_nil _ _)
  · intro q context' hchunked
    rw [hresident] at hchunked
    cases hchunked

end IssuedStore

variable {P : Type} [PendingOrderPolicy P] {acc : KvAccounting} {n : Nat}
  {cfg : ChunkedPrefillConfig n} {w w' : ChunkedPrefillWorker P acc n} {r : RequestId} {p : Fin n}

/-! ## The accounts under a turn -/

/-- Every request's account is kept. -/
def Tiled (w : ChunkedPrefillWorker P acc n) : Prop := ∀ r, w.kv.Settles r

theorem Tiled.step (h : Tiled w) (q : RequestId)
    (hother : ∀ s, s ≠ q → w'.entriesOf s = w.entriesOf s)
    (hepisodes : ∀ s, s ≠ q → w'.kv.episodes s = w.kv.episodes s) (hq : w'.kv.Settles q) :
    Tiled w' := by
  intro s
  by_cases hs : s = q
  · exact hs ▸ hq
  · exact (h s).congr (hepisodes s hs) (congrArg Entries.phase (hother s hs))
      (congrArg Entries.view (hother s hs))

theorem Tiled.still (h : Tiled w) (hall : ∀ s, w'.entriesOf s = w.entriesOf s)
    (hepisodes : ∀ s, w'.kv.episodes s = w.kv.episodes s) : Tiled w' := by
  intro s
  exact (h s).congr (hepisodes s) (congrArg Entries.phase (hall s))
    (congrArg Entries.view (hall s))

/-- Prompts that stay started have tokens left that are not scheduled. -/
def Owing (w : ChunkedPrefillWorker P acc n) : Prop :=
  ∀ p, ∀ c ∈ w.startedPrefills p, ∀ context,
    (w.store.ledger.viewOf c.requestId).context = some context →
    context.processedPrefillTokens + context.activeChunkTokens < context.prefillTokensToCompute

theorem Owing.step (h : Owing w) (q : RequestId)
    (hother : ∀ s, s ≠ q → w'.entriesOf s = w.entriesOf s)
    (hq : ∀ p, ∀ c ∈ w'.startedPrefills p, c.requestId = q → ∀ context,
      (w'.store.ledger.viewOf q).context = some context →
      context.processedPrefillTokens + context.activeChunkTokens <
        context.prefillTokensToCompute) : Owing w' := by
  intro p c hc context hcontext
  by_cases hs : c.requestId = q
  · exact hq p c hc hs context (hs ▸ hcontext)
  · have hentries := hother c.requestId hs
    have hstarted : ofRequest c.requestId (w'.startedPrefills p) =
        ofRequest c.requestId (w.startedPrefills p) :=
      congrFun (congrArg Entries.started hentries) p
    have hmem := mem_ofRequest.mpr ⟨hc, rfl⟩
    rw [hstarted] at hmem
    apply h p c (mem_ofRequest.mp hmem).1 context
    exact (congrArg (fun e => (Entries.view e).context) hentries).symm.trans hcontext

theorem Owing.still (h : Owing w) (hall : ∀ s, w'.entriesOf s = w.entriesOf s) : Owing w' := by
  intro p c hc context hcontext
  have hentries := hall c.requestId
  have hstarted : ofRequest c.requestId (w'.startedPrefills p) =
      ofRequest c.requestId (w.startedPrefills p) := congrFun (congrArg Entries.started hentries) p
  have hmem := mem_ofRequest.mpr ⟨hc, rfl⟩
  rw [hstarted] at hmem
  apply h p c (mem_ofRequest.mp hmem).1 context
  exact (congrArg (fun e => (Entries.view e).context) hentries).symm.trans hcontext

/-- The prefills of a partition that are not in a list have no active chunk. -/
def RestsBut (w : ChunkedPrefillWorker P acc n) (p : Fin n) (active : List RequestId) : Prop :=
  ∀ r ∉ active, ∀ context, w.store.phaseOf r = .chunked p →
    (w.store.ledger.viewOf r).context = some context → context.activeChunkTokens = 0

/-- Only the prefills of the iteration have an active chunk. -/
def Resting (w : ChunkedPrefillWorker P acc n) : Prop :=
  ∀ p, RestsBut w p (w.store.partitions p).prefillAdmits

theorem Resting.step (h : Resting w) (q : RequestId)
    (hother : ∀ s, s ≠ q → w'.entriesOf s = w.entriesOf s)
    (hadmits : ∀ p, ∀ s ∈ (w.store.partitions p).prefillAdmits,
      s ∈ (w'.store.partitions p).prefillAdmits)
    (hq : ∀ p, w'.store.phaseOf q = .chunked p → q ∈ (w'.store.partitions p).prefillAdmits) :
    Resting w' := by
  intro p s hs context hphase hcontext
  by_cases hsq : s = q
  · exact absurd (hq p (hsq ▸ hphase)) (hsq ▸ hs)
  · have hentries := hother s hsq
    apply h p s (fun hmem => hs (hadmits p s hmem)) context
    · exact (congrArg Entries.phase hentries).symm.trans hphase
    · exact (congrArg (fun e => (Entries.view e).context) hentries).symm.trans hcontext

/-- What every turn of an iteration's formation keeps. -/
structure Paced (w : ChunkedPrefillWorker P acc n) : Prop where
  tiled : Tiled w
  owing : Owing w
  resting : Resting w

theorem paced_making {config : BoundedFutureKvAdmissionConfig} {stepTokens : Nat}
    (hstep : Making config stepTokens w w') (hlocated : Located cfg w) (hidle : Idle w)
    (h : Paced w) : Paced w' := by
  cases hstep with
  | prepare q =>
    have hall := entriesOf_prepare hlocated.tracked q config.pageSize stepTokens
    refine ⟨h.tiled.still hall ?_, h.owing.still hall, ?_⟩
    · intro s
      exact w.kv.episodes_issue_of_ne (by simp [StoreOp.subject])
    · intro p s _ context hphase hcontext
      apply h.resting p s (by simp [hidle p]) context
      · exact (congrArg Entries.phase (hall s)).symm.trans hphase
      · exact (congrArg (fun e => (Entries.view e).context) (hall s)).symm.trans hcontext
  | retract q victim live =>
    have hop := issuable_release hlocated live
    have hother := fun s hs =>
      entriesOf_retracted hlocated live config.retractionPolicy (s := s) hs
    have hlocated' := hlocated.retract live hidle config.retractionPolicy
    obtain ⟨c, f, record, -, -, -, -, -, -, -, hw⟩ :=
      requeueRetracted_spec (w.issue (.release victim q)) q victim config.retractionPolicy
    have hkv : ((w.issue (.release victim q)).requeueRetracted q victim
        config.retractionPolicy).kv = w.kv.issue (.release victim q) := by
      rw [hw]
      rfl
    have hepisodes : ∀ s, ((w.issue (.release victim q)).requeueRetracted q victim
        config.retractionPolicy).kv.episodes s = w.kv.episodes s := by
      intro s
      have hnot : ¬ IssuedStore.Prefills (StoreOp.release victim q) := id
      rw [hkv]
      exact w.kv.episodes_issue_of_not_prefills hnot s
    have habsent : ((w.issue (.release victim q)).requeueRetracted q victim
        config.retractionPolicy).store.phaseOf victim = .absent := by
      refine (congrArg (fun kv : IssuedStore acc n => kv.store.phaseOf victim) hkv).trans ?_
      exact (phaseOf_apply hlocated.tracked hop).trans (if_pos rfl)
    have hnot : ∀ p, ((w.issue (.release victim q)).requeueRetracted q victim
        config.retractionPolicy).store.phaseOf victim ≠ .chunked p := by
      intro p hchunked
      rw [habsent] at hchunked
      cases hchunked
    refine ⟨h.tiled.step victim hother (fun s _ => hepisodes s)
      ((h.tiled victim).left (hepisodes victim) hnot),
      h.owing.step victim hother ?_, h.resting.step victim hother ?_ ?_⟩
    · -- the victim decoded, so its prompt is not started
      intro p c' hc' hvictim
      have hchunked := (hlocated'.at_started hc').phase
      exact absurd (hvictim ▸ hchunked) (hnot p)
    · intro p s hs
      rw [hidle p] at hs
      cases hs
    · intro p hchunked
      exact absurd hchunked (hnot p)
  | ratio x => exact ⟨h.tiled, h.owing, h.resting⟩

theorem paced_forming {s s' : Forming P acc n} (hstep : FormStep cfg s s')
    (hlocated : Located cfg s.worker) (h : Paced s.worker) : Paced s'.worker := by
  have hlocated' := hstep.located hlocated
  cases hstep with
  | @chunk p before after c context budget tokens left available started fresh resolved size
      positive spent =>
    have hat := hlocated.at_started (p := p) (c := c) (by simp [started])
    have hphase : s.worker.store.phaseOf c.requestId = .chunked p := hat.phase
    have hop : StoreOp.Issuable s.worker.store (.schedulePrefillChunk c.requestId p tokens) :=
      hphase
    have hother : ∀ t, t ≠ c.requestId →
        ({ s.worker.issue (.schedulePrefillChunk c.requestId p tokens) with
          startedPrefills := Function.update s.worker.startedPrefills p
            (before ++ (if tokens < context.remainingPrefillTokens then [c] else []) ++ after) } :
          ChunkedPrefillWorker P acc n).entriesOf t = s.worker.entriesOf t := by
      intro t ht
      exact entriesOf_scheduled hlocated.tracked hphase ht
        (ofRequest_rescheduled started (fun d hd => mem_kept hd) ht)
    have hadmits := fun q => admits_schedulePrefillChunk s.worker.store c.requestId p q tokens
    have hle := nextChunkTokens_le context (budget - cfg.draftingSlots) cfg.chunkEndAlignment
      cfg.maxBatchTokens
    rw [size] at hle
    -- the context rests, so the chunk starts where its last one ended
    obtain ⟨earlier, e, e', hepisodes, hlast, hdecodes, hcompleted, htoCompute, hrecorded⟩ :=
      (h.tiled c.requestId).recorded.scheduled hphase resolved
        (h.resting p c.requestId fresh context hphase resolved) (Nat.pos_of_ne_zero positive)
        (hle.trans (Nat.min_le_left _ _))
    have hold := (h.tiled c.requestId).unfinished
    unfold IssuedStore.Unfinished at hold
    rw [hepisodes] at hold
    have hin : c.requestId ∈
        ((StoreOp.apply s.worker.store (.schedulePrefillChunk c.requestId p tokens)).partitions
          p).prefillAdmits := by
      refine (hadmits p).symm ▸ ?_
      rw [if_pos rfl]
      exact List.mem_append_right _ (List.mem_singleton_self _)
    refine ⟨h.tiled.step c.requestId hother ?_ ⟨hrecorded, ?_⟩, h.owing.step c.requestId hother ?_,
      h.resting.step c.requestId hother ?_ ?_⟩
    · intro t ht
      exact s.worker.kv.episodes_issue_of_ne (by simpa [StoreOp.subject] using ht.symm)
    · refine IssuedStore.unfinished_of_last hlast
        (fun d hd => hold d (List.mem_append_left _ hd)) ?_
      rw [hdecodes, hcompleted, htoCompute]
      exact hold e (List.mem_append_right _ (List.mem_singleton_self e))
    · intro q d hd hdc context' hcontext'
      have hplaced := (hlocated'.at_started hd).phase
      have hsame : Phase.chunked q = Phase.chunked p := hplaced.symm.trans
        ((congrArg _ hdc).trans ((phaseOf_apply hlocated.tracked hop).trans hphase))
      cases hsame
      exact hlocated'.scheduled.unfinished _ d hd context' (hdc ▸ hin) (hdc ▸ hcontext')
    · intro q t ht
      exact (hadmits q).symm ▸ List.mem_append_left _ ht
    · intro q hchunked
      have hsame : Phase.chunked q = Phase.chunked p := hchunked.symm.trans
        ((phaseOf_apply hlocated.tracked hop).trans hphase)
      cases hsame
      exact hin
  | refresh p =>
    have hall := entriesOf_refresh hlocated p
    exact ⟨h.tiled.still hall fun _ => rfl, h.owing.still hall, h.resting⟩
  | @admitted p budget chunkBudget left slots slots' a worker available windows room gate claimed
      entered spent =>
    obtain ⟨hpeek, hresolved, hpositive, -, -, hchunk, -⟩ := gateHead_spec gate
    have hother := fun t ht => entriesOf_admitted hlocated hpeek entered (s := t) ht
    have hadmits := admits_admitHead entered
    obtain ⟨hchunked, -⟩ := hlocated.admitted hpeek entered
    have hnew : a.resolvedPrefill.processedPrefillTokens = 0 := by
      rw [hresolved]
      rfl
    have hfit := hchunk.trans (Nat.min_le_left _ _)
    -- an admission opens an episode of its own, with a first chunk
    obtain ⟨e, hlast, hcompleted, htoCompute, hrecorded⟩ :=
      (h.tiled a.candidate.requestId).recorded.reserved (p := p) a.footprint hnew
        (Nat.pos_of_ne_zero hpositive) hfit
    have hin : a.candidate.requestId ∈ (worker.store.partitions p).prefillAdmits := by
      rw [hadmits, if_pos rfl]
      exact List.mem_append_right _ (List.mem_singleton_self _)
    have hkv : worker.kv = (s.worker.kv.issue (.reserveChunkedPrefillContext
        a.candidate.requestId p a.resolvedPrefill a.footprint)).issue
          (.schedulePrefillChunk a.candidate.requestId p a.chunkTokens) := by
      obtain ⟨record, -, rfl⟩ := admitHead_spec entered
      rfl
    refine ⟨h.tiled.step a.candidate.requestId hother ?_ ?_,
      h.owing.step a.candidate.requestId hother ?_,
      h.resting.step a.candidate.requestId hother ?_ ?_⟩
    · intro t ht
      show worker.kv.episodes t = s.worker.kv.episodes t
      rw [hkv]
      exact (IssuedStore.episodes_issue_of_ne _ (by simpa [StoreOp.subject] using ht.symm)).trans
        (IssuedStore.episodes_issue_of_ne _ (by simpa [StoreOp.subject] using ht.symm))
    · show worker.kv.Settles a.candidate.requestId
      rw [hkv]
      refine ⟨hrecorded, IssuedStore.unfinished_of_last hlast
        (h.tiled a.candidate.requestId).unfinished ?_⟩
      intro _
      rw [ResolvedPrefillContext.remainingPrefillTokens] at hfit
      omega
    · intro q d hd hda context' hcontext'
      have hplaced := (hlocated'.at_started hd).phase
      have hsame : Phase.chunked q = Phase.chunked p :=
        hplaced.symm.trans ((congrArg _ hda).trans hchunked)
      cases hsame
      exact hlocated'.scheduled.unfinished _ d hd context' (hda ▸ hin) (hda ▸ hcontext')
    · intro q t ht
      show t ∈ (worker.store.partitions q).prefillAdmits
      rw [hadmits]
      exact List.mem_append_left _ ht
    · intro q hplaced
      have hsame : Phase.chunked q = Phase.chunked p := hplaced.symm.trans hchunked
      cases hsame
      exact hin

/-! ## Completing -/

omit [PendingOrderPolicy P] in
/-- A completed chunk: the context it leaves, and the worker's store. -/
theorem completed_chunk {completed completed' : List RequestId}
    (hstep : completePrefill p (w, completed) r = .ok (w', completed')) :
    ∃ context, (w.store.ledger.viewOf r).context = some context ∧
      (context.completeChunk.remainingPrefillTokens = 0 ∧
          (∃ remaining, w'.kv = (w.kv.issue (.completePrefillChunk r)).issue
            (.finishChunkedPrefill r p remaining)) ∨
        context.completeChunk.remainingPrefillTokens ≠ 0 ∧
          w'.kv = w.kv.issue (.completePrefillChunk r)) := by
  obtain ⟨reprocessed, context, after, record, -, hcontext, hafter, -, hfinal⟩ :=
    completePrefill_spec hstep
  obtain rfl := Option.some.inj (hafter.symm.trans (contextOf_completePrefillChunk hcontext))
  refine ⟨context, hcontext, ?_⟩
  by_cases hdone : context.completeChunk.remainingPrefillTokens = 0
  · rw [if_pos hdone] at hfinal
    obtain ⟨rfl, -⟩ := hfinal
    exact .inl ⟨hdone, record.remainingOutputTokens, rfl⟩
  · rw [if_neg hdone] at hfinal
    obtain ⟨rfl, -⟩ := hfinal
    exact .inr ⟨hdone, rfl⟩

theorem tiled_completing (hstep : Completing cfg p w w') (hlocated : Located cfg w)
    (h : Tiled w) : Tiled w' := by
  cases hstep with
  | decoded step =>
    have hdecode := hlocated.decodeStep step
    intro r
    refine (h r).congr ?_ (hdecode.phase r)
      (congrArg (fun ledger => RequestLedger.viewOf ledger r) hdecode.ledger)
    refine hdecode.issues.episodes ?_ r
    intro store op hop
    obtain ⟨-, ⟨scope, steps, rfl⟩, -⟩ := hop
    exact id
  | @prefilled _ r completed completed' admitted step =>
    have hchunk := hlocated.completePrefill admitted step
    have hop := issuable_completePrefillChunk hchunk.before
    obtain ⟨context, hcontext, hfinal⟩ := completed_chunk step
    obtain ⟨earlier, e, e', hepisodes, hlast, htoCompute, hcompleted, hrecorded⟩ :=
      (h r).recorded.advanced hchunk.before hcontext
    have hold := (h r).unfinished
    unfold IssuedStore.Unfinished at hold
    rw [hepisodes] at hold
    have hearlier := fun d hd => hold d (List.mem_append_left [e] hd)
    refine h.step r hchunk.entries ?_ ?_
    · intro s hs
      rcases hfinal with ⟨-, remaining, hkv⟩ | ⟨-, hkv⟩
      · rw [hkv]
        exact (IssuedStore.episodes_issue_of_ne _
          (by simpa [StoreOp.subject] using hs.symm)).trans
          (IssuedStore.episodes_issue_of_ne _ (by simpa [StoreOp.subject] using hs.symm))
      · rw [hkv]
        exact IssuedStore.episodes_issue_of_ne _ (by simpa [StoreOp.subject] using hs.symm)
    · rcases hfinal with ⟨hdone, remaining, hkv⟩ | ⟨hleft, hkv⟩
      · -- the last chunk: the decode starts in the same turn
        have hphase : (w.kv.issue (.completePrefillChunk r)).store.phaseOf r = .chunked p :=
          (phaseOf_apply hlocated.tracked hop).trans hchunk.before
        obtain ⟨earlier', f, f', hepisodes', hlast', hdecodes, hrecorded'⟩ :=
          hrecorded.decoding (tracked_apply hlocated.tracked hop) hphase
            (contextOf_completePrefillChunk hcontext) hdone remaining
        obtain ⟨rfl, -⟩ := List.append_inj' (hepisodes'.symm.trans hlast) rfl
        rw [hkv]
        refine ⟨hrecorded', IssuedStore.unfinished_of_last hlast' hearlier ?_⟩
        intro hnone
        exact absurd hnone hdecodes
      · rw [hkv]
        refine ⟨hrecorded, IssuedStore.unfinished_of_last hlast hearlier ?_⟩
        intro _
        rw [hcompleted, htoCompute]
        rw [ResolvedPrefillContext.remainingPrefillTokens] at hleft
        exact Nat.lt_of_sub_ne_zero hleft
  | cleared =>
    have hnot : ¬ IssuedStore.Prefills (StoreOp.clearPrefillAdmits p) := id
    exact h.still (entriesOf_clear hlocated.tracked)
      fun s => w.kv.episodes_issue_of_not_prefills hnot s
  | @finished r resident complete free =>
    have hop := issuable_releaseRetainingPrefix resident
    have hnot : ¬ IssuedStore.Prefills (StoreOp.releaseRetainingPrefix r p) := id
    have habsent : (StoreOp.apply w.store (.releaseRetainingPrefix r p)).phaseOf r = .absent :=
      (phaseOf_apply hlocated.tracked hop).trans (if_pos rfl)
    have hepisodes := w.kv.episodes_issue_of_not_prefills hnot
    refine h.step r (fun s hs => entriesOf_releaseCompleted hlocated.tracked resident hs)
      (fun s _ => hepisodes s) ((h r).left (hepisodes r) ?_)
    intro q hchunked
    have hphase := habsent.symm.trans hchunked
    cases hphase

theorem owing_completing (hstep : Completing cfg p w w') (hlocated : Located cfg w)
    (h : Owing w) : Owing w' := by
  have hlocated' := hstep.located hlocated
  cases hstep with
  | decoded step =>
    have hdecode := hlocated.decodeStep step
    have hstarted : w'.startedPrefills = w.startedPrefills := by rw [hdecode.frame]
    intro q c hc context hcontext
    rw [hstarted] at hc
    rw [hdecode.ledger] at hcontext
    exact h q c hc context hcontext
  | @prefilled _ r completed completed' admitted step =>
    have hchunk := hlocated.completePrefill admitted step
    have hstarted : w'.startedPrefills = w.startedPrefills := by rw [hchunk.frame]
    obtain ⟨context, hcontext, hfinal⟩ := completed_chunk step
    refine h.step r hchunk.entries ?_
    intro q c hc hr context' hcontext'
    rw [hstarted] at hc
    have howed := h q c hc context (hr ▸ hcontext)
    rcases hfinal with ⟨hdone, -⟩ | ⟨-, hkv⟩
    · -- a started prompt is not done
      rw [ResolvedPrefillContext.remainingPrefillTokens] at hdone
      have hprocessed : context.completeChunk.processedPrefillTokens =
        context.processedPrefillTokens + context.activeChunkTokens := rfl
      have htoCompute : context.completeChunk.prefillTokensToCompute =
        context.prefillTokensToCompute := rfl
      omega
    · have hcontext'' : (w'.store.ledger.viewOf r).context = some context.completeChunk :=
        (congrArg (fun kv : IssuedStore acc n => (kv.store.ledger.viewOf r).context) hkv).trans
          (contextOf_completePrefillChunk hcontext)
      rw [Option.some.inj (hcontext'.symm.trans hcontext'')]
      exact howed
  | cleared => exact h.still (entriesOf_clear hlocated.tracked)
  | @finished r resident complete free =>
    have habsent := phaseOf_releaseRetainingPrefix hlocated.tracked resident
    refine h.step r (fun s hs => entriesOf_releaseCompleted hlocated.tracked resident hs) ?_
    intro q c hc hr
    have hphase := habsent.symm.trans (hr ▸ (hlocated'.at_started hc).phase)
    cases hphase

/-! ## Rest -/

omit [PendingOrderPolicy P] in
theorem RestsBut.congr {active : List RequestId} (h : RestsBut w p active)
    (hphase : ∀ r, w'.store.phaseOf r = w.store.phaseOf r)
    (hview : ∀ r, w'.store.ledger.viewOf r = w.store.ledger.viewOf r) : RestsBut w' p active := by
  intro r hr context hchunked hcontext
  rw [hphase] at hchunked
  rw [hview] at hcontext
  exact h r hr context hchunked hcontext

theorem rests_completePrefill {q : Fin n} {active completed completed' : List RequestId}
    (hlocated : Located cfg w) (admitted : r ∈ (w.store.partitions p).prefillAdmits)
    (hstep : completePrefill p (w, completed) r = .ok (w', completed'))
    (h : RestsBut w q (r :: active)) : RestsBut w' q active := by
  have hchunk := hlocated.completePrefill admitted hstep
  have hop := issuable_completePrefillChunk hchunk.before
  intro s hs context' hphase hcontext'
  by_cases hsr : s = r
  · subst hsr
    obtain ⟨context, hcontext, hfinal⟩ := completed_chunk hstep
    rcases hfinal with ⟨-, remaining, hkv⟩ | ⟨-, hkv⟩
    · have hissued : StoreOp.Issuable (w.kv.issue (.completePrefillChunk s)).store
          (.finishChunkedPrefill s p remaining) :=
        (phaseOf_apply hlocated.tracked hop).trans hchunk.before
      have hresident : w'.store.phaseOf s = .resident p :=
        (congrArg (fun kv : IssuedStore acc n => kv.store.phaseOf s) hkv).trans
          ((phaseOf_apply (tracked_apply hlocated.tracked hop) hissued).trans (if_pos rfl))
      rw [hresident] at hphase
      cases hphase
    · have hcontext'' : (w'.store.ledger.viewOf s).context = some context.completeChunk :=
        (congrArg (fun kv : IssuedStore acc n => (kv.store.ledger.viewOf s).context) hkv).trans
          (contextOf_completePrefillChunk hcontext)
      rw [Option.some.inj (hcontext'.symm.trans hcontext'')]
      rfl
  · have hentries := hchunk.entries s hsr
    apply h s _ context'
    · exact (congrArg Entries.phase hentries).symm.trans hphase
    · exact (congrArg (fun e => (Entries.view e).context) hentries).symm.trans hcontext'
    · intro hmem
      rcases List.mem_cons.mp hmem with heq | hmem
      · exact hsr heq
      · exact hs hmem

omit [PendingOrderPolicy P] in
theorem RestsBut.mono {active active' : List RequestId} (h : RestsBut w p active)
    (hsubset : ∀ r ∈ active, r ∈ active') : RestsBut w p active' :=
  fun r hr => h r fun hmem => hr (hsubset r hmem)

theorem rests_completing {q : Fin n} {active : List RequestId} (hstep : Completing cfg p w w')
    (hlocated : Located cfg w) (h : RestsBut w q active) : RestsBut w' q active := by
  cases hstep with
  | decoded step =>
    have hdecode := hlocated.decodeStep step
    exact h.congr hdecode.phase
      fun r => congrArg (fun ledger => RequestLedger.viewOf ledger r) hdecode.ledger
  | @prefilled _ r completed completed' admitted step =>
    exact rests_completePrefill hlocated admitted step
      (h.mono fun s hs => List.mem_cons_of_mem r hs)
  | cleared =>
    have hall := entriesOf_clear (p := p) hlocated.tracked
    exact h.congr (fun r => congrArg Entries.phase (hall r))
      fun r => congrArg Entries.view (hall r)
  | @finished r resident complete free =>
    have habsent := phaseOf_releaseRetainingPrefix hlocated.tracked resident
    intro s hs context hphase hcontext
    by_cases hsr : s = r
    · have hchunked := habsent.symm.trans (hsr ▸ hphase)
      cases hchunked
    · have hentries := entriesOf_releaseCompleted hlocated.tracked resident hsr
      apply h s hs context
      · exact (congrArg Entries.phase hentries).symm.trans hphase
      · exact (congrArg (fun e => (Entries.view e).context) hentries).symm.trans hcontext

theorem rests_completing_path {q : Fin n} {active : List RequestId}
    (hpath : ReflTransGen (Completing cfg p) w w') (hlocated : Located cfg w)
    (h : RestsBut w q active) : RestsBut w' q active := by
  have hall : Located cfg w' ∧ RestsBut w' q active := by
    induction hpath with
    | refl => exact ⟨hlocated, h⟩
    | tail _ hturn ih => exact ⟨hturn.located ih.1, rests_completing hturn ih.1 ih.2⟩
  exact hall.2

theorem rests_completePartition {events events' : List RequestId} (hlocated : Located cfg w)
    (h : RestsBut w p (w.store.partitions p).prefillAdmits)
    (hstep : completePartition cfg (w, events) p = .ok (w', events')) : RestsBut w' p [] := by
  simp only [completePartition, bind_eq_ok_iff] at hstep
  obtain ⟨⟨decoded, retired⟩, hdecoded, ⟨prefilled, completed⟩, hprefilled, hstep⟩ := hstep
  simp only [pure, Except.pure, Except.ok.injEq, Prod.mk.injEq] at hstep
  obtain ⟨rfl, rfl⟩ := hstep
  have hdecode := hlocated.decodeStep hdecoded
  have hstart : RestsBut decoded p (decoded.store.partitions p).prefillAdmits := by
    rw [hdecode.admits]
    exact rests_completing (.decoded hdecoded) hlocated h
  obtain ⟨hpath, hfinished, hadmits⟩ := completePrefills_path hdecode.located
    (fun r hr => hr) ⟨hdecode.nodup, hdecode.resident, hdecode.complete⟩ hprefilled
  have hall := Run.tryRun_induction
    (I := fun rest (state : ChunkedPrefillWorker P acc n × List RequestId) =>
      Located cfg state.1 ∧
      (∀ r ∈ rest, r ∈ (decoded.store.partitions p).prefillAdmits) ∧
      (∀ q, (state.1.store.partitions q).prefillAdmits =
        (decoded.store.partitions q).prefillAdmits) ∧
      RestsBut state.1 p rest)
    (fun r rest state state' hI hturn => by
      obtain ⟨hat, hmem, hsame, hrests⟩ := hI
      have hr : r ∈ (state.1.store.partitions p).prefillAdmits := by
        rw [hsame]
        exact hmem r List.mem_cons_self
      have hchunk := hat.completePrefill hr hturn
      exact ⟨hchunk.located, fun s hs => hmem s (List.mem_cons_of_mem _ hs),
        fun q => (hchunk.admits q).trans (hsame q), rests_completePrefill hat hr hturn hrests⟩)
    ⟨hdecode.located, fun r hr => hr, fun _ => rfl, hstart⟩ hprefilled
  obtain ⟨hat, -, -, hrests⟩ := hall
  have hcleared : ∀ q,
      ((prefilled.issue (.clearPrefillAdmits p)).store.partitions q).prefillAdmits =
        if q = p then [] else (prefilled.store.partitions q).prefillAdmits := fun q =>
    admits_clearPrefillAdmits prefilled.store p q
  have hsame := fun s => entriesOf_clear (p := p) hat.tracked s
  obtain ⟨hrelease, -, -⟩ := releaseCompleted_path (hat.clear p)
    ((hcleared p).trans (if_pos rfl))
    ⟨hfinished.nodup,
      fun s hs => (congrArg Entries.phase (hsame s)).trans (hfinished.resident s hs),
      hfinished.complete⟩
  exact rests_completing_path hrelease (hat.clear p) (rests_completing .cleared hat hrests)

theorem rests_completeIteration {events : List RequestId} (hlocated : Located cfg w)
    (h : Resting w) (hstep : w.completeIteration cfg = .ok (w', events)) :
    ∀ p, RestsBut w' p [] := by
  have hall := Run.tryRun_induction
    (I := fun rest (state : ChunkedPrefillWorker P acc n × List RequestId) =>
      Located cfg state.1 ∧ rest.Nodup ∧
      ∀ q, if q ∈ rest then RestsBut state.1 q (state.1.store.partitions q).prefillAdmits
        else RestsBut state.1 q [])
    (fun p rest state state' hI hturn => by
      obtain ⟨hat, hnodup, hrests⟩ := hI
      obtain ⟨hnew, hnodup⟩ := List.nodup_cons.mp hnodup
      obtain ⟨hpath, hadmits, -⟩ := completePartition_path hat hturn
      refine ⟨located_of_completing hpath hat, hnodup, ?_⟩
      intro q
      have hq := hrests q
      by_cases hqp : q = p
      · subst hqp
        rw [if_pos List.mem_cons_self] at hq
        rw [if_neg hnew]
        exact rests_completePartition hat hq hturn
      · rw [hadmits, if_neg hqp]
        by_cases hmem : q ∈ rest
        · rw [if_pos (List.mem_cons_of_mem _ hmem)] at hq
          rw [if_pos hmem]
          exact rests_completing_path hpath hat hq
        · have hout : q ∉ p :: rest := by
            rw [List.mem_cons]
            exact not_or.mpr ⟨hqp, hmem⟩
          rw [if_neg hout] at hq
          rw [if_neg hmem]
          exact rests_completing_path hpath hat hq)
    ⟨hlocated, List.nodup_finRange n, fun q => by
      rw [if_pos (List.mem_finRange q)]
      exact h q⟩ hstep
  obtain ⟨-, -, hrests⟩ := hall
  intro p
  have hp := hrests p
  rw [if_neg List.not_mem_nil] at hp
  exact hp

/-! ## Whole steps -/

omit [PendingOrderPolicy P] in
theorem paced_new (cfg : ChunkedPrefillConfig n) (budget : PrefixCacheBudget)
    (requests : Requests) (policies : Fin n → P) (balance : LoadBalance) :
    Paced (ChunkedPrefillWorker.new cfg budget requests policies balance :
      ChunkedPrefillWorker P acc n) := by
  refine ⟨?_, ?_, ?_⟩
  · intro r
    refine ⟨IssuedStore.recorded_new budget r, ?_⟩
    intro e he
    cases he
  · intro p c hc
    cases hc
  · intro p r _ context hphase
    cases hphase

theorem paced_released (hlocated : Located cfg w) (h : Paced w) : Paced (w.releaseRequest r) := by
  rcases releaseRequest_cases w r with ⟨q, -, hw⟩ | ⟨-, episodes, hepisodes, hw⟩
  · rw [hw]
    exact ⟨h.tiled, h.owing, h.resting⟩
  · have hlocated' := hlocated.cancel r
    rw [hw] at hlocated' ⊢
    have hop : StoreOp.Issuable w.store (.releaseExternal r) := trivial
    have habsent : (StoreOp.apply w.store (.releaseExternal r)).phaseOf r = .absent :=
      (phaseOf_apply hlocated.tracked hop).trans (if_pos rfl)
    have hnot : ∀ p, (StoreOp.apply w.store (.releaseExternal r)).phaseOf r ≠ .chunked p := by
      intro p hchunked
      have hphase := habsent.symm.trans hchunked
      cases hphase
    have hprefills : ¬ IssuedStore.Prefills (StoreOp.releaseExternal r : StoreOp n) := id
    have hsame := w.kv.episodes_issue_of_not_prefills hprefills
    have hother := fun s hs => entriesOf_dropped hlocated hepisodes (s := s) hs
    refine ⟨h.tiled.step r hother (fun s _ => hsame s) ((h.tiled r).left (hsame r) hnot),
      h.owing.step r hother ?_, ?_⟩
    · intro p c hc hr
      exact absurd (hr ▸ (hlocated'.at_started hc).phase) (hnot p)
    · intro p s hs context hphase hcontext
      by_cases hsr : s = r
      · exact absurd (hsr ▸ hphase) (hnot p)
      · have hentries := hother s hsr
        apply h.resting p s _ context
        · exact (congrArg Entries.phase hentries).symm.trans hphase
        · exact (congrArg (fun e => (Entries.view e).context) hentries).symm.trans hcontext
        · -- only the cancelled request left the iteration
          intro hmem
          apply hs
          refine (admits_releaseExternal w.store r p).mem_iff.mpr ?_
          split
          · exact (List.mem_erase_of_ne hsr).mpr hmem
          · exact hmem

theorem paced_formBatch {hasBatch : Bool} (hlocated : Located cfg w) (hidle : Idle w)
    (h : Paced w) (hform : w.formBatch cfg = .ok (w', hasBatch)) : Paced w' := by
  obtain ⟨-, hpaced, -⟩ := formBatch_rule (fun _ _ _ _ h => ⟨h.tiled, h.owing, h.resting⟩)
    (fun hstep hlocated hidle h => paced_making hstep hlocated hidle h)
    (fun hstep hlocated h => paced_forming hstep hlocated h) hform hlocated hidle h
  exact hpaced

theorem paced_completeIteration {events : List RequestId} (hlocated : Located cfg w)
    (h : Paced w) (hstep : w.completeIteration cfg = .ok (w', events)) : Paced w' := by
  obtain ⟨hpath, -, hidle⟩ := completeIteration_path hlocated hstep
  have hrests := rests_completeIteration hlocated h.resting hstep
  have hall : Located cfg w' ∧ Tiled w' ∧ Owing w' := by
    clear hrests hidle hstep
    induction hpath with
    | refl => exact ⟨hlocated, h.tiled, h.owing⟩
    | tail _ hturn ih =>
      obtain ⟨p, hturn⟩ := hturn
      exact ⟨hturn.located ih.1, tiled_completing hturn ih.1 ih.2.1,
        owing_completing hturn ih.1 ih.2.2⟩
  refine ⟨hall.2.1, hall.2.2, ?_⟩
  intro p
  rw [hidle p]
  exact hrests p

theorem paced_step {op : WorkerOp} (hsettled : Settled cfg w) (h : Paced w) (hop : op.Enabled w)
    (hstep : op.step cfg w = .ok w') : Paced w' := by
  cases op with
  | enqueue r =>
    have haccept : w.acceptMessage cfg r = .ok w' := hstep
    obtain ⟨p, c, sequence, balance, -, -, -, -, -, rfl⟩ := acceptMessage_spec haccept
    exact ⟨h.tiled, h.owing, h.resting⟩
  | formBatch =>
    obtain ⟨formed, hasBatch, hform, rfl⟩ := WorkerOp.step_formBatch hstep
    have hpaced := paced_formBatch hsettled.located (hsettled.idle hop) h hform
    exact ⟨hpaced.tiled, hpaced.owing, hpaced.resting⟩
  | completeIteration =>
    obtain ⟨completed, events, hcomplete, rfl⟩ := WorkerOp.step_completeIteration hstep
    have hpaced := paced_completeIteration hsettled.located h hcomplete
    exact ⟨hpaced.tiled, hpaced.owing, hpaced.resting⟩
  | release r =>
    obtain rfl := Except.ok.inj hstep
    exact paced_released hsettled.located h

theorem Reached.paced (h : Reached cfg w) : Settled cfg w ∧ Paced w :=
  h.invariant (fun budget requests policies balance _ _ =>
    paced_new cfg budget requests policies balance)
    fun _ _ _ hsettled hpaced hop hstep => paced_step hsettled hpaced hop hstep

end ServingSim
