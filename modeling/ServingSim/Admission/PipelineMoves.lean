import ServingSim.Admission.Pipelined
import ServingSim.Admission.TokenConservation
import ServingSim.Kv.PrefillEpisodes

/-
  Where a request is in a pipeline.

  A request waits, is prefilled, decodes or is done. While it is prefilled its chunks are
  of three kinds: in the microbatch being formed, in flight, or out of the pipeline. The
  store counts the first two as they are committed, the record counts the last, and the
  chunk in flight that ends the prefill is the one that starts the decode.
-/

namespace ServingSim

open KvCacheStore EndToEnd

variable {acc : KvAccounting}

/-! ## Chunks in flight -/

/-- Tokens of chunks that have not left the pipeline. -/
def flown (chunks : List PrefillChunk) : Nat :=
  (chunks.map fun chunk => chunk.chunkTokens).sum

@[simp] theorem flown_nil : flown [] = 0 := rfl

@[simp] theorem flown_cons (chunk : PrefillChunk) (rest : List PrefillChunk) :
    flown (chunk :: rest) = chunk.chunkTokens + flown rest := List.sum_cons

@[simp] theorem flown_append (chunks chunks' : List PrefillChunk) :
    flown (chunks ++ chunks') = flown chunks + flown chunks' := by
  simp [flown]

/-- No chunk is empty, and a chunk is marked as the last where the tokens from `processed`
on reach the prefill's end. -/
def Flies (toCompute : Nat) : Nat → List PrefillChunk → Prop
  | _, [] => True
  | processed, chunk :: rest =>
    0 < chunk.chunkTokens ∧
      (chunk.finishesPrefill = true ↔ processed + chunk.chunkTokens = toCompute) ∧
      Flies toCompute (processed + chunk.chunkTokens) rest

theorem Flies.concat {toCompute processed : Nat} {chunks : List PrefillChunk} {chunk : PrefillChunk}
    (h : Flies toCompute processed chunks) (hpositive : 0 < chunk.chunkTokens)
    (hfinishes : chunk.finishesPrefill = true ↔
      processed + flown chunks + chunk.chunkTokens = toCompute) :
    Flies toCompute processed (chunks ++ [chunk]) := by
  induction chunks generalizing processed with
  | nil => exact ⟨hpositive, hfinishes, trivial⟩
  | cons first rest ih =>
    obtain ⟨hfirst, hmarked, hrest⟩ := h
    refine ⟨hfirst, hmarked, ih hrest ?_⟩
    rw [flown_cons, ← Nat.add_assoc] at hfinishes
    exact hfinishes

theorem Flies.last {toCompute processed : Nat} {chunk : PrefillChunk} {rest : List PrefillChunk}
    (h : Flies toCompute processed (chunk :: rest)) (hfinishes : chunk.finishesPrefill = true)
    (hwithin : processed + flown (chunk :: rest) ≤ toCompute) : rest = [] := by
  obtain ⟨-, hmarked, hrest⟩ := h
  have hend := hmarked.mp hfinishes
  cases rest with
  | nil => rfl
  | cons next rest =>
    obtain ⟨hpositive, -, -⟩ := hrest
    rw [flown_cons, flown_cons] at hwithin
    omega

theorem count_concat_of_ne {r q : RequestId} {l : List RequestId} (h : q ≠ r) :
    (l ++ [q]).count r = l.count r := by
  rw [List.count_append, List.count_singleton]
  simp [h]

theorem ofRequest_of_perm_cons {r : RequestId} {c : AdmissionCandidate}
    {l l' : List AdmissionCandidate} (h : l.Perm (c :: l')) (hle : (ofRequest r l).length ≤ 1) :
    ofRequest r l' = if c.requestId = r then [] else ofRequest r l := by
  by_cases hr : c.requestId = r
  · rw [if_pos hr]
    have hlength : (ofRequest r l).length = (ofRequest r (c :: l')).length := (h.filter _).length_eq
    rw [ofRequest_cons_self hr, List.length_cons] at hlength
    exact List.length_eq_zero_iff.mp (by omega)
  · rw [if_neg hr, ← ofRequest_cons_of_ne hr]
    exact ofRequest_of_perm h.symm hle

/-! ## The head's books -/

/-- What a pipeline head holds of its requests. -/
structure Pipe (acc : KvAccounting) where
  kv : IssuedStore acc 1
  requests : Requests
  waiting : List AdmissionCandidate
  started : List AdmissionCandidate
  scheduled : List RequestId
  /-- The prefills of the microbatch being formed whose chunk is not committed. -/
  admits : List RequestId
  /-- The chunks and the decodes in flight, oldest first. -/
  chunks : List PrefillChunk
  decodes : List RequestId
  inFlight : Finset RequestId

/-- What the books hold of one request. -/
@[ext] structure PipeEntries where
  waiting : List AdmissionCandidate
  started : List AdmissionCandidate
  scheduled : Nat
  chunks : List PrefillChunk
  decodes : Nat
  inFlight : Bool
  admits : Nat
  record : RequestRecord
  phase : Phase 1
  view : RequestView 1
  episodes : List PrefillEpisode

namespace Pipe

def entriesOf (s : Pipe acc) (r : RequestId) : PipeEntries where
  waiting := ofRequest r s.waiting
  started := ofRequest r s.started
  scheduled := s.scheduled.count r
  chunks := s.chunks.filter fun chunk => chunk.request = r
  decodes := s.decodes.count r
  inFlight := decide (r ∈ s.inFlight)
  admits := s.admits.count r
  record := s.requests r
  phase := s.kv.store.phaseOf r
  view := s.kv.store.ledger.viewOf r
  episodes := s.kv.episodes r

end Pipe

/-! ## Places -/

inductive PipePlace where
  | unseen
  | queued (candidate : AdmissionCandidate)
  /-- Reserved, its last chunk not out of the pipeline. -/
  | prefilling (candidate : AdmissionCandidate)
  | decoding
  | done
  deriving DecidableEq, Repr

namespace PipeEntries

/-- No decode step of the request is scheduled or in flight. -/
structure NoDecode (e : PipeEntries) : Prop where
  scheduled : e.scheduled = 0
  decodes : e.decodes = 0
  inFlight : e.inFlight = false

/-- No chunk of the request is to be scheduled, scheduled or in flight. -/
structure NoPrefill (e : PipeEntries) : Prop where
  started : e.started = []
  chunks : e.chunks = []
  admits : e.admits = 0

/-- At most one decode step is scheduled or in flight, and one in flight is known. -/
structure Steps (e : PipeEntries) : Prop where
  once : e.scheduled + e.decodes ≤ 1
  inFlight : e.inFlight = true ↔ 0 < e.decodes

/-- The chunks of the prefill tile it, and what is scheduled, committed and out of the
pipeline adds up. -/
structure InProgress (e : PipeEntries) (c : AdmissionCandidate) (context : ResolvedPrefillContext)
    (episode : PrefillEpisode) : Prop where
  resolved : e.view.context = some context
  episodes : e.episodes = [episode]
  tiling : Tiling episode
  current : Current episode context
  started : e.started =
    if context.processedPrefillTokens + context.activeChunkTokens < context.prefillTokensToCompute
    then [c] else []
  admitted : e.admits ≤ 1
  rest : e.admits = 0 ↔ context.activeChunkTokens = 0
  flies : Flies context.prefillTokensToCompute e.record.prefillTokensProcessed e.chunks
  flown : e.record.prefillTokensProcessed + flown e.chunks = context.processedPrefillTokens
  ahead : e.record.prefillTokensProcessed < context.prefillTokensToCompute

/-- The prefill is over: its one decode started once every chunk was out of the pipeline. -/
def Prefilled (e : PipeEntries) : Prop :=
  ∃ episode, e.episodes = [episode] ∧ Tiling episode ∧ episode.decodes = [episode.toCompute] ∧
    e.record.prefillTokensProcessed = episode.toCompute

end PipeEntries

namespace PipePlace

def waiting : PipePlace → List AdmissionCandidate
  | queued c => [c]
  | _ => []

def phase : PipePlace → Phase 1
  | prefilling _ => .chunked headPartition
  | decoding => .resident headPartition
  | _ => .absent

/-- What the books hold of a request's work. -/
def Account (e : PipeEntries) : PipePlace → Prop
  | unseen | queued _ =>
    e.NoDecode ∧ e.NoPrefill ∧ e.episodes = [] ∧ e.record.prefillTokensProcessed = 0
  | prefilling c => e.NoDecode ∧ ∃ context episode, e.InProgress c context episode
  | decoding => e.Steps ∧ e.NoPrefill ∧ e.Prefilled
  | done => e.NoDecode ∧ e.NoPrefill ∧ e.Prefilled

end PipePlace

/-- The request is in a place. -/
structure PipeAt (e : PipeEntries) (place : PipePlace) : Prop where
  stage : e.record.stage = none ↔ place = .unseen
  waiting : e.waiting = place.waiting
  phase : e.phase = place.phase
  account : place.Account e

namespace Pipe

/-- Every request is in a place. -/
structure Kept (s : Pipe acc) : Prop where
  tracked : s.kv.store.Tracked
  places : ∀ r, ∃ place, PipeAt (s.entriesOf r) place

variable {s s' : Pipe acc} {r : RequestId}

theorem Kept.step (h : s.Kept) (ht : s'.kv.store.Tracked) (q : RequestId)
    (hother : ∀ r, r ≠ q → s'.entriesOf r = s.entriesOf r)
    (hq : ∃ place, PipeAt (s'.entriesOf q) place) : s'.Kept := by
  refine ⟨ht, ?_⟩
  intro r
  by_cases hr : r = q
  · exact hr ▸ hq
  · rw [hother r hr]
    exact h.places r

theorem Kept.still (h : s.Kept) (ht : s'.kv.store.Tracked)
    (hall : ∀ r, s'.entriesOf r = s.entriesOf r) : s'.Kept :=
  ⟨ht, fun r => (hall r).symm ▸ h.places r⟩

theorem entriesOf_issue {op : StoreOp 1} (ht : s.kv.store.Tracked) (hop : op.Issuable s.kv.store)
    (hne : op.subject ≠ some r) (hdrain : op ≠ .drainReady) :
    ({ s with kv := s.kv.issue op } : Pipe acc).entriesOf r = s.entriesOf r := by
  ext1
  case phase => exact (phaseOf_apply ht hop).trans (StoreOp.phaseAfter_of_ne hne hdrain)
  case view => exact view_apply_of_ne _ hne hdrain
  case episodes => exact s.kv.episodes_issue_of_ne hne
  all_goals rfl

/-! ## Requests found in the books -/

theorem Kept.length_waiting_le (h : s.Kept) (r : RequestId) :
    (ofRequest r s.waiting).length ≤ 1 := by
  obtain ⟨place, hat⟩ := h.places r
  have hwaiting : ofRequest r s.waiting = place.waiting := hat.waiting
  rw [hwaiting]
  cases place with
  | queued c => exact Nat.le_refl 1
  | unseen | prefilling _ | decoding | done => exact Nat.zero_le 1

theorem Kept.at_unseen (h : s.Kept) (hr : (s.requests r).stage = none) :
    PipeAt (s.entriesOf r) .unseen := by
  obtain ⟨place, hat⟩ := h.places r
  obtain rfl := hat.stage.mp hr
  exact hat

variable {c : AdmissionCandidate}

theorem Kept.at_waiting (h : s.Kept) (hc : c ∈ s.waiting) :
    PipeAt (s.entriesOf c.requestId) (.queued c) := by
  obtain ⟨place, hat⟩ := h.places c.requestId
  have hin : c ∈ place.waiting := hat.waiting ▸ mem_ofRequest.mpr ⟨hc, rfl⟩
  cases place with
  | queued d =>
    obtain rfl := List.mem_singleton.mp hin
    exact hat
  | unseen | prefilling _ | decoding | done => cases hin

theorem Kept.at_started (h : s.Kept) (hc : c ∈ s.started) :
    PipeAt (s.entriesOf c.requestId) (.prefilling c) := by
  obtain ⟨place, hat⟩ := h.places c.requestId
  have hin : c ∈ (s.entriesOf c.requestId).started := mem_ofRequest.mpr ⟨hc, rfl⟩
  have haccount := hat.account
  cases place with
  | prefilling d =>
    obtain ⟨-, context, episode, hprogress⟩ := haccount
    rw [hprogress.started] at hin
    split at hin
    · obtain rfl := List.mem_singleton.mp hin
      exact hat
    · cases hin
  | unseen | queued _ | decoding | done =>
    obtain ⟨-, hnone, -⟩ := haccount
    rw [hnone.started] at hin
    cases hin

theorem Kept.at_resident (h : s.Kept) (hr : s.kv.store.phaseOf r = .resident headPartition) :
    PipeAt (s.entriesOf r) .decoding := by
  obtain ⟨place, hat⟩ := h.places r
  have hphase : place.phase = .resident headPartition := hat.phase.symm.trans hr
  cases place with
  | decoding => exact hat
  | unseen | queued _ | prefilling _ | done => cases hphase

theorem Kept.at_admit (h : s.Kept) (hr : r ∈ s.admits) :
    ∃ c, PipeAt (s.entriesOf r) (.prefilling c) := by
  obtain ⟨place, hat⟩ := h.places r
  have hpositive : 0 < (s.entriesOf r).admits := List.count_pos_iff.mpr hr
  have haccount := hat.account
  cases place with
  | prefilling c => exact ⟨c, hat⟩
  | unseen | queued _ | decoding | done =>
    obtain ⟨-, hprefill, -⟩ := haccount
    have hnone := hprefill.admits
    omega

theorem Kept.at_chunk (h : s.Kept) {chunk : PrefillChunk} (hchunk : chunk ∈ s.chunks) :
    ∃ c, PipeAt (s.entriesOf chunk.request) (.prefilling c) := by
  obtain ⟨place, hat⟩ := h.places chunk.request
  have hin : chunk ∈ (s.entriesOf chunk.request).chunks :=
    List.mem_filter.mpr ⟨hchunk, decide_eq_true rfl⟩
  have haccount := hat.account
  cases place with
  | prefilling c => exact ⟨c, hat⟩
  | unseen | queued _ | decoding | done =>
    obtain ⟨-, hnone, -⟩ := haccount
    rw [hnone.chunks] at hin
    cases hin

theorem Kept.at_decode (h : s.Kept) (hr : r ∈ s.decodes) : PipeAt (s.entriesOf r) .decoding := by
  obtain ⟨place, hat⟩ := h.places r
  have hpositive : 0 < (s.entriesOf r).decodes := List.count_pos_iff.mpr hr
  have haccount := hat.account
  cases place with
  | decoding => exact hat
  | unseen | queued _ | prefilling _ | done =>
    have hnone := haccount.1.decodes
    omega

/-! ## Waiting -/

theorem Kept.arrived (h : s.Kept) {waiting : List AdmissionCandidate}
    (hunseen : (s.requests c.requestId).stage = none) (henters : waiting.Perm (c :: s.waiting)) :
    ({ s with
      requests := Function.update s.requests c.requestId
        ((s.requests c.requestId).stampStage .pending)
      waiting := waiting } : Pipe acc).Kept := by
  have hat := h.at_unseen hunseen
  refine h.step h.tracked c.requestId ?_ ⟨.queued c, ?_⟩
  · intro r hr
    have hle : (ofRequest r (c :: s.waiting)).length ≤ 1 := by
      rw [ofRequest_cons_of_ne hr.symm]
      exact h.length_waiting_le r
    ext1
    case waiting => exact (ofRequest_of_perm henters hle).trans (ofRequest_cons_of_ne hr.symm _)
    case record => exact Function.update_of_ne hr ..
    all_goals rfl
  · have hwaiting : ofRequest c.requestId s.waiting = [] := hat.waiting
    have hrecord : Function.update s.requests c.requestId
        ((s.requests c.requestId).stampStage .pending) c.requestId =
        (s.requests c.requestId).stampStage .pending := Function.update_self ..
    have hcons : ofRequest c.requestId (c :: s.waiting) = [c] := by
      rw [ofRequest_cons_self rfl, hwaiting]
    obtain ⟨hdecode, hprefill, hepisodes, hprocessed⟩ := hat.account
    refine ⟨?_, ?_, hat.phase, ⟨⟨hdecode.scheduled, hdecode.decodes, hdecode.inFlight⟩,
      ⟨hprefill.started, hprefill.chunks, hprefill.admits⟩, hepisodes, ?_⟩⟩
    · refine iff_of_false ?_ fun heq => by cases heq
      intro hnone
      have hstage := (congrArg RequestRecord.stage hrecord).symm.trans hnone
      cases hstage
    · refine (ofRequest_of_perm henters ?_).trans hcons
      rw [hcons]
      exact Nat.le_refl 1
    · show (Function.update s.requests c.requestId _ c.requestId).prefillTokensProcessed = 0
      rw [hrecord]
      exact hprocessed

theorem Kept.reordered (h : s.Kept) {waiting : List AdmissionCandidate}
    (horder : waiting.Perm s.waiting) : ({ s with waiting := waiting } : Pipe acc).Kept := by
  refine h.still h.tracked ?_
  intro r
  ext1
  case waiting => exact ofRequest_of_perm horder (h.length_waiting_le r)
  all_goals rfl

/-! ## Scheduling -/

theorem Kept.selected (h : s.Kept) {scheduled : List RequestId} (honce : scheduled.Nodup)
    (hlive : ∀ r ∈ scheduled, s.kv.store.phaseOf r = .resident headPartition)
    (hready : ∀ r ∈ scheduled, r ∉ s.inFlight) :
    ({ s with scheduled := scheduled } : Pipe acc).Kept := by
  refine ⟨h.tracked, ?_⟩
  intro r
  obtain ⟨place, hat⟩ := h.places r
  have hnone : place.phase ≠ .resident headPartition → scheduled.count r = 0 := by
    intro hphase
    rw [List.count_eq_zero]
    intro hr
    exact hphase (hat.phase.symm.trans (hlive r hr))
  have haccount := hat.account
  refine ⟨place, hat.stage, hat.waiting, hat.phase, ?_⟩
  cases place with
  | unseen | queued _ | done =>
    obtain ⟨hdecode, hprefill, hrest⟩ := haccount
    refine ⟨⟨hnone ?_, hdecode.decodes, hdecode.inFlight⟩,
      ⟨hprefill.started, hprefill.chunks, hprefill.admits⟩, hrest⟩
    intro heq
    cases heq
  | prefilling c =>
    obtain ⟨hdecode, context, episode, hprogress⟩ := haccount
    refine ⟨⟨hnone ?_, hdecode.decodes, hdecode.inFlight⟩, context, episode, hprogress.resolved,
      hprogress.episodes, hprogress.tiling, hprogress.current, hprogress.started,
      hprogress.admitted, hprogress.rest, hprogress.flies, hprogress.flown, hprogress.ahead⟩
    intro heq
    cases heq
  | decoding =>
    obtain ⟨hsteps, hprefill, hrest⟩ := haccount
    refine ⟨⟨?_, hsteps.inFlight⟩, ⟨hprefill.started, hprefill.chunks, hprefill.admits⟩, hrest⟩
    show scheduled.count r + s.decodes.count r ≤ 1
    have hle := List.nodup_iff_count_le_one.mp honce r
    have honceBefore : s.scheduled.count r + s.decodes.count r ≤ 1 := hsteps.once
    by_cases hr : r ∈ scheduled
    · have hflying : ¬ 0 < s.decodes.count r := by
        intro hpositive
        exact hready r hr (of_decide_eq_true (hsteps.inFlight.mpr hpositive))
      omega
    · rw [List.count_eq_zero.mpr hr]
      omega

theorem Kept.chunk (h : s.Kept) {before after : List AdmissionCandidate} {c : AdmissionCandidate}
    {context : ResolvedPrefillContext} {tokens : Nat} (hstarted : s.started = before ++ c :: after)
    (hfresh : c.requestId ∉ s.admits)
    (hcontext : (s.kv.store.ledger.viewOf c.requestId).context = some context)
    (hpositive : 0 < tokens) (hfit : tokens ≤ context.remainingPrefillTokens) :
    ({ s with
      kv := s.kv.issue (.schedulePrefillChunk c.requestId headPartition tokens)
      admits := s.admits ++ [c.requestId]
      started := before ++ (if tokens < context.remainingPrefillTokens then [c] else []) ++
        after } : Pipe acc).Kept := by
  have hat := h.at_started (c := c) (by simp [hstarted])
  have hphase : s.kv.store.phaseOf c.requestId = .chunked headPartition := hat.phase
  have hop : StoreOp.Issuable s.kv.store (.schedulePrefillChunk c.requestId headPartition tokens) :=
    hphase
  refine h.step (tracked_apply h.tracked hop) c.requestId ?_ ⟨.prefilling c, ?_⟩
  · intro r hr
    refine Eq.trans ?_ (entriesOf_issue (s := s) (r := r) h.tracked hop
      (by simpa [StoreOp.subject] using hr.symm) (by simp))
    ext1
    case started =>
      show ofRequest r (before ++ _ ++ after) = ofRequest r s.started
      rw [hstarted, ofRequest_append, ofRequest_append, ofRequest_append,
        ofRequest_cons_of_ne hr.symm]
      split
      · rw [ofRequest_cons_of_ne hr.symm]
        simp [ofRequest]
      · simp [ofRequest]
    case admits => exact count_concat_of_ne hr.symm
    all_goals rfl
  · obtain ⟨hdecode, old, episode, hprogress⟩ := hat.account
    obtain rfl : old = context := Option.some.inj (hprogress.resolved.symm.trans hcontext)
    have hrest : old.activeChunkTokens = 0 := hprogress.rest.mp (List.count_eq_zero.mpr hfresh)
    obtain ⟨htiling, hcurrent⟩ := hprogress.tiling.scheduled hprogress.current hrest hpositive hfit
    have hnext := contextOf_schedulePrefillChunk s.kv.store c.requestId headPartition tokens
      hcontext
    have hepisodes : s.kv.episodes c.requestId = [] ++ [episode] := hprogress.episodes
    have hlast := IssuedStore.episodes_issue_last hepisodes
      (IssuedStore.observe_schedule s.kv.store headPartition tokens [] episode)
    rw [show ((StoreOp.apply s.kv.store (.schedulePrefillChunk c.requestId headPartition
      tokens)).ledger.viewOf c.requestId).context = _ from hnext] at hlast
    -- more is owed than was scheduled, so the request stood in the list, once
    have hwas : ofRequest c.requestId s.started = [c] := by
      refine hprogress.started.trans (if_pos ?_)
      rw [ResolvedPrefillContext.remainingPrefillTokens] at hfit
      omega
    have hnone : ofRequest c.requestId before = [] ∧ ofRequest c.requestId after = [] := by
      have hlength := congrArg List.length hwas
      rw [hstarted, ofRequest_append, ofRequest_cons_self rfl] at hlength
      simp only [List.length_append, List.length_cons, List.length_nil] at hlength
      exact ⟨List.length_eq_zero_iff.mp (by omega), List.length_eq_zero_iff.mp (by omega)⟩
    refine ⟨hat.stage, hat.waiting, (phaseOf_apply h.tracked hop).trans hphase,
      ⟨hdecode.scheduled, hdecode.decodes, hdecode.inFlight⟩, old.scheduleChunk tokens, _, hnext,
      hlast, htiling, hcurrent, ?_, ?_, ?_, hprogress.flies, hprogress.flown, hprogress.ahead⟩
    · show ofRequest c.requestId (before ++ _ ++ after) = _
      rw [ofRequest_append, ofRequest_append, hnone.1, hnone.2, List.nil_append, List.append_nil]
      have hsame : tokens < old.remainingPrefillTokens ↔
          old.processedPrefillTokens + tokens < old.prefillTokensToCompute := by
        rw [ResolvedPrefillContext.remainingPrefillTokens] at hfit ⊢
        omega
      by_cases hmore : tokens < old.remainingPrefillTokens
      · rw [if_pos hmore, ofRequest_cons_self rfl]
        exact (if_pos (hsame.mp hmore)).symm
      · rw [if_neg hmore]
        exact (if_neg (fun hlt => hmore (hsame.mpr hlt))).symm
    · show (s.admits ++ [c.requestId]).count c.requestId ≤ 1
      rw [List.count_append, List.count_eq_zero.mpr hfresh, List.count_singleton_self]
    · show (s.admits ++ [c.requestId]).count c.requestId = 0 ↔ tokens = 0
      rw [List.count_append, List.count_singleton_self]
      omega

theorem Kept.admitted (h : s.Kept) {c : AdmissionCandidate} {waiting : List AdmissionCandidate}
    {resolved : ResolvedPrefillContext} (footprint : KvFootprint) {tokens : Nat}
    {record : RequestRecord} (hleaves : s.waiting.Perm (c :: waiting))
    (hnew : resolved.processedPrefillTokens = 0) (hpositive : 0 < tokens)
    (hfit : tokens ≤ resolved.remainingPrefillTokens)
    (hprocessed : record.prefillTokensProcessed = (s.requests c.requestId).prefillTokensProcessed)
    (hstage : record.stage ≠ none) :
    ({ s with
      kv := (s.kv.issue (.reserveChunkedPrefillContext c.requestId headPartition resolved
        footprint)).issue (.schedulePrefillChunk c.requestId headPartition tokens)
      requests := Function.update s.requests c.requestId record
      waiting := waiting
      admits := s.admits ++ [c.requestId]
      started := s.started ++ if tokens < resolved.remainingPrefillTokens then [c] else [] } :
        Pipe acc).Kept := by
  have hat := h.at_waiting (hleaves.mem_iff.mpr List.mem_cons_self)
  obtain ⟨hdecode, hprefill, hnoEpisodes, hnoTokens⟩ := hat.account
  have hop : StoreOp.Issuable s.kv.store
      (.reserveChunkedPrefillContext c.requestId headPartition resolved footprint) := hat.phase
  have ht := tracked_apply h.tracked hop
  have hchunked : (s.kv.issue (.reserveChunkedPrefillContext c.requestId headPartition resolved
      footprint)).store.phaseOf c.requestId = .chunked headPartition :=
    (phaseOf_apply h.tracked hop).trans (if_pos rfl)
  have hop' : StoreOp.Issuable (s.kv.issue (.reserveChunkedPrefillContext c.requestId headPartition
      resolved footprint)).store (.schedulePrefillChunk c.requestId headPartition tokens) :=
    hchunked
  have hwaiting := fun r => ofRequest_of_perm_cons hleaves (h.length_waiting_le r)
  -- two operations on one request: every other keeps its entries through both
  refine h.step (tracked_apply ht hop') c.requestId ?_ ⟨.prefilling c, ?_⟩
  · intro r hr
    have hne : (some c.requestId : Option RequestId) ≠ some r := by simpa using hr.symm
    have hreserved := entriesOf_issue (s := s) (r := r) h.tracked hop hne (by simp)
    refine Eq.trans ?_ hreserved
    refine Eq.trans ?_ (entriesOf_issue
      (s := { s with kv := s.kv.issue (.reserveChunkedPrefillContext c.requestId headPartition
        resolved footprint) }) (r := r) ht hop' hne (by simp))
    ext1
    case waiting => exact (hwaiting r).trans (if_neg hr.symm)
    case started =>
      show ofRequest r (s.started ++ _) = ofRequest r s.started
      rw [ofRequest_append]
      split
      · rw [ofRequest_cons_of_ne hr.symm]
        simp [ofRequest]
      · simp [ofRequest]
    case admits => exact count_concat_of_ne hr.symm
    case record => exact Function.update_of_ne hr ..
    all_goals rfl
  · obtain ⟨metadata, hcontext⟩ :=
      contextOf_firstChunk s.kv.store c.requestId headPartition resolved footprint tokens
    obtain ⟨htiling, hcurrent⟩ := Tiling.opened metadata hnew hpositive hfit
    have hopened : (s.kv.issue (.reserveChunkedPrefillContext c.requestId headPartition resolved
        footprint)).episodes c.requestId = [] ++ [.opened resolved] := by
      rw [IssuedStore.episodes_issue]
      refine (if_pos rfl).trans ?_
      exact congrArg (· ++ [PrefillEpisode.opened resolved]) hnoEpisodes
    have hlast := IssuedStore.episodes_issue_last hopened
      (IssuedStore.observe_schedule _ headPartition tokens [] _)
    rw [show ((StoreOp.apply (s.kv.issue (.reserveChunkedPrefillContext c.requestId headPartition
      resolved footprint)).store (.schedulePrefillChunk c.requestId headPartition
      tokens)).ledger.viewOf c.requestId).context = _ from hcontext] at hlast
    have hrecord : Function.update s.requests c.requestId record c.requestId = record :=
      Function.update_self ..
    -- nothing of it is in flight, so the record stands where the context starts
    have hzero : record.prefillTokensProcessed = 0 := hprocessed.trans hnoTokens
    have hchunks : s.chunks.filter (fun chunk => chunk.request = c.requestId) = [] :=
      hprefill.chunks
    have hstarted : ofRequest c.requestId s.started = [] := hprefill.started
    have hcount : s.admits.count c.requestId = 0 := hprefill.admits
    rw [ResolvedPrefillContext.remainingPrefillTokens] at hfit
    refine ⟨iff_of_false ?_ (fun heq => by cases heq), (hwaiting c.requestId).trans (if_pos rfl),
      (phaseOf_apply ht hop').trans hchunked,
      ⟨hdecode.scheduled, hdecode.decodes, hdecode.inFlight⟩, _, _, hcontext, hlast, htiling,
      hcurrent, ?_, ?_, ?_, ?_, ?_, ?_⟩
    · intro hnone
      exact hstage ((congrArg RequestRecord.stage hrecord).symm.trans hnone)
    · show ofRequest c.requestId (s.started ++ _) =
        if resolved.processedPrefillTokens + tokens < resolved.prefillTokensToCompute then [c]
          else []
      rw [ofRequest_append, hstarted, List.nil_append, hnew, Nat.zero_add,
        ResolvedPrefillContext.remainingPrefillTokens, hnew, Nat.sub_zero]
      split
      · exact ofRequest_cons_self rfl []
      · rfl
    · show (s.admits ++ [c.requestId]).count c.requestId ≤ 1
      rw [List.count_append, hcount, List.count_singleton_self]
    · show (s.admits ++ [c.requestId]).count c.requestId = 0 ↔ tokens = 0
      rw [List.count_append, List.count_singleton_self]
      omega
    · show Flies _ _ (s.chunks.filter fun chunk => chunk.request = c.requestId)
      rw [hchunks]
      trivial
    · show (Function.update s.requests c.requestId record c.requestId).prefillTokensProcessed +
        flown (s.chunks.filter fun chunk => chunk.request = c.requestId) =
          resolved.processedPrefillTokens
      rw [hrecord, hchunks, hzero, hnew]
      rfl
    · show (Function.update s.requests c.requestId record c.requestId).prefillTokensProcessed <
        resolved.prefillTokensToCompute
      rw [hrecord, hzero]
      omega

/-! ## Committing -/

theorem Kept.committedDecodes (h : s.Kept) : ({ s with
      decodes := s.decodes ++ s.scheduled
      inFlight := s.inFlight ∪ s.scheduled.toFinset
      scheduled := [] } : Pipe acc).Kept := by
  refine ⟨h.tracked, ?_⟩
  intro r
  obtain ⟨place, hat⟩ := h.places r
  have hflying : r ∈ s.inFlight ∪ s.scheduled.toFinset ↔
      r ∈ s.inFlight ∨ 0 < s.scheduled.count r := by
    rw [Finset.mem_union, List.mem_toFinset, List.count_pos_iff]
  have hnone : (s.entriesOf r).NoDecode → (({ s with
      decodes := s.decodes ++ s.scheduled
      inFlight := s.inFlight ∪ s.scheduled.toFinset
      scheduled := [] } : Pipe acc).entriesOf r).NoDecode := by
    intro hdecode
    have hscheduled : s.scheduled.count r = 0 := hdecode.scheduled
    refine ⟨rfl, ?_, ?_⟩
    · show (s.decodes ++ s.scheduled).count r = 0
      rw [List.count_append, hscheduled]
      exact hdecode.decodes
    · refine decide_eq_false fun hmem => ?_
      rcases hflying.mp hmem with hin | hpositive
      · exact of_decide_eq_false hdecode.inFlight hin
      · omega
  have haccount := hat.account
  refine ⟨place, hat.stage, hat.waiting, hat.phase, ?_⟩
  cases place with
  | unseen | queued _ | done =>
    obtain ⟨hdecode, hprefill, hrest⟩ := haccount
    exact ⟨hnone hdecode, ⟨hprefill.started, hprefill.chunks, hprefill.admits⟩, hrest⟩
  | prefilling c =>
    obtain ⟨hdecode, context, episode, hprogress⟩ := haccount
    exact ⟨hnone hdecode, context, episode, hprogress.resolved, hprogress.episodes,
      hprogress.tiling, hprogress.current, hprogress.started, hprogress.admitted, hprogress.rest,
      hprogress.flies, hprogress.flown, hprogress.ahead⟩
  | decoding =>
    obtain ⟨hsteps, hprefill, hrest⟩ := haccount
    have honce : s.scheduled.count r + s.decodes.count r ≤ 1 := hsteps.once
    have hknown : r ∈ s.inFlight ↔ 0 < s.decodes.count r :=
      ⟨fun hin => hsteps.inFlight.mp (decide_eq_true hin),
        fun hpositive => of_decide_eq_true (hsteps.inFlight.mpr hpositive)⟩
    refine ⟨⟨?_, ?_⟩, ⟨hprefill.started, hprefill.chunks, hprefill.admits⟩, hrest⟩
    · show 0 + (s.decodes ++ s.scheduled).count r ≤ 1
      rw [List.count_append]
      omega
    · show decide (r ∈ s.inFlight ∪ s.scheduled.toFinset) = true ↔
        0 < (s.decodes ++ s.scheduled).count r
      rw [decide_eq_true_iff, hflying, hknown, List.count_append]
      omega

theorem Kept.committed (h : s.Kept) {rest : List RequestId} (hadmits : s.admits = r :: rest)
    {context : ResolvedPrefillContext}
    (hcontext : (s.kv.store.ledger.viewOf r).context = some context) :
    ({ s with
      kv := s.kv.issue (.completePrefillChunk r)
      admits := rest
      chunks := s.chunks ++ [⟨r, context.activeChunkTokens,
        decide (context.completeChunk.remainingPrefillTokens = 0)⟩] } : Pipe acc).Kept := by
  obtain ⟨c, hat⟩ := h.at_admit (hadmits ▸ List.mem_cons_self)
  have hphase : s.kv.store.phaseOf r = .chunked headPartition := hat.phase
  have hop := issuable_completePrefillChunk hphase
  refine h.step (tracked_apply h.tracked hop) r ?_ ⟨.prefilling c, ?_⟩
  · intro t ht
    refine Eq.trans ?_ (entriesOf_issue (s := s) (r := t) h.tracked hop
      (by simpa [StoreOp.subject] using ht.symm) (by simp))
    ext1
    case chunks =>
      show (s.chunks ++ [_]).filter _ = s.chunks.filter _
      rw [List.filter_append]
      simp [ht.symm]
    case admits =>
      show rest.count t = s.admits.count t
      rw [hadmits, List.count_cons_of_ne ht.symm]
    all_goals rfl
  · obtain ⟨hdecode, old, episode, hprogress⟩ := hat.account
    obtain rfl : old = context := Option.some.inj (hprogress.resolved.symm.trans hcontext)
    have hcount : (s.entriesOf r).admits = rest.count r + 1 := by
      show s.admits.count r = _
      rw [hadmits, List.count_cons_self]
    have honce := hprogress.admitted
    have hpositive : 0 < old.activeChunkTokens := by
      have hactive := hprogress.rest.not.mp (by omega)
      exact Nat.pos_of_ne_zero hactive
    have hlastAdmit : rest.count r = 0 := by omega
    obtain ⟨htiling, hcurrent⟩ := hprogress.tiling.advanced hprogress.current
    have hepisodes : s.kv.episodes r = [] ++ [episode] := hprogress.episodes
    have hlast := IssuedStore.episodes_issue_last hepisodes
      (IssuedStore.observe_complete s.kv.store [] episode)
    rw [hcontext] at hlast
    have hchunks : (s.chunks ++ [PrefillChunk.mk r old.activeChunkTokens
        (decide (old.completeChunk.remainingPrefillTokens = 0))]).filter
          (fun chunk => chunk.request = r) =
        (s.entriesOf r).chunks ++ [⟨r, old.activeChunkTokens,
          decide (old.completeChunk.remainingPrefillTokens = 0)⟩] := by
      rw [List.filter_append]
      simp [Pipe.entriesOf]
    -- the store has not scheduled more than the prefill needs
    have hwithin : old.processedPrefillTokens + old.activeChunkTokens ≤
        old.prefillTokensToCompute := by
      rw [← hprogress.current.scheduled, ← hprogress.current.toCompute]
      exact hprogress.tiling.within
    have hflown := hprogress.flown
    refine ⟨hat.stage, hat.waiting, (phaseOf_apply h.tracked hop).trans hphase,
      ⟨hdecode.scheduled, hdecode.decodes, hdecode.inFlight⟩, old.completeChunk, _,
      contextOf_completePrefillChunk hcontext, hlast, htiling, hcurrent, hprogress.started,
      hlastAdmit.trans_le (Nat.zero_le 1), iff_of_true hlastAdmit rfl, ?_, ?_, hprogress.ahead⟩
    · show Flies old.prefillTokensToCompute _ ((s.chunks ++ [_]).filter _)
      rw [hchunks]
      refine hprogress.flies.concat hpositive ?_
      show decide (old.prefillTokensToCompute -
        (old.processedPrefillTokens + old.activeChunkTokens) = 0) = true ↔
          _ + _ + old.activeChunkTokens = old.prefillTokensToCompute
      rw [hflown, decide_eq_true_iff]
      omega
    · show _ + flown ((s.chunks ++ [_]).filter _) =
        old.processedPrefillTokens + old.activeChunkTokens
      rw [hchunks, flown_append, ← Nat.add_assoc]
      exact congrArg (· + old.activeChunkTokens) hflown

theorem Kept.cleared (h : s.Kept) :
    ({ s with kv := s.kv.issue (.clearPrefillAdmits headPartition) } : Pipe acc).Kept := by
  have hop : StoreOp.Issuable s.kv.store (.clearPrefillAdmits headPartition) := trivial
  refine h.still (tracked_apply h.tracked hop) ?_
  intro r
  exact entriesOf_issue h.tracked hop (by simp [StoreOp.subject]) (by simp)

/-! ## Leaving the pipeline -/

theorem Kept.noted (h : s.Kept) {record : RequestRecord}
    (hprocessed : record.prefillTokensProcessed = (s.requests r).prefillTokensProcessed)
    (hstage : record.stage = none ↔ (s.requests r).stage = none) :
    ({ s with requests := Function.update s.requests r record } : Pipe acc).Kept := by
  refine h.step h.tracked r ?_ ?_
  · intro t ht
    ext1
    case record => exact Function.update_of_ne ht ..
    all_goals rfl
  · obtain ⟨place, hat⟩ := h.places r
    have hrecord : Function.update s.requests r record r = record := Function.update_self ..
    have hsame : (Function.update s.requests r record r).prefillTokensProcessed =
        (s.requests r).prefillTokensProcessed := by
      rw [hrecord]
      exact hprocessed
    have haccount := hat.account
    refine ⟨place, ?_, hat.waiting, hat.phase, ?_⟩
    · refine Iff.trans ?_ hat.stage
      show (Function.update s.requests r record r).stage = none ↔ _
      rw [hrecord]
      exact hstage
    · cases place with
      | unseen | queued _ =>
        obtain ⟨hdecode, hprefill, hempty, hzero⟩ := haccount
        exact ⟨⟨hdecode.scheduled, hdecode.decodes, hdecode.inFlight⟩,
          ⟨hprefill.started, hprefill.chunks, hprefill.admits⟩, hempty, hsame.trans hzero⟩
      | prefilling c =>
        obtain ⟨hdecode, context, episode, hprogress⟩ := haccount
        refine ⟨⟨hdecode.scheduled, hdecode.decodes, hdecode.inFlight⟩, context, episode,
          hprogress.resolved, hprogress.episodes, hprogress.tiling, hprogress.current,
          hprogress.started, hprogress.admitted, hprogress.rest, ?_, ?_, ?_⟩
        · exact (congrArg (fun processed => Flies _ processed _) hsame).mpr hprogress.flies
        · exact (congrArg (· + _) hsame).trans hprogress.flown
        · exact hsame.trans_lt hprogress.ahead
      | decoding =>
        obtain ⟨hsteps, hprefill, episode, hepisodes, htiling, hdecodes, hended⟩ := haccount
        exact ⟨⟨hsteps.once, hsteps.inFlight⟩,
          ⟨hprefill.started, hprefill.chunks, hprefill.admits⟩, episode, hepisodes, htiling,
          hdecodes, hsame.trans hended⟩
      | done =>
        obtain ⟨hdecode, hprefill, episode, hepisodes, htiling, hdecodes, hended⟩ := haccount
        exact ⟨⟨hdecode.scheduled, hdecode.decodes, hdecode.inFlight⟩,
          ⟨hprefill.started, hprefill.chunks, hprefill.admits⟩, episode, hepisodes, htiling,
          hdecodes, hsame.trans hended⟩

theorem Kept.issuable_advance (h : s.Kept) {ids : List RequestId}
    (hlive : ∀ r ∈ ids, s.kv.store.phaseOf r = .resident headPartition) :
    StoreOp.Issuable s.kv.store (.advance (.requestSubset headPartition ids) 1) := by
  intro r hr
  have hplacement := (h.tracked r).placement
  rw [hlive r hr] at hplacement
  exact hplacement

theorem Kept.advanced (h : s.Kept) {ids : List RequestId}
    (hlive : ∀ r ∈ ids, s.kv.store.phaseOf r = .resident headPartition) :
    ({ s with kv := s.kv.issue (.advance (.requestSubset headPartition ids) 1) } :
      Pipe acc).Kept := by
  have hop := h.issuable_advance hlive
  refine h.still (tracked_apply h.tracked hop) ?_
  intro r
  exact entriesOf_issue h.tracked hop (by simp [StoreOp.subject]) (by simp)

theorem Kept.returned (h : s.Kept) {ids rest : List RequestId} (hold : s.decodes = ids ++ rest) :
    ({ s with decodes := rest, inFlight := s.inFlight \ ids.toFinset } : Pipe acc).Kept := by
  refine ⟨h.tracked, ?_⟩
  intro r
  obtain ⟨place, hat⟩ := h.places r
  have hcount : s.decodes.count r = ids.count r + rest.count r := by
    rw [hold, List.count_append]
  have hflying : r ∈ s.inFlight \ ids.toFinset ↔ r ∈ s.inFlight ∧ ¬ 0 < ids.count r := by
    rw [Finset.mem_sdiff, List.mem_toFinset, List.count_pos_iff]
  have hnone : (s.entriesOf r).NoDecode → (({ s with
      decodes := rest
      inFlight := s.inFlight \ ids.toFinset } : Pipe acc).entriesOf r).NoDecode := by
    intro hdecode
    have hdecodes : s.decodes.count r = 0 := hdecode.decodes
    refine ⟨hdecode.scheduled, ?_, ?_⟩
    · show rest.count r = 0
      omega
    · exact decide_eq_false fun hmem =>
        of_decide_eq_false hdecode.inFlight (hflying.mp hmem).1
  have haccount := hat.account
  refine ⟨place, hat.stage, hat.waiting, hat.phase, ?_⟩
  cases place with
  | unseen | queued _ | done =>
    obtain ⟨hdecode, hprefill, hrest⟩ := haccount
    exact ⟨hnone hdecode, ⟨hprefill.started, hprefill.chunks, hprefill.admits⟩, hrest⟩
  | prefilling c =>
    obtain ⟨hdecode, context, episode, hprogress⟩ := haccount
    exact ⟨hnone hdecode, context, episode, hprogress.resolved, hprogress.episodes,
      hprogress.tiling, hprogress.current, hprogress.started, hprogress.admitted, hprogress.rest,
      hprogress.flies, hprogress.flown, hprogress.ahead⟩
  | decoding =>
    obtain ⟨hsteps, hprefill, hrest⟩ := haccount
    have honce : s.scheduled.count r + s.decodes.count r ≤ 1 := hsteps.once
    have hknown : r ∈ s.inFlight ↔ 0 < s.decodes.count r :=
      ⟨fun hin => hsteps.inFlight.mp (decide_eq_true hin),
        fun hpositive => of_decide_eq_true (hsteps.inFlight.mpr hpositive)⟩
    refine ⟨⟨?_, ?_⟩, ⟨hprefill.started, hprefill.chunks, hprefill.admits⟩, hrest⟩
    · show s.scheduled.count r + rest.count r ≤ 1
      omega
    · show decide (r ∈ s.inFlight \ ids.toFinset) = true ↔ 0 < rest.count r
      rw [decide_eq_true_iff, hflying, hknown]
      omega

theorem Kept.released (h : s.Kept) (hresident : s.kv.store.phaseOf r = .resident headPartition)
    (hscheduled : r ∉ s.scheduled) (hdecodes : r ∉ s.decodes) :
    ({ s with kv := s.kv.issue (.releaseRetainingPrefix r headPartition) } : Pipe acc).Kept := by
  have hat := h.at_resident hresident
  have hop := issuable_releaseRetainingPrefix hresident
  have hnot : ¬ IssuedStore.Prefills (StoreOp.releaseRetainingPrefix r headPartition) := id
  refine h.step (tracked_apply h.tracked hop) r ?_ ⟨.done, ?_⟩
  · intro t ht
    exact entriesOf_issue h.tracked hop (by simpa [StoreOp.subject] using ht.symm) (by simp)
  · obtain ⟨hsteps, hprefill, episode, hepisodes, hrest⟩ := hat.account
    have hcount : s.decodes.count r = 0 := List.count_eq_zero.mpr hdecodes
    refine ⟨?_, hat.waiting, (phaseOf_apply h.tracked hop).trans (if_pos rfl),
      ⟨List.count_eq_zero.mpr hscheduled, hcount, ?_⟩,
      ⟨hprefill.started, hprefill.chunks, hprefill.admits⟩, episode,
      (s.kv.episodes_issue_of_not_prefills hnot r).trans hepisodes, hrest⟩
    · exact iff_of_false (fun hnone => by cases hat.stage.mp hnone) fun heq => by cases heq
    · refine decide_eq_false fun hin => ?_
      have hpositive : 0 < s.decodes.count r := hsteps.inFlight.mp (decide_eq_true hin)
      omega

theorem Kept.chunkExited (h : s.Kept) {chunk : PrefillChunk} {rest : List PrefillChunk}
    {record : RequestRecord} (hold : s.chunks = chunk :: rest)
    (hfinishes : chunk.finishesPrefill = false)
    (hprocessed : record.prefillTokensProcessed =
      (s.requests chunk.request).prefillTokensProcessed + chunk.chunkTokens)
    (hstage : record.stage = (s.requests chunk.request).stage) :
    ({ s with
      requests := Function.update s.requests chunk.request record
      chunks := rest } : Pipe acc).Kept := by
  obtain ⟨c, hat⟩ := h.at_chunk (hold ▸ List.mem_cons_self)
  refine h.step h.tracked chunk.request ?_ ⟨.prefilling c, ?_⟩
  · intro t ht
    ext1
    case record => exact Function.update_of_ne ht ..
    case chunks =>
      show rest.filter _ = s.chunks.filter _
      rw [hold, List.filter_cons_of_neg]
      simpa using ht.symm
    all_goals rfl
  · obtain ⟨hdecode, context, episode, hprogress⟩ := hat.account
    have hrecord : Function.update s.requests chunk.request record chunk.request = record :=
      Function.update_self ..
    have hchunks : (s.entriesOf chunk.request).chunks =
        chunk :: rest.filter fun other => other.request = chunk.request := by
      show s.chunks.filter _ = _
      rw [hold, List.filter_cons_of_pos (by simp)]
    have hflies := hprogress.flies
    have hflown := hprogress.flown
    rw [hchunks] at hflies hflown
    rw [flown_cons] at hflown
    obtain ⟨-, hmarked, hbehind⟩ := hflies
    have hwithin : context.processedPrefillTokens + context.activeChunkTokens ≤
        context.prefillTokensToCompute := by
      rw [← hprogress.current.scheduled, ← hprogress.current.toCompute]
      exact hprogress.tiling.within
    -- a chunk not marked as the last one does not end the prompt
    have hshort : (s.requests chunk.request).prefillTokensProcessed + chunk.chunkTokens ≠
        context.prefillTokensToCompute := by
      intro hend
      have hlast := hmarked.mpr hend
      rw [hfinishes] at hlast
      cases hlast
    have hsame : (s.entriesOf chunk.request).record.prefillTokensProcessed =
        (s.requests chunk.request).prefillTokensProcessed := rfl
    refine ⟨?_, hat.waiting, hat.phase, ⟨hdecode.scheduled, hdecode.decodes, hdecode.inFlight⟩,
      context, episode, hprogress.resolved, hprogress.episodes, hprogress.tiling,
      hprogress.current, hprogress.started, hprogress.admitted, hprogress.rest, ?_, ?_, ?_⟩
    · refine Iff.trans ?_ hat.stage
      show (Function.update s.requests chunk.request record chunk.request).stage = none ↔ _
      rw [hrecord, hstage]
      rfl
    · show Flies _ (Function.update s.requests chunk.request record
        chunk.request).prefillTokensProcessed (rest.filter _)
      rw [hrecord, hprocessed]
      exact hbehind
    · show (Function.update s.requests chunk.request record
        chunk.request).prefillTokensProcessed + flown (rest.filter _) = _
      rw [hrecord, hprocessed]
      omega
    · show (Function.update s.requests chunk.request record
        chunk.request).prefillTokensProcessed < _
      rw [hrecord, hprocessed]
      omega

theorem Kept.prefillEnded (h : s.Kept) {chunk : PrefillChunk} {rest : List PrefillChunk}
    {record : RequestRecord} (remaining : Nat) (hold : s.chunks = chunk :: rest)
    (hfinishes : chunk.finishesPrefill = true) (hidle : chunk.request ∉ s.admits)
    (hprocessed : record.prefillTokensProcessed =
      (s.requests chunk.request).prefillTokensProcessed + chunk.chunkTokens)
    (hstage : record.stage ≠ none) :
    ({ s with
      kv := s.kv.issue (.finishChunkedPrefill chunk.request headPartition remaining)
      requests := Function.update s.requests chunk.request record
      chunks := rest } : Pipe acc).Kept := by
  obtain ⟨c, hat⟩ := h.at_chunk (hold ▸ List.mem_cons_self)
  have hop : StoreOp.Issuable s.kv.store
      (.finishChunkedPrefill chunk.request headPartition remaining) := hat.phase
  refine h.step (tracked_apply h.tracked hop) chunk.request ?_ ⟨.decoding, ?_⟩
  · intro t ht
    refine Eq.trans ?_ (entriesOf_issue (s := s) (r := t) h.tracked hop
      (by simpa [StoreOp.subject] using ht.symm) (by simp))
    ext1
    case record => exact Function.update_of_ne ht ..
    case chunks =>
      show rest.filter _ = s.chunks.filter _
      rw [hold, List.filter_cons_of_neg]
      simpa using ht.symm
    all_goals rfl
  · obtain ⟨hdecode, context, episode, hprogress⟩ := hat.account
    have hrecord : Function.update s.requests chunk.request record chunk.request = record :=
      Function.update_self ..
    have hchunks : (s.entriesOf chunk.request).chunks =
        chunk :: rest.filter fun other => other.request = chunk.request := by
      show s.chunks.filter _ = _
      rw [hold, List.filter_cons_of_pos (by simp)]
    have hwithin : context.processedPrefillTokens + context.activeChunkTokens ≤
        context.prefillTokensToCompute := by
      rw [← hprogress.current.scheduled, ← hprogress.current.toCompute]
      exact hprogress.tiling.within
    have hflies := hprogress.flies
    have hflown := hprogress.flown
    rw [hchunks] at hflies hflown
    -- the youngest chunk in flight: the store has nothing left to schedule
    have hnone := hflies.last hfinishes (by omega)
    have hend := hflies.2.1.mp hfinishes
    rw [hnone, flown_cons, flown_nil, Nat.add_zero, hend] at hflown
    have hdone : context.remainingPrefillTokens = 0 := by
      rw [ResolvedPrefillContext.remainingPrefillTokens]
      omega
    have hepisodes : s.kv.episodes chunk.request = [] ++ [episode] := hprogress.episodes
    have hlast := IssuedStore.episodes_issue_last hepisodes
      (IssuedStore.observe_finish s.kv.store headPartition remaining [] episode)
    have hcount : s.admits.count chunk.request = 0 := List.count_eq_zero.mpr hidle
    refine ⟨iff_of_false ?_ (fun heq => by cases heq), hat.waiting,
      (phaseOf_apply h.tracked hop).trans (if_pos rfl), ⟨?_, ?_⟩, ⟨?_, hnone, ?_⟩, _, hlast,
      hprogress.tiling.finished hprogress.current hdone, ?_, ?_⟩
    · intro hnone
      exact hstage ((congrArg RequestRecord.stage hrecord).symm.trans hnone)
    · exact (congrArg₂ (· + ·) hdecode.scheduled hdecode.decodes).trans_le (Nat.zero_le 1)
    · refine iff_of_false ?_ (hdecode.decodes ▸ Nat.lt_irrefl 0)
      intro hin
      exact Bool.false_ne_true (hdecode.inFlight.symm.trans hin)
    · exact hprogress.started.trans (if_neg (by omega))
    · exact hcount
    · show episode.decodes ++ [episode.completed] = [episode.toCompute]
      rw [hprogress.current.decodes, hprogress.current.completed, hprogress.current.toCompute]
      rw [ResolvedPrefillContext.remainingPrefillTokens] at hdone
      have hcompleted : context.processedPrefillTokens = context.prefillTokensToCompute := by omega
      rw [hcompleted]
      rfl
    · show (Function.update s.requests chunk.request record
        chunk.request).prefillTokensProcessed = episode.toCompute
      rw [hrecord, hprocessed, hprogress.current.toCompute]
      exact hend

end Pipe

end ServingSim
