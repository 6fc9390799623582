import ServingSim.Admission.ChunkedPrefill
import ServingSim.Kv.StepRoom

/-
  Where the chunked-prefill worker has each request.

  The worker spreads what it knows about a request over its pending sets, its
  started prompts, its episodes, the shared records and the store. What happens
  to a request is simpler: it waits, is prefilled chunk by chunk, decodes, may be
  retracted and wait again, and is gone. `Location` is that account, `At` says
  what the worker's tables hold about a request in each location, and `Located`
  says that every request is in one.
-/

namespace ServingSim

open KeyedTotal PendingOrderPolicy KvCacheStore

/-- A candidate describes the request as its record stands. -/
structure AdmissionCandidate.Fits (c : AdmissionCandidate) (record : RequestRecord) : Prop where
  fresh : c.freshPromptTokens = record.promptTokens + record.outputTokensEmitted
  remaining : c.remainingOutputTokens = record.targetOutputTokens - record.outputTokensEmitted
  session : c.sessionInput = record.session
  first : c.retracted = false → record.outputTokensEmitted = 0
  again : c.retracted = true →
    0 < record.outputTokensEmitted ∧ record.outputTokensEmitted < record.targetOutputTokens

inductive Location (n : Nat) where
  /-- The worker was not asked for the request. -/
  | unseen
  | queued (partition : Fin n) (candidate : AdmissionCandidate)
  /-- Reserved, its prefill not complete. -/
  | prefilling (partition : Fin n) (candidate : AdmissionCandidate)
  | decoding (partition : Fin n)
  /-- Finished or cancelled. -/
  | gone

namespace Location

variable {n : Nat}

def waitingOn (p : Fin n) : Location n → List AdmissionCandidate
  | queued q c => if q = p then [c] else []
  | _ => []

def startedOn (p : Fin n) : Location n → List AdmissionCandidate
  | prefilling q c => if q = p then [c] else []
  | _ => []

/-- Where the store has a request. -/
def phase : Location n → Phase n
  | prefilling p _ => .chunked p
  | decoding p => .resident p
  | unseen | queued _ _ | gone => .absent

/-- A prefill has its episode open. A cancelled request may leave its episode
behind: the worker drops it with a started prompt only. -/
def HasEpisode (episode : Option Bool) : Location n → Prop
  | prefilling _ c => episode = some c.retracted
  | gone => True
  | unseen | queued _ _ | decoding _ => episode = none

theorem length_waitingOn_le (p : Fin n) (location : Location n) :
    (location.waitingOn p).length ≤ 1 := by
  unfold waitingOn
  split
  · split <;> simp
  · simp

end Location

/-- Everything the worker holds about one request. -/
@[ext]
structure Entries (acc : KvAccounting) (n : Nat) where
  waiting : Fin n → List AdmissionCandidate
  started : Fin n → List AdmissionCandidate
  episode : Option Bool
  record : RequestRecord
  phase : Phase n
  view : RequestView n
  decode : Fin n → Option (ResidentDecodeState acc)

/-- The candidates of one request. -/
def ofRequest (r : RequestId) (candidates : List AdmissionCandidate) : List AdmissionCandidate :=
  candidates.filter fun c => c.requestId = r

variable {c : AdmissionCandidate}

theorem mem_ofRequest {r : RequestId} {l : List AdmissionCandidate} :
    c ∈ ofRequest r l ↔ c ∈ l ∧ c.requestId = r := by
  simp [ofRequest]

theorem ofRequest_cons_of_ne {r : RequestId} (h : c.requestId ≠ r)
    (l : List AdmissionCandidate) : ofRequest r (c :: l) = ofRequest r l :=
  List.filter_cons_of_neg (by simpa using h)

theorem ofRequest_cons_self {r : RequestId} (h : c.requestId = r)
    (l : List AdmissionCandidate) : ofRequest r (c :: l) = c :: ofRequest r l :=
  List.filter_cons_of_pos (by simpa using h)

theorem ofRequest_append (r : RequestId) (l l' : List AdmissionCandidate) :
    ofRequest r (l ++ l') = ofRequest r l ++ ofRequest r l' :=
  List.filter_append ..

theorem ofRequest_eq_nil_iff {r : RequestId} {l : List AdmissionCandidate} :
    ofRequest r l = [] ↔ ∀ c ∈ l, c.requestId ≠ r := by
  simp [ofRequest]

theorem ofRequest_of_perm {r : RequestId} {l l' : List AdmissionCandidate} (h : l'.Perm l)
    (hle : (ofRequest r l).length ≤ 1) : ofRequest r l' = ofRequest r l := by
  have hperm : (ofRequest r l').Perm (ofRequest r l) := h.filter _
  cases hl : ofRequest r l with
  | nil =>
    rw [hl] at hperm
    exact hperm.eq_nil
  | cons c rest =>
    rw [hl] at hperm hle
    have hrest : rest = [] := List.length_eq_zero_iff.mp (by simpa using hle)
    rw [hrest] at hperm ⊢
    exact List.perm_singleton.mp hperm

variable {P : Type} [PendingOrderPolicy P] {acc : KvAccounting} {n : Nat}

namespace ChunkedPrefillWorker

def entriesOf (w : ChunkedPrefillWorker P acc n) (r : RequestId) : Entries acc n where
  waiting := fun p => ofRequest r (candidates (w.policies p))
  started := fun p => ofRequest r (w.startedPrefills p)
  episode := w.prefillEpisodes.lookup r
  record := w.requests r
  phase := w.store.phaseOf r
  view := w.store.ledger.viewOf r
  decode := fun p => w.store.decodeOf p r

end ChunkedPrefillWorker

/-- What the reservation of a prefill looks like in the store. -/
structure Reserved (cfg : ChunkedPrefillConfig n) (acc : KvAccounting) (p : Fin n)
    (c : AdmissionCandidate) (view : RequestView n) : Prop where
  reserved : ∃ context, view.context = some context ∧ context.postPrefillContextTokens =
      c.freshPromptTokens + c.sessionInput.declaredPrefixTokens ∧
    view.chunked = some (p,
      (ChunkedPrefillWorker.admissionFootprint cfg acc context c).reservedUnits)

/-- A resident decode holds the KV of every token but the last one emitted, and
has the rest of its output to go. -/
structure InStep (record : RequestRecord) (state : ResidentDecodeState acc) : Prop where
  currentKv : state.currentKv + 1 =
    record.promptTokens + record.session.declaredPrefixTokens + record.outputTokensEmitted
  remaining : state.remainingDecode = record.targetOutputTokens - record.outputTokensEmitted
  emitted : 0 < record.outputTokensEmitted

/-- What the entries of a request in a location show of its progress. -/
def Progress (cfg : ChunkedPrefillConfig n) (e : Entries acc n) : Location n → Prop
  | .unseen => e.record.outputTokensEmitted = 0
  | .queued _ c => c.Fits e.record
  | .prefilling p c => c.Fits e.record ∧ Reserved cfg acc p c e.view
  | .decoding p => ∃ state, e.decode p = some state ∧ InStep e.record state
  | .gone => True

/-- The entries of a request in a location. -/
structure At (cfg : ChunkedPrefillConfig n) (e : Entries acc n) (location : Location n) : Prop where
  waiting : ∀ p, e.waiting p = location.waitingOn p
  started : ∀ p, (e.started p).Sublist (location.startedOn p)
  phase : e.phase = location.phase
  episode : location.HasEpisode e.episode
  stage : e.record.stage = none ↔ location = .unseen
  progress : Progress cfg e location

theorem At.stamped {cfg : ChunkedPrefillConfig n} {e : Entries acc n} {location : Location n}
    (h : At cfg e location) (hseen : location ≠ .unseen) : e.record.stage ≠ none :=
  fun hnone => hseen (h.stage.mp hnone)

theorem At.congr {cfg : ChunkedPrefillConfig n} {e e' : Entries acc n} {location : Location n}
    (h : At cfg e location) (hwaiting : e'.waiting = e.waiting) (hstarted : e'.started = e.started)
    (hepisode : e'.episode = e.episode) (hrecord : e'.record = e.record)
    (hphase : e'.phase = e.phase) (hview : e'.view = e.view)
    (hdecode : ∀ p state, location = .decoding p → e.decode p = some state →
      InStep e.record state → ∃ state', e'.decode p = some state' ∧ InStep e.record state') :
    At cfg e' location where
  waiting := hwaiting ▸ h.waiting
  started := hstarted ▸ h.started
  phase := hphase ▸ h.phase
  episode := hepisode ▸ h.episode
  stage := hrecord ▸ h.stage
  progress := by
    have hprogress := h.progress
    cases location with
    | unseen => exact (congrArg RequestRecord.outputTokensEmitted hrecord).trans hprogress
    | queued p c => exact show c.Fits e'.record from hrecord ▸ hprogress
    | prefilling p c => exact ⟨hrecord ▸ hprogress.1, hview ▸ hprogress.2⟩
    | gone => trivial
    | decoding p =>
      obtain ⟨state, hstate, hin⟩ := hprogress
      obtain ⟨state', hstate', hin'⟩ := hdecode p state rfl hstate hin
      exact ⟨state', hstate', hrecord ▸ hin'⟩

/-- The prefills of the iteration: each once, reserved on its partition or
already decoding there, and one that stays started has tokens left after its
active chunk. -/
structure Scheduled (w : ChunkedPrefillWorker P acc n) : Prop where
  nodup : ∀ p, (w.store.partitions p).prefillAdmits.Nodup
  placed : ∀ p, ∀ r ∈ (w.store.partitions p).prefillAdmits,
    w.store.phaseOf r = .chunked p ∨ w.store.phaseOf r = .resident p
  unfinished : ∀ p, ∀ c ∈ w.startedPrefills p, ∀ context,
    c.requestId ∈ (w.store.partitions p).prefillAdmits →
    (w.store.ledger.viewOf c.requestId).context = some context →
    context.processedPrefillTokens + context.activeChunkTokens < context.prefillTokensToCompute

/-- Every request is in one location. -/
structure Located (cfg : ChunkedPrefillConfig n) (w : ChunkedPrefillWorker P acc n) : Prop where
  tracked : w.store.Tracked
  located : ∀ r, ∃ location, At cfg (w.entriesOf r) location
  scheduled : Scheduled w

/-! ## Entries under a step -/

namespace StoreOp

theorem phaseAfter_of_ne {op : StoreOp n} {r : RequestId} {phase : Phase n}
    (h : op.subject ≠ some r) (hdrain : op ≠ .drainReady) : op.phaseAfter r phase = phase := by
  cases op with
  | drainReady => exact absurd rfl hdrain
  | schedulePrefillChunk _ _ _ | completePrefillChunk _ | prepareNextDecode _ _ _ | advance _ _
  | clearPrefillAdmits _ => rfl
  | _ => exact if_neg fun hr => h (congrArg some hr.symm)

end StoreOp

namespace ChunkedPrefillWorker

variable (w : ChunkedPrefillWorker P acc n) {r : RequestId}

theorem entriesOf_issue {op : StoreOp n} (ht : w.store.Tracked) (hop : op.Issuable w.store)
    (h : op.subject ≠ some r) (hdrain : op ≠ .drainReady)
    (hadvance : ∀ scope steps, op ≠ .advance scope steps) :
    (w.issue op).entriesOf r = w.entriesOf r := by
  ext1
  · rfl
  · rfl
  · rfl
  · rfl
  · exact (phaseOf_apply ht hop).trans (StoreOp.phaseAfter_of_ne h hdrain)
  · exact view_apply_of_ne _ h hdrain
  · exact funext fun p => decodeOf_apply_of_ne _ p h hadvance

theorem entriesOf_modifyPolicy {p : Fin n} {f : P → P}
    (h : ofRequest r (candidates (f (w.policies p))) = ofRequest r (candidates (w.policies p))) :
    (w.modifyPolicy p f).entriesOf r = w.entriesOf r := by
  ext1
  · funext q
    by_cases hq : q = p
    · subst hq
      simpa [entriesOf, modifyPolicy] using h
    · simp [entriesOf, modifyPolicy, hq]
  all_goals rfl

theorem entriesOf_requests {q : RequestId} {record : RequestRecord} (h : r ≠ q) :
    ({ w with requests := Function.update w.requests q record } :
      ChunkedPrefillWorker P acc n).entriesOf r = w.entriesOf r := by
  ext1
  · rfl
  · rfl
  · rfl
  · exact Function.update_of_ne h _ _
  all_goals rfl

end ChunkedPrefillWorker

section located

variable {cfg : ChunkedPrefillConfig n} {w w' : ChunkedPrefillWorker P acc n} {r : RequestId}

section

variable (h : Located cfg w)

include h

theorem Located.step (q : RequestId) (ht : w'.store.Tracked)
    (hq : ∃ location, At cfg (w'.entriesOf q) location)
    (hother : ∀ r, r ≠ q → w'.entriesOf r = w.entriesOf r) (hs : Scheduled w') :
    Located cfg w' where
  tracked := ht
  located := fun r => by
    by_cases hr : r = q
    · exact hr ▸ hq
    · rw [hother r hr]
      exact h.located r
  scheduled := hs

theorem Located.still (ht : w'.store.Tracked)
    (hall : ∀ r, w'.entriesOf r = w.entriesOf r) (hs : Scheduled w') : Located cfg w' where
  tracked := ht
  located := fun r => by
    rw [hall]
    exact h.located r
  scheduled := hs

theorem Located.at_resident {p : Fin n}
    (hr : w.store.phaseOf r = .resident p) : At cfg (w.entriesOf r) (.decoding p) := by
  obtain ⟨location, hat⟩ := h.located r
  have hphase : location.phase = .resident p := hat.phase.symm.trans hr
  cases location <;> simp_all [Location.phase]

theorem Located.at_chunked {p : Fin n}
    (hr : w.store.phaseOf r = .chunked p) : ∃ c, At cfg (w.entriesOf r) (.prefilling p c) := by
  obtain ⟨location, hat⟩ := h.located r
  have hphase : location.phase = .chunked p := hat.phase.symm.trans hr
  cases location with
  | prefilling q c =>
    cases hphase
    exact ⟨c, hat⟩
  | _ => cases hphase

theorem Located.at_waiting {p : Fin n} {c : AdmissionCandidate}
    (hc : c ∈ candidates (w.policies p)) :
    At cfg (w.entriesOf c.requestId) (.queued p c) := by
  obtain ⟨location, hat⟩ := h.located c.requestId
  have hmem : c ∈ location.waitingOn p := by
    rw [← hat.waiting p]
    exact mem_ofRequest.mpr ⟨hc, rfl⟩
  cases location with
  | queued q c' =>
    by_cases hq : q = p
    · subst hq
      simp only [Location.waitingOn, if_true, List.mem_singleton] at hmem
      exact hmem ▸ hat
    · simp [Location.waitingOn, hq] at hmem
  | _ => simp [Location.waitingOn] at hmem

theorem Located.at_started {p : Fin n} {c : AdmissionCandidate}
    (hc : c ∈ w.startedPrefills p) : At cfg (w.entriesOf c.requestId) (.prefilling p c) := by
  obtain ⟨location, hat⟩ := h.located c.requestId
  have hmem : c ∈ location.startedOn p := (hat.started p).subset (mem_ofRequest.mpr ⟨hc, rfl⟩)
  cases location with
  | prefilling q c' =>
    by_cases hq : q = p
    · subst hq
      simp only [Location.startedOn, if_true, List.mem_singleton] at hmem
      exact hmem ▸ hat
    · simp [Location.startedOn, hq] at hmem
  | _ => simp [Location.startedOn] at hmem

theorem Located.length_waiting_le (r : RequestId) (p : Fin n) :
    (ofRequest r (candidates (w.policies p))).length ≤ 1 := by
  obtain ⟨location, hat⟩ := h.located r
  have hw : ofRequest r (candidates (w.policies p)) = location.waitingOn p := hat.waiting p
  rw [hw]
  exact location.length_waitingOn_le p

theorem Located.nodup_waiting (p : Fin n) :
    ((candidates (w.policies p)).map fun c => c.requestId).Nodup := by
  rw [List.nodup_iff_count_le_one]
  intro r
  have hle := h.length_waiting_le r p
  rw [List.count, List.countP_map, List.countP_eq_length_filter]
  refine le_trans (Nat.le_of_eq (congrArg List.length ?_)) hle
  exact List.filter_congr fun c _ => beq_eq_decide _ _

end

omit [PendingOrderPolicy P] in
/-- Where the prefills of the iteration, the started prompts and the contexts are
the same, they are scheduled alike. -/
theorem Scheduled.mono (h : Scheduled w)
    (hnodup : ∀ p, (w'.store.partitions p).prefillAdmits.Nodup)
    (hsubset : ∀ p, ∀ r ∈ (w'.store.partitions p).prefillAdmits,
      r ∈ (w.store.partitions p).prefillAdmits)
    (hphase : ∀ p, ∀ r ∈ (w'.store.partitions p).prefillAdmits,
      w'.store.phaseOf r = w.store.phaseOf r)
    (hview : ∀ p, ∀ r ∈ (w'.store.partitions p).prefillAdmits,
      (w'.store.ledger.viewOf r).context = (w.store.ledger.viewOf r).context)
    (hstarted : ∀ p, ∀ c ∈ w'.startedPrefills p, c ∈ w.startedPrefills p) : Scheduled w' where
  nodup := hnodup
  placed := fun p r hr => by
    rw [hphase p r hr]
    exact h.placed p r (hsubset p r hr)
  unfinished := fun p c hc context hr hcontext => by
    rw [hview p _ hr] at hcontext
    exact h.unfinished p c (hstarted p c hc) context (hsubset p _ hr) hcontext

omit [PendingOrderPolicy P] in
/-- With nothing in the iteration's prefill there is nothing to schedule. -/
theorem scheduled_of_idle (h : ∀ p, (w.store.partitions p).prefillAdmits = []) : Scheduled w where
  nodup := fun p => by
    rw [h p]
    exact List.nodup_nil
  placed := fun p r hr => by simp [h p] at hr
  unfinished := fun p c _ context hr => by simp [h p] at hr

theorem located_new (cfg : ChunkedPrefillConfig n) (budget : PrefixCacheBudget)
    {requests : Requests} {policies : Fin n → P} (balance : LoadBalance)
    (hrequests : ∀ r, (requests r).stage = none ∧ (requests r).outputTokensEmitted = 0)
    (hpolicies : ∀ p, candidates (policies p) = []) :
    Located cfg
      (ChunkedPrefillWorker.new cfg budget requests policies balance : ChunkedPrefillWorker P acc n)
    where
  tracked := tracked_new budget
  located := fun r => by
    refine ⟨.unseen, fun p => ?_, fun p => ?_, rfl, rfl, ⟨fun _ => rfl, fun _ => ?_⟩, ?_⟩
    · simp [ChunkedPrefillWorker.entriesOf, ChunkedPrefillWorker.new, hpolicies, ofRequest,
        Location.waitingOn]
    · simp [ChunkedPrefillWorker.entriesOf, ChunkedPrefillWorker.new, ofRequest]
    · exact (hrequests r).1
    · exact (hrequests r).2
  scheduled := scheduled_of_idle fun _ => rfl

end located

end ServingSim
