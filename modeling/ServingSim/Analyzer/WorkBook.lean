import ServingSim.Admission.Cancellation
import ServingSim.Analyzer.RequestWork
import ServingSim.Worker.IterExecution

/-
  A book of what each request was charged for.

  The rows of the cost log are about batches, the closed forms about requests. The book
  stands between them: a logged row charges each request of the batch its share. `WorkBooked`
  says that a request's charge is what its record shows as computed and what it is still
  due in the iteration in flight, and every turn of the worker keeps that.
-/

namespace ServingSim

open KeyedTotal PendingOrderPolicy KvCacheStore Relation ChunkedPrefillWorker

variable {P : Type} [PendingOrderPolicy P] {acc : KvAccounting} {n : Nat}
  {cfg : ChunkedPrefillConfig n} {w w' : ChunkedPrefillWorker P acc n} {r : RequestId} {p : Fin n}

/-- What the worker holds about a request fits what its record counts. -/
structure WorkKept (e : Entries acc n) : Prop where
  recorded : WorkRecorded e.record
  /-- A prompt that waits for its first prefill has computed nothing. -/
  waiting : e.record.outputTokensEmitted = 0 → ∀ p, e.waiting p ≠ [] →
    e.record.prefillTokensProcessed = 0
  unseen : e.record.stage = none → e.record.Fresh
  first : ∀ p context, e.phase = .chunked p → e.view.context = some context →
    e.episode = some false → FirstPrefill e.record context

/-- A request that was cancelled before it completed. -/
structure Lost (e : Entries acc n) : Prop where
  incomplete : e.record.completed = false
  absent : e.phase = .absent
  waiting : ∀ p, e.waiting p = []
  stamped : e.record.stage ≠ none

/-- A request is charged what it computed and what it is due. -/
def Paid (charged due : Work) (e : Entries acc n) : Prop :=
  Lost e ∨ charged = e.record.work + due

def WorkBooked (book : RequestId → Work) (due : Due n) (w : ChunkedPrefillWorker P acc n) : Prop :=
  ∀ r, WorkKept (w.entriesOf r) ∧ Paid (book r) (owed due r (w.entriesOf r)) (w.entriesOf r)

/-- Nothing is due between the iterations. -/
def nothingDue (n : Nat) : Due n := ⟨fun _ => [], fun _ => false⟩

theorem owed_nothingDue (r : RequestId) (e : Entries acc n) : owed (nothingDue n) r e = 0 := by
  unfold owed nothingDue
  split
  · simp
  · simp
  · rfl

variable {e : Entries acc n}

theorem owed_of_absent {due : Due n} (h : e.phase = .absent) :
    owed due r e = 0 := by
  unfold owed
  rw [h]

theorem owed_chunked {due : Due n} (h : e.phase = .chunked p) :
    owed due r e = if r ∈ due.chunks p then chunkOwed e.view else 0 := by
  unfold owed
  rw [h]

theorem owed_resident {due : Due n} (h : e.phase = .resident p) :
    owed due r e = if due.runs p then rowOwed (e.decode p) else 0 := by
  unfold owed
  rw [h]

theorem WorkBooked.step {book : RequestId → Work} {due due' : Due n} (h : WorkBooked book due w)
    (q : RequestId) (hother : ∀ s, s ≠ q → w'.entriesOf s = w.entriesOf s)
    (hdue : ∀ s, s ≠ q → owed due' s (w.entriesOf s) = owed due s (w.entriesOf s))
    (hq : WorkKept (w'.entriesOf q) ∧
      Paid (book q) (owed due' q (w'.entriesOf q)) (w'.entriesOf q)) :
    WorkBooked book due' w' := by
  intro s
  by_cases hs : s = q
  · exact hs ▸ hq
  · rw [hother s hs, hdue s hs]
    exact h s

theorem Paid.charged {charged due : Work} (h : Paid charged due e)
    (hheld : e.phase ≠ .absent) : charged = e.record.work + due := by
  rcases h with hlost | hcharged
  · exact absurd hlost.absent hheld
  · exact hcharged

/-! ## Between the iterations -/

section forming

variable {book : RequestId → Work}

theorem booked_making {config : BoundedFutureKvAdmissionConfig} {stepTokens : Nat}
    (hstep : Making config stepTokens w w') (hlocated : Located cfg w)
    (h : WorkBooked book (nothingDue n) w) : WorkBooked book (nothingDue n) w' := by
  cases hstep with
  | prepare q =>
    intro s
    rw [entriesOf_prepare hlocated.tracked]
    exact h s
  | retract q victim live =>
    have hop := issuable_release hlocated live
    have hresident := hlocated.resident_of_live live
    obtain ⟨state, -, hin⟩ := (hlocated.at_resident hresident).progress
    have hemitted : 0 < (w.requests victim).outputTokensEmitted := hin.emitted
    refine h.step victim (fun s hs => entriesOf_retracted hlocated live _ hs) (fun _ _ => rfl) ?_
    obtain ⟨c, f, record, -, -, -, -, -, -, hrecord, hw⟩ :=
      requeueRetracted_spec (w.issue (.release victim q)) q victim config.retractionPolicy
    have hsame : SameWork (w.requests victim) record := by
      rw [hrecord]
      exact ⟨rfl, rfl, rfl, rfl, rfl, rfl⟩
    set after := (w.issue (.release victim q)).requeueRetracted q victim config.retractionPolicy
    have hself : (after.entriesOf victim).record = record := by
      rw [hw]
      exact Function.update_self ..
    have habsent : (after.entriesOf victim).phase = .absent := by
      rw [hw]
      exact (phaseOf_apply hlocated.tracked hop).trans (if_pos rfl)
    have hcharged := (h victim).2.charged fun hphase => nomatch hresident.symm.trans hphase
    rw [owed_nothingDue] at hcharged
    refine ⟨⟨?_, fun hzero => ?_, fun hnone => ?_, fun p context hchunked => ?_⟩, .inr ?_⟩
    · rw [hself]
      exact hsame.recorded (h victim).1.recorded
    · -- a retracted request has emitted tokens
      rw [hself, hsame.emitted] at hzero
      omega
    · rw [hself, hrecord] at hnone
      cases hnone
    · exact nomatch habsent.symm.trans hchunked
    · rw [owed_nothingDue, hself, hsame.work]
      exact hcharged
  | ratio x => exact h

theorem booked_forming {s s' : Forming P acc n} (hstep : FormStep cfg s s')
    (hlocated : Located cfg s.worker) (h : WorkBooked book (nothingDue n) s.worker) :
    WorkBooked book (nothingDue n) s'.worker := by
  cases hstep with
  | @chunk p before after c context budget tokens left available started fresh resolved size
      positive spent =>
    have hat := hlocated.at_started (p := p) (c := c) (by simp [started])
    have hphase : s.worker.store.phaseOf c.requestId = .chunked p := hat.phase
    obtain ⟨hkept, hpaid⟩ := h c.requestId
    refine h.step c.requestId (fun t ht => entriesOf_scheduled hlocated.tracked hphase ht
      (ofRequest_rescheduled started (fun d hd => mem_kept hd) ht)) (fun _ _ => rfl) ?_
    have hcontext := contextOf_schedulePrefillChunk s.worker.store c.requestId p tokens resolved
    have hcharged := hpaid.charged fun habsent => nomatch hphase.symm.trans habsent
    refine ⟨⟨hkept.recorded, hkept.waiting, hkept.unseen,
        fun q context' _ hcontext' hepisode => ?_⟩,
      .inr ?_⟩
    · obtain rfl := Option.some.inj (hcontext.symm.trans hcontext')
      obtain ⟨hhit, hprocessed⟩ := hkept.first p context hphase resolved hepisode
      exact ⟨hhit, hprocessed⟩
    · rw [owed_nothingDue] at hcharged ⊢
      exact hcharged
  | refresh p =>
    intro t
    exact (entriesOf_refresh hlocated p t).symm ▸ h t
  | @admitted p budget chunkBudget left slots slots' a worker available windows room gate claimed
      entered spent =>
    obtain ⟨hpeek, hresolved, -⟩ := gateHead_spec gate
    obtain ⟨hkept, hpaid⟩ := h a.candidate.requestId
    refine h.step a.candidate.requestId
      (fun t ht => entriesOf_admitted hlocated hpeek entered ht) (fun _ _ => rfl) ?_
    have hwaiting := hlocated.at_waiting (mem_of_peek hpeek)
    have hfits : a.candidate.Fits (s.worker.requests a.candidate.requestId) := hwaiting.progress
    have hqueued : (s.worker.entriesOf a.candidate.requestId).waiting p ≠ [] := by
      rw [hwaiting.waiting p]
      simp [Location.waitingOn]
    have hcharged : book a.candidate.requestId =
        (s.worker.requests a.candidate.requestId).work := by
      rcases hpaid with hlost | hcharged
      · exact absurd (hlost.waiting p) hqueued
      · rw [owed_nothingDue, add_zero] at hcharged
        exact hcharged
    obtain ⟨record, hrecord, rfl⟩ := admitHead_spec entered
    obtain ⟨hrecorded, hwork, hfirst⟩ := hkept.recorded.admitted hrecord
      (fun hfresh => ⟨hfits.first hfresh, hkept.waiting (hfits.first hfresh) p hqueued⟩)
      (fun hagain => (hfits.again hagain).1)
    have hemitted : record.outputTokensEmitted =
        (s.worker.requests a.candidate.requestId).outputTokensEmitted :=
      (admittedRecord_spec hrecord).2.1
    have hstamped : SameWork record (record.stampStage .prefill) := ⟨rfl, rfl, rfl, rfl, rfl, rfl⟩
    have hself : (Function.update s.worker.requests a.candidate.requestId
        (record.stampStage .prefill)) a.candidate.requestId = record.stampStage .prefill :=
      Function.update_self ..
    obtain ⟨metadata, hcontext⟩ := contextOf_firstChunk s.worker.store a.candidate.requestId p
      a.resolvedPrefill a.footprint a.chunkTokens
    have hepisode : (s.worker.prefillEpisodes.insert a.candidate.requestId
        a.candidate.retracted).lookup a.candidate.requestId = some a.candidate.retracted :=
      AList.lookup_insert _
    have hnew : a.resolvedPrefill.processedPrefillTokens = 0 := by
      rw [hresolved]
      rfl
    -- what the new entries say of the record, read through the update
    have hall : ∀ q : RequestRecord, q = record.stampStage .prefill →
        WorkRecorded q ∧ q.work = (s.worker.requests a.candidate.requestId).work ∧
          (q.outputTokensEmitted = 0 → q.prefillTokensProcessed = 0) ∧ q.stage ≠ none ∧
          (a.candidate.retracted = false →
            q.prefixCacheHitTokens = some a.resolvedPrefill.residentPrefixTokens ∧
            q.prefillTokensProcessed = 0) := by
      intro q hq
      rw [hq]
      refine ⟨hstamped.recorded hrecorded, hstamped.work.trans hwork, fun hzero => ?_,
        Option.some_ne_none _, hfirst⟩
      cases hretracted : a.candidate.retracted with
      | false => exact (hfirst hretracted).2
      | true =>
        have hpositive := (hfits.again hretracted).1
        have hzero' : record.outputTokensEmitted = 0 := hzero
        omega
    obtain ⟨hrecorded', hwork', hnone', hstage', hfirst'⟩ := hall _ hself
    refine ⟨⟨hrecorded', fun hzero _ _ => hnone' hzero, fun hunseen => absurd hunseen hstage',
      fun q context _ hcontext' hfresh => ?_⟩, .inr ?_⟩
    · obtain rfl := Option.some.inj (hcontext.symm.trans hcontext')
      obtain ⟨hhit, hprocessed⟩ := hfirst' (Option.some.inj (hepisode.symm.trans hfresh))
      exact ⟨hhit, hprocessed.trans hnew.symm⟩
    · rw [owed_nothingDue, add_zero]
      exact hcharged.trans hwork'.symm

end forming

/-! ## Arrivals and cancellations -/

section outside

variable {book : RequestId → Work} {due : Due n}

theorem booked_enqueued (hlocated : Located cfg w) (hnew : (w.requests r).stage = none)
    (hstep : w.acceptMessage cfg r = .ok w') (h : WorkBooked book due w) :
    WorkBooked book due w' := by
  obtain ⟨p, c, sequence, balance, hc, -, -, -, -, hw⟩ := acceptMessage_spec hstep
  have hperm : ∀ pending : P, (candidates (push pending c)).Perm (c :: candidates pending) :=
    fun pending => push_perm pending c
  obtain ⟨hkept, hpaid⟩ := h r
  have hfresh := hkept.unseen hnew
  have hsame : SameWork (w.requests r) ((w.requests r).stampStage .pending) :=
    ⟨rfl, rfl, rfl, rfl, rfl, rfl⟩
  refine h.step r (fun s hs => ?_) (fun _ _ => rfl) ?_
  · rw [hw]
    refine (entriesOf_entered (hc.trans_ne hs.symm) hperm ?_).trans (w.entriesOf_requests hs :)
    exact hlocated.length_waiting_le s p
  · have hself : (w'.entriesOf r).record = (w.requests r).stampStage .pending := by
      rw [hw]
      exact Function.update_self ..
    have hentries : (w'.entriesOf r).phase = (w.entriesOf r).phase ∧
        (w'.entriesOf r).view = (w.entriesOf r).view ∧
        (w'.entriesOf r).decode = (w.entriesOf r).decode ∧
        (w'.entriesOf r).episode = (w.entriesOf r).episode := by
      rw [hw]
      exact ⟨rfl, rfl, rfl, rfl⟩
    obtain ⟨hphase, hview, hdecode, hepisode⟩ := hentries
    have howed : owed due r (w'.entriesOf r) = owed due r (w.entriesOf r) := by
      unfold owed
      rw [hphase, hview, hdecode]
    refine ⟨⟨?_, fun _ _ _ => ?_, fun hunseen => ?_, fun q context hchunked hcontext hopen => ?_⟩,
      ?_⟩
    · rw [hself]
      exact hsame.recorded hkept.recorded
    · rw [hself, hsame.processed]
      exact congrArg RequestRecord.prefillTokensProcessed hfresh
    · rw [hself] at hunseen
      cases hunseen
    · obtain ⟨hhit, hprocessed⟩ := hkept.first q context (hphase.symm.trans hchunked)
        (hview ▸ hcontext) (hepisode.symm.trans hopen)
      rw [hself]
      exact ⟨hhit, hprocessed⟩
    · rw [howed]
      rcases hpaid with hlost | hcharged
      · exact absurd hnew hlost.stamped
      · right
        rw [hself, hsame.work]
        exact hcharged

theorem owed_of_completed (hlocated : Located cfg w) (hkept : WorkKept (w.entriesOf r))
    (hcompleted : (w.requests r).completed = true) : owed due r (w.entriesOf r) = 0 := by
  obtain ⟨hpositive, hreached⟩ := hkept.recorded.finished hcompleted
  have hemitted : 0 < (w.requests r).outputTokensEmitted := hpositive
  have htarget : (w.requests r).targetOutputTokens ≤ (w.requests r).outputTokensEmitted := hreached
  obtain ⟨location, hat⟩ := hlocated.located r
  cases location with
  | unseen | queued _ _ | gone => exact owed_of_absent hat.phase
  | prefilling q c =>
    -- a prefill is the first one, or of a request with output to go
    obtain ⟨hfits, -⟩ := hat.progress
    cases hretracted : c.retracted with
    | false =>
      have hzero : (w.requests r).outputTokensEmitted = 0 := hfits.first hretracted
      omega
    | true =>
      have hleft : (w.requests r).outputTokensEmitted < (w.requests r).targetOutputTokens :=
        (hfits.again hretracted).2
      omega
  | decoding q =>
    obtain ⟨state, hstate, hin⟩ := hat.progress
    have hdone : state.remainingDecode = 0 := by
      have hremaining : state.remainingDecode =
        (w.requests r).targetOutputTokens - (w.requests r).outputTokensEmitted := hin.remaining
      omega
    rw [owed_resident hat.phase, hstate, rowOwed, hdone, if_neg (lt_irrefl 0), ite_self]

theorem mem_admits_release {s : RequestId} (hs : s ≠ r) (q : Fin n) :
    s ∈ ((w.releaseRequest r).store.partitions q).prefillAdmits ↔
      s ∈ (w.store.partitions q).prefillAdmits := by
  obtain ⟨p, -, hw⟩ | ⟨-, episodes, -, hw⟩ := releaseRequest_cases w r
  · rw [hw]
    exact Iff.rfl
  · rw [hw]
    refine (admits_releaseExternal w.store r q).mem_iff.trans ?_
    split
    · exact List.mem_erase_of_ne hs
    · exact Iff.rfl

theorem owed_dueOn_release {s : RequestId} (hs : s ≠ r) (rest : List (Fin n))
    (e : Entries acc n) :
    owed (dueOn (w.releaseRequest r) rest) s e = owed (dueOn w rest) s e := by
  have hplan : (w.releaseRequest r).batchPlan = w.batchPlan := by
    obtain ⟨p, -, hw⟩ | ⟨-, episodes, -, hw⟩ := releaseRequest_cases w r
    · rw [hw]
      rfl
    · rw [hw]
      rfl
  unfold owed dueOn
  dsimp only
  rw [hplan]
  split
  · next p _ =>
    by_cases hp : p ∈ rest
    · simp only [if_pos hp, mem_admits_release hs]
    · simp only [if_neg hp]
  · rfl
  · rfl

theorem booked_released {rest : List (Fin n)} (hlocated : Located cfg w)
    (h : WorkBooked book (dueOn w rest) w) :
    WorkBooked book (dueOn (w.releaseRequest r) rest) (w.releaseRequest r) := by
  obtain ⟨habsent, hwaiting, -⟩ := releaseRequest_clear hlocated r
  have hother : ∀ s, s ≠ r → (w.releaseRequest r).entriesOf s = w.entriesOf s :=
    fun s hs => entriesOf_releaseRequest hlocated hs
  have hrecord : ((w.releaseRequest r).entriesOf r).record = w.requests r :=
    congrFun (requests_releaseRequest w r) r
  have hphase : ((w.releaseRequest r).entriesOf r).phase = .absent := habsent
  obtain ⟨hkept, hpaid⟩ := h r
  refine h.step r hother (fun s hs => owed_dueOn_release hs rest _) ⟨⟨?_, ?_, ?_, ?_⟩, ?_⟩
  · rw [hrecord]
    exact hkept.recorded
  · exact fun _ p hqueued => absurd (hwaiting p) hqueued
  · rw [hrecord]
    exact hkept.unseen
  · exact fun p context hchunked => nomatch hphase.symm.trans hchunked
  · rw [owed_of_absent hphase]
    cases hcompleted : (w.requests r).completed with
    | false =>
      by_cases hnew : (w.requests r).stage = none
      · -- it never arrived
        obtain ⟨location, hat⟩ := hlocated.located r
        obtain rfl : location = .unseen := hat.stage.mp hnew
        rw [owed_of_absent hat.phase] at hpaid
        rcases hpaid with hlost | hcharged
        · exact absurd hnew hlost.stamped
        · exact .inr (hrecord.symm ▸ hcharged)
      · left
        constructor
        · rw [hrecord]
          exact hcompleted
        · exact hphase
        · exact hwaiting
        · rw [hrecord]
          exact hnew
    | true =>
      rw [owed_of_completed hlocated hkept hcompleted] at hpaid
      rcases hpaid with hlost | hcharged
      · exact nomatch hcompleted.symm.trans hlost.incomplete
      · exact .inr (hrecord.symm ▸ hcharged)

end outside

/-! ## Completing an iteration -/

section completing

variable {book : RequestId → Work} {due : Due n} {completed completed' : List RequestId}

omit [PendingOrderPolicy P] in
/-- A step of single tokens retires one token of every live decode. -/
theorem completeDecodesOn_single (hsingle : cfg.decodeCompletion = .singleToken)
    (hplan : w.batchPlan p = true) (hstep : w.completeDecodesOn cfg p = .ok (w', completed)) :
    w'.kv = w.kv.issue (.advance (.wholePartition p) 1) ∧
      (∀ r ∈ w.decodeStates p, w'.requests r = DecodeCompletion.retired (w.requests r) 1) ∧
      ∀ r, r ∉ w.decodeStates p → w'.requests r = w.requests r := by
  simp only [completeDecodesOn, hplan, if_true, DecodeCompletion.completeDecodes, hsingle,
    bind_eq_ok_iff] at hstep
  obtain ⟨⟨kv, final', done'⟩, ⟨⟨final, done, assigned⟩, hmembers, hkv⟩, hw⟩ := hstep
  simp only [pure, Except.pure, Except.ok.injEq, Prod.mk.injEq] at hkv hw
  obtain ⟨rfl, rfl, rfl⟩ := hkv
  obtain ⟨rfl, rfl⟩ := hw
  have hids : (w.kv.store.partitions p).decodeMembers.map Prod.fst = w.decodeStates p :=
    members_eq w p
  have hnodup := nodup_decodeStates w p
  have hretired := DecodeCompletion.retireMembers_spec (hids ▸ hnodup) hmembers
  refine ⟨rfl, fun r hr => ?_, fun r hr => hretired.other r (hids ▸ hr)⟩
  rw [← hids, ← hretired.keys] at hr
  obtain ⟨e, he, rfl⟩ := List.mem_map.mp hr
  obtain ⟨⟨residentKv, htokens⟩, hfinal⟩ := hretired.each e he
  have hone : 1 = e.2 := Except.ok.inj htokens
  rw [hone]
  exact hfinal

/-- What a partition that took its decode step is still due: its chunks. -/
def Due.decoded (due : Due n) (p : Fin n) : Due n :=
  { due with runs := Function.update due.runs p false }

/-- A partition with the chunks of `rest` still to complete. -/
def Due.prefilling (due : Due n) (p : Fin n) (rest : List RequestId) : Due n :=
  { due with chunks := Function.update due.chunks p rest }

@[simp] theorem Due.decoded_self (due : Due n) (p : Fin n) : (due.decoded p).runs p = false :=
  Function.update_self ..

theorem Due.decoded_of_ne (due : Due n) {p q : Fin n} (h : q ≠ p) :
    (due.decoded p).runs q = due.runs q :=
  Function.update_of_ne h ..

@[simp] theorem Due.prefilling_self (due : Due n) (p : Fin n) (rest : List RequestId) :
    (due.prefilling p rest).chunks p = rest :=
  Function.update_self ..

theorem Due.prefilling_of_ne (due : Due n) {p q : Fin n} (h : q ≠ p) (rest : List RequestId) :
    (due.prefilling p rest).chunks q = due.chunks q :=
  Function.update_of_ne h ..

@[simp] theorem Due.prefilling_runs (due : Due n) (p q : Fin n) (rest : List RequestId) :
    (due.prefilling p rest).runs q = due.runs q := rfl

variable {e : Entries acc n}

theorem owed_decoded_of_ne (h : e.phase ≠ .resident p) :
    owed (due.decoded p) r e = owed due r e := by
  unfold owed
  split
  · rfl
  · next q hq =>
    have hne : q ≠ p := fun heq => h (heq ▸ hq)
    simp only [due.decoded_of_ne hne]
  · rfl

theorem owed_decoded_self (h : e.phase = .resident p) :
    owed (due.decoded p) r e = 0 := by
  simp [owed_resident h]

theorem booked_decoded (hsingle : cfg.decodeCompletion = .singleToken)
    (hruns : due.runs p = w.batchPlan p) (hlocated : Located cfg w)
    (hstep : w.completeDecodesOn cfg p = .ok (w', completed)) (h : WorkBooked book due w) :
    WorkBooked book (due.decoded p) w' := by
  have hdecode := hlocated.decodeStep hstep
  cases hplan : w.batchPlan p with
  | false =>
    -- without a decode planned the step is idle and no row was due
    obtain rfl := hdecode.idle hplan
    have hsame : due.decoded p = due := by
      rw [Due.decoded, ← hplan, ← hruns, Function.update_eq_self]
    rw [hsame]
    exact h
  | true =>
    obtain ⟨hkv, hlive, hrest⟩ := completeDecodesOn_single hsingle hplan hstep
    intro r
    obtain ⟨hkept, hpaid⟩ := h r
    have hphase : (w'.entriesOf r).phase = (w.entriesOf r).phase := hdecode.phase r
    have hwaiting : (w'.entriesOf r).waiting = (w.entriesOf r).waiting := by
      rw [hdecode.frame]
      rfl
    have hview : (w'.entriesOf r).view = (w.entriesOf r).view :=
      congrArg (fun ledger => RequestLedger.viewOf ledger r) hdecode.ledger
    have hepisode : (w'.entriesOf r).episode = (w.entriesOf r).episode := by
      rw [hdecode.frame]
      rfl
    by_cases hr : r ∈ w.decodeStates p
    · -- a member computes its row
      have hresident := hlocated.resident_of_live hr
      have hat := hlocated.at_resident hresident
      obtain ⟨state, hstate, hin⟩ := hat.progress
      obtain ⟨state', hstate', hpositive⟩ := mem_decodeStates.mp hr
      obtain rfl : state = state' := Option.some.inj (hstate.symm.trans hstate')
      have hemitted : 0 < (w.requests r).outputTokensEmitted := hin.emitted
      obtain ⟨hrecorded, hwork⟩ := hkept.recorded.decoded hemitted hin.currentKv
      have hrecord : (w'.entriesOf r).record =
          DecodeCompletion.retired (w.entriesOf r).record 1 := hlive r hr
      have hcharged := hpaid.charged fun habsent => by cases hresident.symm.trans habsent
      have howed : owed due r (w.entriesOf r) = rowShare state.currentKv := by
        rw [owed_resident hresident, hruns, hplan, if_pos rfl, hstate, rowOwed, if_pos hpositive]
      obtain ⟨-, hmore, hstage⟩ := DecodeCompletion.retired_spec (w.entriesOf r).record 1
      refine ⟨⟨?_, fun hzero => ?_, fun hunseen => ?_, fun q context hchunked => ?_⟩, .inr ?_⟩
      · rw [hrecord]
        exact hrecorded
      · rw [hrecord, hmore] at hzero
        omega
      · rw [hrecord] at hunseen
        exact absurd hunseen (hstage (hat.stamped fun h => by cases h))
      · cases (hphase.symm.trans hchunked).symm.trans hresident
      · rw [owed_decoded_self (hphase.trans hresident), hrecord, hwork, hcharged, howed, add_zero]
    · have hrecord : (w'.entriesOf r).record = (w.entriesOf r).record := hrest r hr
      refine ⟨⟨?_, ?_, ?_, ?_⟩, ?_⟩
      · rw [hrecord]
        exact hkept.recorded
      · rw [hrecord, hwaiting]
        exact hkept.waiting
      · rw [hrecord]
        exact hkept.unseen
      · rw [hrecord, hphase, hview, hepisode]
        exact hkept.first
      · have howed : owed (due.decoded p) r (w'.entriesOf r) = owed due r (w.entriesOf r) := by
          by_cases hresident : w.store.phaseOf r = .resident p
          · -- a decode that is finished computes nothing
            rw [owed_decoded_self (hphase.trans hresident)]
            have hzero : rowOwed ((w.entriesOf r).decode p) = 0 := rowOwed_of_notMem hr
            rw [owed_resident hresident, hzero, ite_self]
          · rw [owed_decoded_of_ne fun heq => hresident (hphase.symm.trans heq)]
            unfold owed
            rw [hphase, hview]
            split
            · rfl
            · next q hq =>
              have hne : q ≠ p := fun heq => hresident (heq ▸ hq)
              have hdecodeOf : (w'.entriesOf r).decode q = (w.entriesOf r).decode q := by
                have hother : w'.store.partitions q = w.store.partitions q := by
                  have hstore : w'.store = w.store.advance (.wholePartition p) 1 :=
                    congrArg IssuedStore.store hkv
                  rw [hstore]
                  exact w.store.advance_other 1 hne
                simp only [ChunkedPrefillWorker.entriesOf, KvCacheStore.decodeOf, hother]
              rw [hdecodeOf]
            · rfl
        -- outside the step a request keeps its debt, or stays lost
        rw [howed]
        rcases hpaid with hlost | hcharged
        · left
          constructor
          · rw [hrecord]
            exact hlost.incomplete
          · exact hphase.trans hlost.absent
          · rw [hwaiting]
            exact hlost.waiting
          · rw [hrecord]
            exact hlost.stamped
        · rw [← hrecord] at hcharged
          exact .inr hcharged

theorem owed_prefilling_of_ne {s : RequestId} (hs : s ≠ r)
    (rest : List RequestId) :
    owed (due.prefilling p rest) s e = owed (due.prefilling p (r :: rest)) s e := by
  unfold owed
  split
  · next q _ =>
    by_cases hq : q = p
    · subst hq
      simp only [Due.prefilling_self, List.mem_cons, hs, false_or]
    · simp only [due.prefilling_of_ne hq]
  · rfl
  · rfl

theorem booked_prefilled {rest : List RequestId} (hruns : due.runs p = false) (hnew : r ∉ rest)
    (hlocated : Located cfg w) (haccounted : Accounted w)
    (hadmitted : r ∈ (w.store.partitions p).prefillAdmits)
    (hstep : completePrefill p (w, completed) r = .ok (w', completed'))
    (h : WorkBooked book (due.prefilling p (r :: rest)) w) :
    WorkBooked book (due.prefilling p rest) w' := by
  have hchunk := hlocated.completePrefill hadmitted hstep
  refine h.step r hchunk.entries (fun s hs => owed_prefilling_of_ne hs rest) ?_
  obtain ⟨hkept, hpaid⟩ := h r
  obtain ⟨reprocessed, context, after, record, hepisode, hcontext, hafter, hrecord, hfinal⟩ :=
    completePrefill_spec hstep
  have hcontext' := contextOf_completePrefillChunk hcontext
  obtain rfl := Option.some.inj (hafter.symm.trans hcontext')
  have hphase : (w.entriesOf r).phase = .chunked p := hchunk.before
  obtain ⟨c, hat⟩ := hlocated.at_chunked hchunk.before
  have hfits : c.Fits (w.requests r) := hat.progress.1
  have hretracted : reprocessed = c.retracted := Option.some.inj (hepisode.symm.trans hat.episode)
  have howed := (haccounted r).computing p context hchunk.before hcontext
  rw [show (w.entriesOf r).episode = some reprocessed from hepisode] at howed
  obtain ⟨hrecorded, hwork, hfollows⟩ := hkept.recorded.chunk howed
    (fun hfresh => ⟨hfits.first (hretracted.symm.trans hfresh),
      hkept.first p context hphase hcontext (hepisode.trans (congrArg some hfresh))⟩)
    (fun hagain => (hfits.again (hretracted.symm.trans hagain)).1) rfl hrecord
  have hcharged := hpaid.charged fun habsent => by cases hphase.symm.trans habsent
  have hdue : owed (due.prefilling p (r :: rest)) r (w.entriesOf r) =
      chunkShare context.activeChunk := by
    have hview' : (w.entriesOf r).view.context = some context := hcontext
    rw [owed_chunked hphase, Due.prefilling_self, if_pos List.mem_cons_self, chunkOwed, hview']
    rfl
  have hself : (Function.update w.requests r record) r = record := Function.update_self ..
  have hstamped : record.stage ≠ none := by
    have hseen := hat.stamped fun h => by cases h
    exact (recordChunk_spec hrecord).2.2 hseen
  have hnone : (w.entriesOf r).record.outputTokensEmitted = 0 → record.outputTokensEmitted = 0 →
      ∀ q, (w.entriesOf r).waiting q ≠ [] → record.prefillTokensProcessed = 0 := by
    intro _ _ q hqueued
    rw [hat.waiting q] at hqueued
    exact absurd rfl hqueued
  have hwaiting : ∀ q, (w'.entriesOf r).waiting q = [] := by
    intro q
    have hsame : (w'.entriesOf r).waiting q = (w.entriesOf r).waiting q := by
      rw [hchunk.frame]
      rfl
    rw [hsame, hat.waiting q]
    rfl
  have hrecord' : (w'.entriesOf r).record = record := by
    split at hfinal
    · obtain ⟨rfl, -⟩ := hfinal
      exact hself
    · obtain ⟨rfl, -⟩ := hfinal
      exact hself
  -- after its chunk the request owes nothing this turn, decoding or not
  have hpaid' : owed (due.prefilling p rest) r (w'.entriesOf r) = 0 := by
    obtain ⟨hphase', -⟩ | ⟨hphase', -⟩ := hchunk.credited
    · rw [owed_chunked hphase', Due.prefilling_self, if_neg hnew]
    · rw [owed_resident hphase', Due.prefilling_runs, hruns]
      rfl
  refine ⟨⟨?_, fun _ q hqueued => absurd (hwaiting q) hqueued, fun hunseen => ?_,
    fun q later hchunked hlater hfresh => ?_⟩, .inr ?_⟩
  · rw [hrecord']
    exact hrecorded
  · rw [hrecord'] at hunseen
    exact absurd hunseen hstamped
  · -- the chunk was not the last one, so the record still follows its context
    rw [hrecord']
    by_cases hdone : context.completeChunk.remainingPrefillTokens = 0
    · rw [if_pos hdone] at hfinal
      obtain ⟨rfl, -⟩ := hfinal
      have herased : ((w.issue (.completePrefillChunk r)).prefillEpisodes.erase r).lookup r =
          none := AList.lookup_erase _ _
      cases herased.symm.trans hfresh
    · rw [if_neg hdone] at hfinal
      obtain ⟨rfl, -⟩ := hfinal
      obtain rfl := Option.some.inj (hcontext'.symm.trans hlater)
      exact hfollows (Option.some.inj (hepisode.symm.trans hfresh)) (decide_eq_false hdone)
  · rw [hpaid', hrecord', hwork, hcharged, hdue, add_zero]

theorem booked_cleared (hlocated : Located cfg w) (h : WorkBooked book due w) :
    WorkBooked book due (w.issue (.clearPrefillAdmits p)) := by
  intro r
  rw [entriesOf_clear hlocated.tracked r]
  exact h r

theorem booked_finished (hruns : due.runs p = false) (hlocated : Located cfg w)
    (hresident : w.store.phaseOf r = .resident p) (h : WorkBooked book due w) :
    WorkBooked book due (releaseCompleted p w r) := by
  obtain ⟨hkept, hpaid⟩ := h r
  have hphase : (w.entriesOf r).phase = .resident p := hresident
  have hop := issuable_releaseRetainingPrefix hresident
  have habsent : ((releaseCompleted p w r).entriesOf r).phase = .absent :=
    (phaseOf_apply hlocated.tracked hop).trans (if_pos rfl)
  have hcharged := hpaid.charged fun hgone => by cases hphase.symm.trans hgone
  have hdue : owed due r (w.entriesOf r) = 0 := by
    rw [owed_resident hphase, hruns]
    rfl
  refine h.step r (fun s hs => entriesOf_releaseCompleted hlocated.tracked hresident hs)
    (fun _ _ => rfl) ⟨⟨hkept.recorded, hkept.waiting, hkept.unseen, fun q context hchunked => ?_⟩,
      .inr ?_⟩
  · cases habsent.symm.trans hchunked
  · rw [owed_of_absent habsent]
    rw [hdue] at hcharged
    exact hcharged

end completing

end ServingSim
