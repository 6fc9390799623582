import ServingSim.Admission.Paths

/-
  What a cancellation leaves behind (`cancel_pending`, `release_request`,
  `release_external`).

  The store, the pending sets and the started prompts drop everything of a cancelled
  request at once. Two side tables of the admission do not: the admission order, which
  is dropped by a retraction and by a completion only, and the open episode, which is
  dropped with a started prompt only and so outlives a cancellation while the last
  chunk is computed.

  A request has an entry in the admission order from its admission on. One that is
  cancelled while it waits, fresh or retracted, has none and leaves nothing.

  What is proved:
    1. `cancel_leaves_trace` — a cancellation while the last chunk is computed.
    2. `cancel_leaves_no_trace_iff` — in every reachable state, a cancellation leaves no
       trace exactly for the requests without an order entry.
-/

namespace ServingSim

open KeyedTotal PendingOrderPolicy KvCacheStore ChunkedPrefillWorker Relation

/-! ## Releasing a request the store does not know -/

namespace RequestLedger

variable {n : Nat} {ledger : RequestLedger n} {r : RequestId}

theorem takeHeld_of_none (h : ledger.held.lookup r = none) : (ledger.takeHeld r).1 = ledger := by
  have herase : ledger.held.erase r = ledger.held := erase_of_notMem (AList.lookup_eq_none.mp h)
  cases ledger
  simp only [takeHeld, RequestLedger.mk.injEq, true_and] at h herase ⊢
  simp [herase, h, removePreviousHeld]

theorem forgetChunkedPrefill_of_none (h : ledger.chunkedPrefill.lookup r = none) :
    ledger.forgetChunkedPrefill r = ledger := by
  have herase : ledger.chunkedPrefill.erase r = ledger.chunkedPrefill :=
    erase_of_notMem (AList.lookup_eq_none.mp h)
  cases ledger
  simp only [forgetChunkedPrefill, RequestLedger.mk.injEq, true_and] at h herase ⊢
  simp [herase, h, removePrevious]

theorem takePrefillContext_of_none (h : ledger.resolvedPrefillContexts.lookup r = none) :
    ledger.takePrefillContext r = ledger := by
  have herase : ledger.resolvedPrefillContexts.erase r = ledger.resolvedPrefillContexts :=
    erase_of_notMem (AList.lookup_eq_none.mp h)
  cases ledger
  simp only [takePrefillContext] at herase ⊢
  rw [herase]

end RequestLedger

variable {P : Type} [PendingOrderPolicy P] {acc : KvAccounting} {n : Nat}
  {cfg : ChunkedPrefillConfig n} {w w' : ChunkedPrefillWorker P acc n} {r : RequestId} {p : Fin n}

theorem viewOf_absent {store : KvCacheStore acc n} (h : store.Tracked)
    (habsent : store.phaseOf r = .absent) : store.ledger.viewOf r = .blank := by
  have ht := h r
  rw [habsent] at ht
  have hpromised := Option.map_eq_none_iff.mp ht.promised
  have hchunked := Option.map_eq_none_iff.mp ht.chunked
  have hheld := Option.map_eq_none_iff.mp ht.held
  have hplacement := ht.placement
  have hcontext := ht.context_absent rfl
  have hview : store.ledger.viewOf r = ⟨(store.ledger.viewOf r).promised,
      (store.ledger.viewOf r).chunked, (store.ledger.viewOf r).held,
      (store.ledger.viewOf r).placement, (store.ledger.viewOf r).context⟩ := rfl
  rw [hview, hpromised, hchunked, hheld, hplacement, hcontext]
  rfl

theorem releaseExternal_absent {store : KvCacheStore acc n} (h : store.Tracked)
    (habsent : store.phaseOf r = .absent) : (store.releaseExternal r).1 = store := by
  have hview := viewOf_absent h habsent
  have hplacement : store.ledger.placement.lookup r = none := congrArg RequestView.placement hview
  have hchunked : store.ledger.chunkedPrefill.lookup r = none := congrArg RequestView.chunked hview
  have hheld : store.ledger.held.lookup r = none := congrArg RequestView.held hview
  have hcontext : store.ledger.resolvedPrefillContexts.lookup r = none :=
    congrArg RequestView.context hview
  have hledger : ((store.ledger.takeHeld r).1.forgetChunkedPrefill r).takePrefillContext r =
      store.ledger := by
    rw [RequestLedger.takeHeld_of_none hheld, RequestLedger.forgetChunkedPrefill_of_none hchunked,
      RequestLedger.takePrefillContext_of_none hcontext]
  rw [releaseExternal, hplacement]
  dsimp only [modifyLedger]
  rw [hledger]

/-! ## The admission order -/

/-- A request has an order entry while it is in the store or has an episode open; one that
waits or was never asked for has none. -/
structure Ranked (order : Option Nat) (e : Entries acc n) : Prop where
  placed : e.phase ≠ .absent → order ≠ none
  episode : e.episode ≠ none → order ≠ none
  waiting : ∀ p, e.waiting p ≠ [] → order = none
  unseen : e.record.stage = none → order = none

def OrderTracked (w : ChunkedPrefillWorker P acc n) : Prop :=
  ∀ r, Ranked (w.admissionOrder.lookup r) (w.entriesOf r)

theorem OrderTracked.step (h : OrderTracked w) (q : RequestId)
    (hother : ∀ s, s ≠ q → w'.entriesOf s = w.entriesOf s ∧
      w'.admissionOrder.lookup s = w.admissionOrder.lookup s)
    (hq : Ranked (w'.admissionOrder.lookup q) (w'.entriesOf q)) : OrderTracked w' := by
  intro s
  by_cases hs : s = q
  · exact hs ▸ hq
  · obtain ⟨hentries, horder⟩ := hother s hs
    rw [hentries, horder]
    exact h s

theorem ranked_queued {e : Entries acc n} {c : AdmissionCandidate} (hat : At cfg e (.queued p c)) :
    Ranked none e where
  placed := fun hphase => absurd hat.phase hphase
  episode := fun hepisode => absurd hat.episode hepisode
  waiting := fun _ _ => rfl
  unseen := fun _ => rfl

theorem ranked_placed {order : Option Nat} {e : Entries acc n} {location : Location n}
    (hat : At cfg e location) (hphase : e.phase ≠ .absent) (horder : order ≠ none) :
    Ranked order e where
  placed := fun _ => horder
  episode := fun _ => horder
  waiting := by
    intro p hwaiting
    have hphase' := hat.phase
    rw [hat.waiting p] at hwaiting
    cases location with
    | prefilling | decoding | unseen | gone => exact absurd rfl hwaiting
    | queued q c => exact absurd hphase' hphase
  unseen := by
    intro hstage
    have hphase' := hat.phase
    rw [hat.stage.mp hstage] at hphase'
    exact absurd hphase' hphase

theorem ordered_making {config : BoundedFutureKvAdmissionConfig} {stepTokens : Nat}
    (hstep : Making config stepTokens w w') (hlocated : Located cfg w) (hidle : Idle w)
    (h : OrderTracked w) : OrderTracked w' := by
  cases hstep with
  | prepare q =>
    intro s
    rw [entriesOf_prepare hlocated.tracked]
    exact h s
  | ratio x => exact h
  | retract q victim live =>
    have hlocated' := hlocated.retract live hidle config.retractionPolicy
    have hother := fun s hs => entriesOf_retracted hlocated live config.retractionPolicy (s := s) hs
    have hat := hlocated.at_resident (hlocated.resident_of_live live)
    obtain ⟨c, f, record, hperm, hc, -, -, -, -, -, hw⟩ :=
      requeueRetracted_spec (w.issue (.release victim q)) q victim config.retractionPolicy
    have horder : ((w.issue (.release victim q)).requeueRetracted q victim
        config.retractionPolicy).admissionOrder = w.admissionOrder.erase victim := by
      rw [hw]
      rfl
    refine h.step victim (fun s hs => ⟨hother s hs, ?_⟩) ?_
    · rw [horder]
      exact AList.lookup_erase_ne hs
    · -- the victim waits again
      have hwaiting : c ∈ candidates (((w.issue (.release victim q)).requeueRetracted q victim
          config.retractionPolicy).policies q) := by
        rw [hw]
        have hentered := waiting_entered (w := w) (p := q) hc hperm hat.waiting q
        have hmem : c ∈ ofRequest victim (candidates ((w.modifyPolicy q f).policies q)) := by
          rw [hentered]
          simp [Location.waitingOn]
        exact (mem_ofRequest.mp hmem).1
      have hqueued := hlocated'.at_waiting hwaiting
      rw [hc] at hqueued
      rw [horder, AList.lookup_erase]
      exact ranked_queued hqueued

theorem ordered_forming {s s' : Forming P acc n} (hstep : FormStep cfg s s')
    (hlocated : Located cfg s.worker) (h : OrderTracked s.worker) : OrderTracked s'.worker := by
  have hlocated' := hstep.located hlocated
  cases hstep with
  | @chunk p before after c context budget tokens left available started fresh resolved size
      positive spent =>
    have hat := hlocated.at_started (p := p) (c := c) (by simp [started])
    have hphase : s.worker.store.phaseOf c.requestId = .chunked p := hat.phase
    have hop : StoreOp.Issuable s.worker.store (.schedulePrefillChunk c.requestId p tokens) :=
      hphase
    refine h.step c.requestId (fun t ht => ⟨entriesOf_scheduled hlocated.tracked hphase ht
      (ofRequest_rescheduled started (fun d hd => mem_kept hd) ht), rfl⟩) ?_
    have hafter : (StoreOp.apply s.worker.store
        (.schedulePrefillChunk c.requestId p tokens)).phaseOf c.requestId = .chunked p :=
      (phaseOf_apply hlocated.tracked hop).trans hphase
    obtain ⟨location, hat'⟩ := hlocated'.located c.requestId
    refine ranked_placed hat' ?_ ((h c.requestId).placed ?_)
    · exact fun habsent => nomatch hafter.symm.trans habsent
    · exact fun habsent => nomatch hphase.symm.trans habsent
  | refresh p =>
    intro t
    exact (entriesOf_refresh hlocated p t).symm ▸ h t
  | @admitted p budget chunkBudget left slots slots' a worker available windows room gate claimed
      entered spent =>
    obtain ⟨hpeek, -⟩ := gateHead_spec gate
    obtain ⟨hphase, -⟩ := hlocated.admitted hpeek entered
    have horder : worker.admissionOrder =
        s.worker.admissionOrder.insert a.candidate.requestId s.worker.nextAdmission := by
      obtain ⟨record, -, rfl⟩ := admitHead_spec entered
      rfl
    refine h.step a.candidate.requestId
      (fun t ht => ⟨entriesOf_admitted hlocated hpeek entered ht, ?_⟩) ?_
    · rw [horder]
      exact AList.lookup_insert_ne ht
    · obtain ⟨location, hat⟩ := hlocated'.located a.candidate.requestId
      refine ranked_placed hat (fun habsent => nomatch hphase.symm.trans habsent) ?_
      rw [horder, AList.lookup_insert]
      exact Option.some_ne_none _

theorem Completing.absent (hstep : Completing cfg p w w')
    (hlocated : Located cfg w) (habsent : w.store.phaseOf r = .absent) :
    w'.entriesOf r = w.entriesOf r ∧ w'.admissionOrder.lookup r = w.admissionOrder.lookup r := by
  cases hstep with
  | decoded step =>
    have hdecode := hlocated.decodeStep step
    have hframe := hdecode.frame
    have hrecord : w'.requests r = w.requests r := by
      obtain hsame | ⟨hlive, -⟩ := hdecode.credited r
      · exact hsame
      · exact nomatch habsent.symm.trans (hlocated.resident_of_live hlive)
    have hnone : ∀ {v : ChunkedPrefillWorker P acc n}, Located cfg v →
        v.store.phaseOf r = .absent → ∀ q, v.store.decodeOf q r = none := by
      intro v hv hphase q
      cases hdecodeOf : v.store.decodeOf q r with
      | none => rfl
      | some state =>
        have hresident := ((hv.tracked r).resident q).mp
          ((v.store.resident_iff_decodeOf q r).mpr (by simp [hdecodeOf]))
        exact nomatch hphase.symm.trans hresident
    have hphase := hdecode.phase r
    constructor
    · ext1
      · rw [hframe]
        rfl
      · rw [hframe]
        rfl
      · rw [hframe]
        rfl
      · exact hrecord
      · exact hphase
      · exact congrArg (fun ledger => RequestLedger.viewOf ledger r) hdecode.ledger
      · funext q
        exact (hnone hdecode.located (hphase.trans habsent) q).trans
          (hnone hlocated habsent q).symm
    · rw [hframe]
  | @prefilled _ q completed completed' admitted step =>
    have hchunk := hlocated.completePrefill admitted step
    have hne : r ≠ q := by
      intro heq
      subst heq
      exact nomatch habsent.symm.trans hchunk.before
    refine ⟨hchunk.entries r hne, ?_⟩
    rw [hchunk.frame]
  | cleared => exact ⟨entriesOf_clear hlocated.tracked r, rfl⟩
  | @finished q resident complete free =>
    have hne : r ≠ q := by
      intro heq
      subst heq
      exact nomatch habsent.symm.trans resident
    exact ⟨entriesOf_releaseCompleted hlocated.tracked resident hne, AList.lookup_erase_ne hne⟩

theorem completing_rule {J : ChunkedPrefillWorker P acc n → Prop}
    (hturn : ∀ {p} {w w' : ChunkedPrefillWorker P acc n},
      Completing cfg p w w' → Located cfg w → J w → J w')
    (hpath : ReflTransGen (fun w w' => ∃ p, Completing cfg p w w') w w')
    (hlocated : Located cfg w) (hw : J w) : J w' := by
  have hall : Located cfg w' ∧ J w' := by
    induction hpath with
    | refl => exact ⟨hlocated, hw⟩
    | tail _ hstep ih =>
      obtain ⟨q, hstep⟩ := hstep
      exact ⟨hstep.located ih.1, hturn hstep ih.1 ih.2⟩
  exact hall.2

theorem ordered_completing (hstep : Completing cfg p w w') (hlocated : Located cfg w)
    (h : OrderTracked w) : OrderTracked w' := by
  have hlocated' := hstep.located hlocated
  intro r
  by_cases habsent : w.store.phaseOf r = .absent
  · obtain ⟨hentries, horder⟩ := hstep.absent hlocated habsent
    rw [hentries, horder]
    exact h r
  · have hnone : w.admissionOrder.lookup r ≠ none := (h r).placed habsent
    obtain ⟨location, hat⟩ := hlocated'.located r
    cases hstep with
    | decoded step =>
      have hdecode := hlocated.decodeStep step
      refine ranked_placed hat ?_ ?_
      · exact fun hphase => habsent ((hdecode.phase r).symm.trans hphase)
      · rw [hdecode.frame]
        exact hnone
    | @prefilled _ q completed completed' admitted step =>
      have hchunk := hlocated.completePrefill admitted step
      refine ranked_placed hat ?_ ?_
      · intro hphase
        by_cases hr : r = q
        · subst hr
          obtain ⟨hafter, -⟩ | ⟨hafter, -⟩ := hchunk.credited
          · exact nomatch hafter.symm.trans hphase
          · exact nomatch hafter.symm.trans hphase
        · exact habsent ((hchunk.other hr).1.symm.trans hphase)
      · rw [hchunk.frame]
        exact hnone
    | cleared =>
      rw [entriesOf_clear hlocated.tracked r]
      exact h r
    | @finished q resident complete free =>
      by_cases hr : r = q
      · -- it leaves the order with the store, and its episode was over before
        subst hr
        have hepisode : w.prefillEpisodes.lookup r = none := (hlocated.at_resident resident).episode
        have hop := issuable_releaseRetainingPrefix resident
        have hphase : (releaseCompleted p w r).store.phaseOf r = .absent :=
          (phaseOf_apply hlocated.tracked hop).trans (if_pos rfl)
        have horder : (releaseCompleted p w r).admissionOrder.lookup r = none :=
          AList.lookup_erase _ _
        rw [horder]
        exact
          { placed := fun hplaced => absurd hphase hplaced
            episode := fun hopen => absurd hepisode hopen
            waiting := fun _ _ => rfl
            unseen := fun _ => rfl }
      · rw [entriesOf_releaseCompleted hlocated.tracked resident hr]
        have horder : (releaseCompleted p w q).admissionOrder.lookup r =
            w.admissionOrder.lookup r := AList.lookup_erase_ne hr
        rw [horder]
        exact h r

theorem ordered_enqueued (hlocated : Located cfg w) (hnew : (w.requests r).stage = none)
    (hstep : w.acceptMessage cfg r = .ok w') (h : OrderTracked w) : OrderTracked w' := by
  have hlocated' := hlocated.accept hnew hstep
  obtain ⟨p, c, sequence, balance, hc, -, -, -, -, hw⟩ := acceptMessage_spec hstep
  have hperm : ∀ pending : P, (candidates (push pending c)).Perm (c :: candidates pending) :=
    fun pending => push_perm pending c
  have hwaiting : c ∈ candidates (w'.policies p) := by
    rw [hw]
    simpa [modifyPolicy] using (hperm (w.policies p)).mem_iff.mpr List.mem_cons_self
  have hqueued := hlocated'.at_waiting hwaiting
  have horder : w'.admissionOrder = w.admissionOrder := by
    rw [hw]
    rfl
  refine h.step r (fun s hs => ⟨?_, congrArg (AList.lookup s) horder⟩) ?_
  · rw [hw]
    refine (entriesOf_entered (hc.trans_ne hs.symm) hperm ?_).trans (w.entriesOf_requests hs :)
    exact hlocated.length_waiting_le s p
  · rw [hc] at hqueued
    rw [horder, (h r).unseen hnew]
    exact ranked_queued hqueued

/-! ## After a cancellation -/

theorem releaseRequest_clear (h : Located cfg w) (r : RequestId) :
    (w.releaseRequest r).store.phaseOf r = .absent ∧
      (∀ p, ofRequest r (candidates ((w.releaseRequest r).policies p)) = []) ∧
      ∀ p, ofRequest r ((w.releaseRequest r).startedPrefills p) = [] := by
  have hlocated' := h.cancel r
  obtain ⟨p, hsome, hw⟩ | ⟨hnone, episodes, hepisodes, hw⟩ := releaseRequest_cases w r
  · have hfound : ∃ c ∈ candidates (w.policies p), c.requestId = r := by
      by_contra hnone
      push Not at hnone
      rw [(remove_eq_none_iff _ _).mpr hnone] at hsome
      cases hsome
    obtain ⟨c, hc, rfl⟩ := hfound
    have hat := h.at_waiting hc
    have hwaiting : ∀ q, ofRequest c.requestId
        (candidates ((w.releaseRequest c.requestId).policies q)) = [] := by
      intro q
      rw [ofRequest_eq_nil_iff, hw]
      by_cases hq : q = p
      · subst hq
        simp only [modifyPolicy, Function.update_self]
        intro d hd
        have hmem := (remove_perm _ c.requestId (h.nodup_waiting q)).mem_iff.mp hd
        simpa using (List.mem_filter.mp hmem).2
      · simp only [modifyPolicy, Function.update_of_ne hq]
        have hempty := hat.waiting q
        simp only [Location.waitingOn, if_neg (Ne.symm hq)] at hempty
        exact ofRequest_eq_nil_iff.mp hempty
    refine ⟨?_, hwaiting, fun q => ?_⟩
    · rw [hw]
      exact hat.phase
    · rw [hw]
      exact List.sublist_nil.mp (hat.started q)
  · have hop : StoreOp.Issuable w.store (.releaseExternal r) := trivial
    rw [hw]
    refine ⟨(phaseOf_apply h.tracked hop).trans (if_pos rfl), fun q => ?_, fun q => ?_⟩
    · exact ofRequest_eq_nil_iff.mpr (hnone q)
    · simp [ofRequest_eq_nil_iff]

theorem order_releaseRequest (w : ChunkedPrefillWorker P acc n) (r : RequestId) :
    (w.releaseRequest r).admissionOrder = w.admissionOrder := by
  obtain ⟨p, -, hw⟩ | ⟨-, episodes, -, hw⟩ := releaseRequest_cases w r
  · rw [hw]
    rfl
  · rw [hw]
    rfl

theorem entriesOf_releaseRequest (hlocated : Located cfg w) {s : RequestId} (hs : s ≠ r) :
    (w.releaseRequest r).entriesOf s = w.entriesOf s := by
  obtain ⟨p, hsome, hw⟩ | ⟨hnone, episodes, hepisodes, hw⟩ := releaseRequest_cases w r
  · rw [hw]
    apply w.entriesOf_modifyPolicy
    have hperm := remove_perm _ r (hlocated.nodup_waiting p)
    have hfilter : ofRequest s ((candidates (w.policies p)).filter fun c => c.requestId ≠ r) =
        ofRequest s (candidates (w.policies p)) := by
      rw [ofRequest, List.filter_filter]
      refine List.filter_congr fun c _ => ?_
      by_cases hc : c.requestId = s
      · simp [hc, hs]
      · simp [hc]
    rw [← hfilter]
    apply ofRequest_of_perm hperm
    rw [hfilter]
    exact hlocated.length_waiting_le s p
  · rw [hw]
    exact entriesOf_dropped hlocated hepisodes hs

theorem requests_releaseRequest (w : ChunkedPrefillWorker P acc n) (r : RequestId) :
    (w.releaseRequest r).requests = w.requests := by
  obtain ⟨p, -, hw⟩ | ⟨-, episodes, -, hw⟩ := releaseRequest_cases w r
  · rw [hw]
    rfl
  · rw [hw]
    rfl

theorem ordered_released (hlocated : Located cfg w) (h : OrderTracked w) (r : RequestId) :
    OrderTracked (w.releaseRequest r) := by
  obtain ⟨hphase, hwaiting, -⟩ := releaseRequest_clear hlocated r
  have horder := order_releaseRequest w r
  have hepisode : ((w.releaseRequest r).entriesOf r).episode ≠ none →
      (w.entriesOf r).episode ≠ none := by
    obtain ⟨p, -, hw⟩ | ⟨-, episodes, rfl | rfl, hw⟩ := releaseRequest_cases w r
    · rw [hw]
      exact id
    · rw [hw]
      exact fun hopen => absurd (AList.lookup_erase _ _) hopen
    · rw [hw]
      exact id
  have hrecord := requests_releaseRequest w r
  refine h.step r (fun s hs =>
      ⟨entriesOf_releaseRequest hlocated hs, congrArg (AList.lookup s) horder⟩) ?_
  rw [horder]
  exact
    { placed := fun hplaced => absurd hphase hplaced
      episode := fun hopen => (h r).episode (hepisode hopen)
      waiting := fun p hqueued => absurd (hwaiting p) hqueued
      unseen := fun hstage => (h r).unseen ((congrArg (fun requests : Requests =>
        (requests r).stage) hrecord).symm.trans hstage) }

theorem ordered_step {op : WorkerOp} (hsettled : Settled cfg w) (h : OrderTracked w)
    (hop : op.Enabled w) (hstep : op.step cfg w = .ok w') : OrderTracked w' := by
  cases op with
  | enqueue r => exact ordered_enqueued hsettled.located hop hstep h
  | formBatch =>
    obtain ⟨formed, hasBatch, hform, rfl⟩ := WorkerOp.step_formBatch hstep
    obtain ⟨-, hformed, -⟩ := formBatch_rule (J := OrderTracked) (fun _ _ _ _ hw => hw)
      (fun hturn hlocated hidle hw => ordered_making hturn hlocated hidle hw)
      (fun hturn hlocated hw => ordered_forming hturn hlocated hw) hform hsettled.located
      (hsettled.idle hop) h
    exact hformed
  | completeIteration =>
    obtain ⟨completed, events, hcomplete, rfl⟩ := WorkerOp.step_completeIteration hstep
    obtain ⟨hpath, -, -⟩ := completeIteration_path hsettled.located hcomplete
    have hall : OrderTracked completed :=
      completing_rule (fun hturn hlocated hw => ordered_completing hturn hlocated hw) hpath
        hsettled.located h
    exact hall
  | release r =>
    obtain rfl := Except.ok.inj hstep
    exact ordered_released hsettled.located h r

theorem ordered_new (cfg : ChunkedPrefillConfig n) (budget : PrefixCacheBudget)
    (requests : Requests) (policies : Fin n → P) (balance : LoadBalance) :
    OrderTracked (ChunkedPrefillWorker.new cfg budget requests policies balance :
      ChunkedPrefillWorker P acc n) := by
  intro r
  constructor
  · exact fun hplaced => absurd rfl hplaced
  · exact fun hopen => absurd rfl hopen
  · exact fun _ _ => rfl
  · exact fun _ => rfl

theorem Reached.ordered (h : Reached cfg w) : Settled cfg w ∧ OrderTracked w :=
  h.invariant
    (fun budget requests policies balance _ _ => ordered_new cfg budget requests policies balance)
    fun _ _ _ hsettled hw hop hstep => ordered_step hsettled hw hop hstep

/-! ## No trace -/

/-- Nothing the worker keeps is keyed by the request. -/
structure NothingOf (w : ChunkedPrefillWorker P acc n) (r : RequestId) : Prop where
  waiting : ∀ p, ofRequest r (candidates (w.policies p)) = []
  started : ∀ p, ofRequest r (w.startedPrefills p) = []
  episode : w.prefillEpisodes.lookup r = none
  order : w.admissionOrder.lookup r = none
  ledger : w.store.ledger.viewOf r = .blank
  resident : ∀ p, ¬ w.store.Resident p r
  iteration : ∀ p, r ∉ (w.store.partitions p).prefillAdmits

/-- The candidates of the other requests, in their order. -/
def ofOthers (r : RequestId) (candidates : List AdmissionCandidate) : List AdmissionCandidate :=
  candidates.filter fun c => c.requestId ≠ r

/-- Two workers that differ in the entries of one request only. -/
structure SameBut (r : RequestId) (w w' : ChunkedPrefillWorker P acc n) : Prop where
  waiting : ∀ p, ofOthers r (candidates (w'.policies p)) = ofOthers r (candidates (w.policies p))
  started : ∀ p, ofOthers r (w'.startedPrefills p) = ofOthers r (w.startedPrefills p)
  episodes : w'.prefillEpisodes.erase r = w.prefillEpisodes.erase r
  order : w'.admissionOrder.erase r = w.admissionOrder.erase r
  promised : w'.store.ledger.promised.erase r = w.store.ledger.promised.erase r
  chunkedPrefill : w'.store.ledger.chunkedPrefill.erase r = w.store.ledger.chunkedPrefill.erase r
  held : w'.store.ledger.held.erase r = w.store.ledger.held.erase r
  placement : w'.store.ledger.placement.erase r = w.store.ledger.placement.erase r
  contexts : w'.store.ledger.resolvedPrefillContexts.erase r =
    w.store.ledger.resolvedPrefillContexts.erase r
  decodes : ∀ p, (w'.store.partitions p).decodes.slots.filter (fun e => e.1 ≠ r) =
    (w.store.partitions p).decodes.slots.filter fun e => e.1 ≠ r
  iteration : ∀ p, (w'.store.partitions p).prefillAdmits.filter (fun s => s ≠ r) =
    (w.store.partitions p).prefillAdmits.filter fun s => s ≠ r
  prefixCaches : w'.store.prefixCaches = w.store.prefixCaches
  requests : w'.requests = w.requests

/-- The iteration in flight, if there is one, has completed. -/
def settle (cfg : ChunkedPrefillConfig n) (w : ChunkedPrefillWorker P acc n) :
    Except String (ChunkedPrefillWorker P acc n) :=
  if w.computing then WorkerOp.completeIteration.step cfg w else .ok w

theorem settle_absent (h : Located cfg w) (habsent : w.store.phaseOf r = .absent)
    (hsettle : settle cfg w = .ok w') :
    Located cfg w' ∧ w'.entriesOf r = w.entriesOf r ∧
      w'.admissionOrder.lookup r = w.admissionOrder.lookup r := by
  unfold settle at hsettle
  split at hsettle
  · obtain ⟨completed, events, hcomplete, rfl⟩ := WorkerOp.step_completeIteration hsettle
    obtain ⟨hpath, hlocated, -⟩ := completeIteration_path h hcomplete
    have hsame : completed.entriesOf r = w.entriesOf r ∧
        completed.admissionOrder.lookup r = w.admissionOrder.lookup r := by
      refine completing_rule (J := fun v => v.entriesOf r = w.entriesOf r ∧
        v.admissionOrder.lookup r = w.admissionOrder.lookup r) ?_ hpath h ⟨rfl, rfl⟩
      intro p v v' hturn hv hsame
      obtain ⟨hentries, horder⟩ := hturn.absent hv ((congrArg Entries.phase hsame.1).trans habsent)
      exact ⟨hentries.trans hsame.1, horder.trans hsame.2⟩
    exact ⟨hlocated.of_eq rfl rfl rfl rfl rfl, hsame⟩
  · obtain rfl := Except.ok.inj hsettle
    exact ⟨h, rfl, rfl⟩

theorem Located.nothingOf (h : Located cfg w) (habsent : w.store.phaseOf r = .absent)
    (hwaiting : ∀ p, ofRequest r (candidates (w.policies p)) = [])
    (hstarted : ∀ p, ofRequest r (w.startedPrefills p) = [])
    (hepisode : w.prefillEpisodes.lookup r = none) (horder : w.admissionOrder.lookup r = none) :
    NothingOf w r where
  waiting := hwaiting
  started := hstarted
  episode := hepisode
  order := horder
  ledger := viewOf_absent h.tracked habsent
  resident := by
    intro p hresident
    exact nomatch habsent.symm.trans (((h.tracked r).resident p).mp hresident)
  iteration := fun p hmem => h.scheduled.not_absent habsent p r hmem rfl

theorem store_releaseRequest (h : Located cfg w) (habsent : w.store.phaseOf r = .absent) :
    (w.releaseRequest r).store = w.store := by
  obtain ⟨p, -, hw⟩ | ⟨-, episodes, -, hw⟩ := releaseRequest_cases w r
  · rw [hw]
    rfl
  · rw [hw]
    exact releaseExternal_absent h.tracked habsent

theorem erase_erase_self {K V : Type*} [DecidableEq K] (m : Table K V) (k : K) :
    (m.erase k).erase k = m.erase k :=
  erase_of_notMem fun hmem => (AList.mem_erase.mp hmem).1 rfl

theorem sameBut_of_unordered {w : ChunkedPrefillWorker PendingOrder acc n} (h : Located cfg w)
    (hordered : OrderTracked w) (hnone : w.admissionOrder.lookup r = none) :
    SameBut r w (w.releaseRequest r) := by
  have habsent : w.store.phaseOf r = .absent := by
    by_contra hplaced
    exact (hordered r).placed hplaced hnone
  have hstore := store_releaseRequest h habsent
  have hwaiting : ∀ p, ofOthers r (candidates ((w.releaseRequest r).policies p)) =
      ofOthers r (candidates (w.policies p)) := by
    intro p
    obtain ⟨q, -, hw⟩ | ⟨-, episodes, -, hw⟩ := releaseRequest_cases w r
    · rw [hw]
      by_cases hp : p = q
      · subst hp
        have hremove : candidates (remove (w.policies p) r).2 =
            (candidates (w.policies p)).filter fun c => c.requestId ≠ r :=
          PendingOrder.candidates_remove (w.policies p) r (h.nodup_waiting p)
        simp only [modifyPolicy, Function.update_self, hremove, ofOthers, List.filter_filter,
          Bool.and_self]
      · simp only [modifyPolicy, Function.update_of_ne hp]
    · rw [hw]
      rfl
  have hrest : (∀ p, ofOthers r ((w.releaseRequest r).startedPrefills p) =
        ofOthers r (w.startedPrefills p)) ∧
      (w.releaseRequest r).prefillEpisodes.erase r = w.prefillEpisodes.erase r ∧
      (w.releaseRequest r).requests = w.requests := by
    obtain ⟨q, -, hw⟩ | ⟨-, episodes, hepisodes, hw⟩ := releaseRequest_cases w r
    · rw [hw]
      exact ⟨fun _ => rfl, rfl, rfl⟩
    · rw [hw]
      refine ⟨fun p => ?_, ?_, rfl⟩
      · simp only [ofOthers, List.filter_filter, Bool.and_self]
      · obtain rfl | rfl := hepisodes
        · exact erase_erase_self _ _
        · rfl
  obtain ⟨hstarted, hepisodes, hrequests⟩ := hrest
  constructor
  case waiting => exact hwaiting
  case started => exact hstarted
  case episodes => exact hepisodes
  case order => rw [order_releaseRequest]
  case requests => exact hrequests
  all_goals rw [hstore]
  all_goals exact fun _ => rfl

/-- An engine whose batch is one prompt of twelve tokens. -/
def onePromptEngine : ChunkedPrefillConfig 1 where
  maxBatchTokens := 12
  batchPolicy := .mix
  kvAdmission := .fullFootprint
  chunkEndAlignment := none
  decodeCompletion := .singleToken
  draftingSlots := 0
  maxBatchTokens_pos := by decide
  partitions_pos := Nat.one_pos
  onePartition := ChunkedPrefillConfig.onePartition_fullFootprint
  quantum_pos := ChunkedPrefillConfig.quantum_pos_none

theorem onePromptPool_pos : 0 < 100 := by decide

abbrev OnePromptWorker : Type :=
  ChunkedPrefillWorker PendingOrder (KvAccounting.tokensForTest 100 onePromptPool_pos) 1

/-- The first request is prefilled in one chunk, the second waits. -/
def onePromptRun : Except String OnePromptWorker :=
  Run.tryRun (WorkerOp.step onePromptEngine)
    (ChunkedPrefillWorker.new onePromptEngine .disabled
      (fun r => .fromRequest r 0 12 4 .standalone) (fun _ => .new .fifo) .single)
    [.enqueue 1, .enqueue 2, .formBatch]

theorem reached_onePromptRun {w : OnePromptWorker} (h : onePromptRun = .ok w) :
    Reached onePromptEngine w :=
  ⟨.disabled, fun r => .fromRequest r 0 12 4 .standalone, fun _ => .new .fifo, .single, _,
    fun _ => rfl, fun _ => rfl, by decide +kernel, h⟩

/-- **A cancellation that leaves a trace**: the request's last chunk is in flight, and once
that has completed the order entry and the episode are still there. -/
theorem cancel_leaves_trace :
    ∃ w w' : OnePromptWorker, Reached onePromptEngine w ∧ w.computing = true ∧
      settle onePromptEngine (w.releaseRequest 1) = .ok w' ∧
      w'.admissionOrder.lookup 1 = some 0 ∧ w'.prefillEpisodes.lookup 1 = some false ∧
      ¬ NothingOf w' 1 := by
  have hchecked : ∃ w : OnePromptWorker, onePromptRun = .ok w ∧ (w.computing &&
      (settle onePromptEngine (w.releaseRequest 1)).toOption.any fun w' =>
        decide (w'.admissionOrder.lookup 1 = some 0 ∧
          w'.prefillEpisodes.lookup 1 = some false)) = true :=
    exists_ok_of_check (by decide +kernel)
  obtain ⟨w, hrun, hcheck⟩ := hchecked
  rw [Bool.and_eq_true] at hcheck
  obtain ⟨hcomputing, hsettled⟩ := hcheck
  obtain ⟨w', hsettle, hleft⟩ := exists_ok_of_any hsettled
  obtain ⟨horder, hepisode⟩ := of_decide_eq_true hleft
  refine ⟨w, w', reached_onePromptRun hrun, hcomputing, hsettle, horder, hepisode, ?_⟩
  intro hnothing
  exact nomatch horder.symm.trans hnothing.order

/-- **A cancellation leaves no trace** exactly if the request has no entry in the admission
order: it waits, fresh or retracted, or the worker does not have it. -/
theorem cancel_leaves_no_trace_iff {w w' : ChunkedPrefillWorker PendingOrder acc n}
    (h : Reached cfg w) (hsettle : settle cfg (w.releaseRequest r) = .ok w') :
    SameBut r w (w.releaseRequest r) ∧ NothingOf w' r ↔ w.admissionOrder.lookup r = none := by
  obtain ⟨hsettled, hordered⟩ := h.ordered
  have hlocated := hsettled.located
  obtain ⟨habsent, hwaiting, hstarted⟩ := releaseRequest_clear hlocated r
  obtain ⟨hlocated', hentries, horder⟩ := settle_absent (hlocated.cancel r) habsent hsettle
  rw [order_releaseRequest] at horder
  constructor
  · intro htrace
    exact horder.symm.trans htrace.2.order
  · intro hnone
    have hranked := ordered_released hlocated hordered r r
    have hepisode : (w.releaseRequest r).prefillEpisodes.lookup r = none := by
      by_contra hopen
      refine hranked.episode hopen ?_
      rw [order_releaseRequest]
      exact hnone
    refine ⟨sameBut_of_unordered hlocated hordered hnone, ?_⟩
    apply hlocated'.nothingOf
    · exact (congrArg Entries.phase hentries).trans habsent
    · exact fun p => (congrFun (congrArg Entries.waiting hentries) p).trans (hwaiting p)
    · exact fun p => (congrFun (congrArg Entries.started hentries) p).trans (hstarted p)
    · exact (congrArg Entries.episode hentries).trans hepisode
    · exact horder.trans hnone

/-- The request that waits leaves nothing behind. -/
theorem cancel_leaves_no_trace_waiting : ∃ w w' : OnePromptWorker, w.computing = true ∧
      SameBut 2 w (w.releaseRequest 2) ∧ NothingOf w' 2 := by
  have hchecked : ∃ w : OnePromptWorker, onePromptRun = .ok w ∧
      (decide (w.computing = true ∧ w.admissionOrder.lookup 2 = none) &&
      (settle onePromptEngine (w.releaseRequest 2)).toOption.any fun _ => true) = true :=
    exists_ok_of_check (by decide +kernel)
  obtain ⟨w, hrun, hcheck⟩ := hchecked
  rw [Bool.and_eq_true] at hcheck
  obtain ⟨hstate, hsettled⟩ := hcheck
  obtain ⟨hcomputing, hnone⟩ := of_decide_eq_true hstate
  obtain ⟨w', hsettle, -⟩ := exists_ok_of_any hsettled
  obtain ⟨hsame, hnothing⟩ :=
    (cancel_leaves_no_trace_iff (reached_onePromptRun hrun) hsettle).mpr hnone
  exact ⟨w, w', hcomputing, hsame, hnothing⟩

end ServingSim
