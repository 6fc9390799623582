import ServingSim.Analyzer.WorkBook

/-
  The analyzer's closed forms are the work the simulator logged.

  The book of `WorkBook` is carried along a run: an iteration that starts adds its row to
  the log and the shares of its batch to the book, an iteration that completes turns what
  was due into what the records count. Where every request has completed nothing is due
  and no one was lost, so the rows add up to the closed forms.

  What is proved:
    1. `workload_conserved` — the log of completed requests adds up to what
       `Expected.addRequest` expects of them.
-/

namespace ServingSim

open KeyedTotal PendingOrderPolicy KvCacheStore Relation ChunkedPrefillWorker

variable {P : Type} [PendingOrderPolicy P] {acc : KvAccounting} {n : Nat}
  {cfg : ChunkedPrefillConfig n} {w w' : ChunkedPrefillWorker P acc n} {r : RequestId} {p : Fin n}
  {book : RequestId → Work} {due : Due n}

/-! ## Forming a batch -/

omit [PendingOrderPolicy P] in
theorem chunksPlaced_of_idle (h : Idle w) : ChunksPlaced w := by
  intro p r hr
  rw [h p] at hr
  cases hr

theorem chunksPlaced_forming {s s' : Forming P acc n} (hstep : FormStep cfg s s')
    (hlocated : Located cfg s.worker) (h : ChunksPlaced s.worker) : ChunksPlaced s'.worker := by
  intro q t ht
  cases hstep with
  | @chunk p before after c context budget tokens left available started fresh resolved size
      positive spent =>
    have hat := hlocated.at_started (p := p) (c := c) (by simp [started])
    have hop : StoreOp.Issuable s.worker.store (.schedulePrefillChunk c.requestId p tokens) :=
      hat.phase
    refine (phaseOf_apply (r := t) hlocated.tracked hop).trans ?_
    have hadmits := admits_schedulePrefillChunk s.worker.store c.requestId p q tokens
    rcases List.mem_append.mp (hadmits ▸ ht) with hold | hadded
    · exact h q t hold
    · split at hadded
      · next hq =>
        subst hq
        obtain rfl := List.mem_singleton.mp hadded
        exact hat.phase
      · cases hadded
  | refresh p => exact h q t ht
  | @admitted p budget chunkBudget left slots slots' a worker available windows room gate claimed
      entered spent =>
    obtain ⟨hpeek, -⟩ := gateHead_spec gate
    have hwaiting := hlocated.at_waiting (mem_of_peek hpeek)
    have hadmits := admits_admitHead entered q
    rcases List.mem_append.mp (hadmits ▸ ht) with hold | hadded
    · have hne : t ≠ a.candidate.requestId := fun heq =>
        hlocated.scheduled.not_absent hwaiting.phase q t hold heq
      exact (congrArg Entries.phase (entriesOf_admitted hlocated hpeek entered hne)).trans
        (h q t hold)
    · split at hadded
      · next hq =>
        subst hq
        obtain rfl := List.mem_singleton.mp hadded
        exact (hlocated.admitted hpeek entered).1
      · cases hadded

theorem booked_formBatch {formed : ChunkedPrefillWorker P acc n} {hasBatch : Bool}
    (hlocated : Located cfg w) (hidle : Idle w) (hform : w.formBatch cfg = .ok (formed, hasBatch))
    (h : WorkBooked book (nothingDue n) w) :
    Located cfg formed ∧ WorkBooked book (nothingDue n) formed ∧ ChunksPlaced formed := by
  obtain ⟨hlocated', ⟨hbooked, hplaced⟩, -⟩ := formBatch_rule
    (J := fun w => WorkBooked book (nothingDue n) w ∧ ChunksPlaced w) (fun _ _ _ _ hw => hw)
    (fun hturn hlocated hidle hw =>
      ⟨booked_making hturn hlocated hw.1, chunksPlaced_of_idle (hturn.located hlocated hidle).2⟩)
    (fun hturn hlocated hw =>
      ⟨booked_forming hturn hlocated hw.1, chunksPlaced_forming hturn hlocated hw.2⟩)
    hform hlocated hidle ⟨h, chunksPlaced_of_idle hidle⟩
  exact ⟨hlocated', hbooked, hplaced⟩

/-! ## Completing an iteration -/

theorem Completing.batchPlan (h : Completing cfg p w w') (hlocated : Located cfg w) :
    w'.batchPlan = w.batchPlan := by
  cases h with
  | decoded step => rw [(hlocated.decodeStep step).frame]
  | prefilled admitted step => rw [(hlocated.completePrefill admitted step).frame]
  | cleared => rfl
  | finished => rfl

theorem batchPlan_of_completing (h : ReflTransGen (Completing cfg p) w w')
    (hlocated : Located cfg w) : w'.batchPlan = w.batchPlan := by
  induction h with
  | refl => rfl
  | tail hpath hstep ih => exact (hstep.batchPlan (located_of_completing hpath hlocated)).trans ih

theorem booked_prefills {completed completed' rest : List RequestId} (hruns : due.runs p = false)
    (hnodup : rest.Nodup) (hlocated : Located cfg w) (haccounted : Accounted w)
    (hrest : ∀ r ∈ rest, r ∈ (w.store.partitions p).prefillAdmits)
    (hfold : rest.foldlM (completePrefill p) (w, completed) = .ok (w', completed'))
    (h : WorkBooked book (due.prefilling p rest) w) : WorkBooked book (due.prefilling p []) w' := by
  have hall := Run.tryRun_induction
    (I := fun rest (state : ChunkedPrefillWorker P acc n × List RequestId) =>
      Located cfg state.1 ∧ Accounted state.1 ∧ rest.Nodup ∧
      (∀ r ∈ rest, r ∈ (state.1.store.partitions p).prefillAdmits) ∧
      WorkBooked book (due.prefilling p rest) state.1)
    (fun r rest state state' hI hturn => by
      obtain ⟨hlocated, haccounted, hnodup, hrest, hbooked⟩ := hI
      obtain ⟨hnew, hnodup⟩ := List.nodup_cons.mp hnodup
      have hadmitted := hrest r List.mem_cons_self
      have hstep : Completing cfg p state.1 state'.1 := .prefilled hadmitted hturn
      have hchunk := hlocated.completePrefill hadmitted hturn
      refine ⟨hchunk.located, accounted_completing hstep hlocated haccounted, hnodup,
        fun s hs => ?_, booked_prefilled hruns hnew hlocated haccounted hadmitted hturn hbooked⟩
      rw [hchunk.admits]
      exact hrest s (List.mem_cons_of_mem _ hs))
    ⟨hlocated, haccounted, hnodup, hrest, h⟩ hfold
  exact hall.2.2.2.2

theorem booked_releases {completed : List RequestId} (hruns : due.runs p = false)
    (hlocated : Located cfg w) (hfree : (w.store.partitions p).prefillAdmits = [])
    (hdone : Finished w p completed) (h : WorkBooked book due w) :
    WorkBooked book due (completed.foldl (releaseCompleted p) w) := by
  induction completed generalizing w with
  | nil => exact h
  | cons r completed ih =>
    obtain ⟨hnew, hnodup⟩ := List.nodup_cons.mp hdone.nodup
    have hresident := hdone.resident r List.mem_cons_self
    have hother : ∀ s ∈ completed, (releaseCompleted p w r).entriesOf s = w.entriesOf s :=
      fun s hs => entriesOf_releaseCompleted hlocated.tracked hresident fun heq => hnew (heq ▸ hs)
    have hstep : Completing cfg p w (releaseCompleted p w r) :=
      .finished hresident (hdone.complete r List.mem_cons_self) hfree
    apply ih (hstep.located hlocated)
    · exact (admits_releaseRetainingPrefix w.store r p p).trans hfree
    · constructor
      · exact hnodup
      · intro s hs
        exact (congrArg Entries.phase (hother s hs)).trans
          (hdone.resident s (List.mem_cons_of_mem _ hs))
      · intro s hs
        exact (congrArg (fun e => (Entries.record e).isComplete) (hother s hs)).trans
          (hdone.complete s (List.mem_cons_of_mem _ hs))
    · exact booked_finished hruns hlocated hresident h

omit [PendingOrderPolicy P] in
theorem dueOn_nil (w : ChunkedPrefillWorker P acc n) : dueOn w [] = nothingDue n := by
  ext1
  · funext q
    simp [dueOn, nothingDue]
  · funext q
    simp [dueOn, nothingDue]

theorem booked_partition {rest : List (Fin n)} {events events' : List RequestId}
    (hsingle : cfg.decodeCompletion = .singleToken) (hlocated : Located cfg w)
    (haccounted : Accounted w) (hnew : p ∉ rest)
    (hstep : completePartition cfg (w, events) p = .ok (w', events'))
    (h : WorkBooked book (dueOn w (p :: rest)) w) : WorkBooked book (dueOn w' rest) w' := by
  obtain ⟨hpath, hadmits, -⟩ := completePartition_path hlocated hstep
  have hplan := batchPlan_of_completing hpath hlocated
  simp only [completePartition, bind_eq_ok_iff] at hstep
  obtain ⟨⟨decoded, retired⟩, hdecoded, ⟨prefilled, completed⟩, hprefilled, hstep⟩ := hstep
  simp only [pure, Except.pure, Except.ok.injEq, Prod.mk.injEq] at hstep
  obtain ⟨rfl, rfl⟩ := hstep
  have hdecode := hlocated.decodeStep hdecoded
  have hturn : Completing cfg p w decoded := .decoded hdecoded
  have hafterDecode : WorkBooked book ((dueOn w (p :: rest)).decoded p) decoded :=
    booked_decoded hsingle (by simp [dueOn]) hlocated hdecoded h
  -- the chunks due on the partition are the ones its loop goes through
  have hchunks : (dueOn w (p :: rest)).decoded p = ((dueOn w (p :: rest)).decoded p).prefilling p
      (decoded.store.partitions p).prefillAdmits := by
    have hsame : (decoded.store.partitions p).prefillAdmits =
        ((dueOn w (p :: rest)).decoded p).chunks p := by
      rw [hdecode.admits]
      simp [dueOn, Due.decoded]
    rw [hsame, Due.prefilling, Function.update_eq_self]
  rw [hchunks] at hafterDecode
  have hruns : ((dueOn w (p :: rest)).decoded p).runs p = false := Due.decoded_self _ p
  have hafterPrefills := booked_prefills hruns (hdecode.located.scheduled.nodup p) hdecode.located
    (accounted_completing hturn hlocated haccounted) (fun _ hr => hr) hprefilled hafterDecode
  obtain ⟨hprefills, hfinished, -⟩ := completePrefills_path hdecode.located (fun r hr => hr)
    ⟨hdecode.nodup, hdecode.resident, hdecode.complete⟩ hprefilled
  have hlocated' := located_of_completing hprefills hdecode.located
  have hsame := fun s => entriesOf_clear (p := p) hlocated'.tracked s
  have hdone : Finished (prefilled.issue (.clearPrefillAdmits p)) p completed := by
    constructor
    · exact hfinished.nodup
    · exact fun s hs => (congrArg Entries.phase (hsame s)).trans (hfinished.resident s hs)
    · exact hfinished.complete
  have hcleared : WorkBooked book (((dueOn w (p :: rest)).decoded p).prefilling p [])
      (prefilled.issue (.clearPrefillAdmits p)) :=
    booked_cleared hlocated' hafterPrefills
  have hstill : (((dueOn w (p :: rest)).decoded p).prefilling p []).runs p = false := hruns
  have hend := booked_releases hstill (hlocated'.clear p)
    ((admits_clearPrefillAdmits prefilled.store p p).trans (if_pos rfl)) hdone hcleared
  have hdue : ((dueOn w (p :: rest)).decoded p).prefilling p [] =
      dueOn (completed.foldl (releaseCompleted p) (prefilled.issue (.clearPrefillAdmits p)))
        rest := by
    ext1
    · funext q
      by_cases hq : q = p
      · subst hq
        simp [dueOn, hnew]
      · rw [Due.prefilling_of_ne _ hq]
        simp [dueOn, Due.decoded, hq, hadmits]
    · funext q
      by_cases hq : q = p
      · subst hq
        simp [dueOn, hnew]
      · rw [Due.prefilling_runs, Due.decoded_of_ne _ hq]
        simp only [dueOn, List.mem_cons, hq, false_or, hplan]
  rw [hdue] at hend
  exact hend

theorem booked_completeIteration {events : List RequestId}
    (hsingle : cfg.decodeCompletion = .singleToken) (hlocated : Located cfg w)
    (haccounted : Accounted w) (hstep : w.completeIteration cfg = .ok (w', events))
    (h : WorkBooked book (dueOn w (List.finRange n)) w) : WorkBooked book (nothingDue n) w' := by
  have hall := Run.tryRun_induction
    (I := fun rest (state : ChunkedPrefillWorker P acc n × List RequestId) =>
      Located cfg state.1 ∧ Accounted state.1 ∧ rest.Nodup ∧
      WorkBooked book (dueOn state.1 rest) state.1)
    (fun p rest state state' hI hturn => by
      obtain ⟨hlocated, haccounted, hnodup, hbooked⟩ := hI
      obtain ⟨hnew, hnodup⟩ := List.nodup_cons.mp hnodup
      obtain ⟨hpath, -, -⟩ := completePartition_path hlocated hturn
      have hpath' : ReflTransGen (fun w w' => ∃ p, Completing cfg p w w') state.1 state'.1 :=
        hpath.lift id fun _ _ hstep => ⟨p, hstep⟩
      exact ⟨located_of_completing hpath hlocated,
        accounted_invariant.completing_path hpath' hlocated haccounted, hnodup,
        booked_partition hsingle hlocated haccounted hnew hturn hbooked⟩)
    ⟨hlocated, haccounted, List.nodup_finRange n, h⟩ hstep
  rw [← dueOn_nil w']
  exact hall.2.2.2

/-! ## The book along a run -/

/-- The partitions an iteration in flight is still to complete: all of them. -/
def inFlight (w : ChunkedPrefillWorker P acc n) : List (Fin n) :=
  if w.computing then List.finRange n else []

/-- The log is the book, and the book is kept. -/
structure LogBooked (s : LoggedWorker P acc n) (book : RequestId →₀ Work) : Prop where
  total : (book.sum fun _ work => work) = (s.rows.map rowWork).sum
  booked : WorkBooked book (dueOn s.worker (inFlight s.worker)) s.worker

theorem LoggedWorker.step_spec {s s' : LoggedWorker P acc n} {op : WorkerOp}
    (h : s.step cfg op = .ok s') : op.step cfg s.worker = .ok s'.worker ∧
      if op = .formBatch ∧ s'.worker.computing = true then
        ∃ input, s'.worker.buildInput = .ok input ∧ s'.rows = s.rows ++ [fillGroupLog input]
      else s'.rows = s.rows := by
  simp only [LoggedWorker.step, bind_eq_ok_iff] at h
  obtain ⟨worker, hstep, h⟩ := h
  by_cases hstarts : op = .formBatch ∧ worker.computing = true
  · rw [if_pos hstarts] at h
    simp only [bind_eq_ok_iff] at h
    obtain ⟨input, hinput, h⟩ := h
    obtain rfl := Except.ok.inj h
    refine ⟨hstep, ?_⟩
    rw [if_pos hstarts]
    exact ⟨input, hinput, rfl⟩
  · rw [if_neg hstarts] at h
    obtain rfl := Except.ok.inj h
    refine ⟨hstep, ?_⟩
    rw [if_neg hstarts]

theorem LogBooked.start {s : LoggedWorker P acc n} {book : RequestId →₀ Work}
    {formed : ChunkedPrefillWorker P acc n} {input : List ArchGroupInput}
    (hlocated : Located cfg formed) (hplaced : ChunksPlaced formed)
    (hcomputing : formed.computing = true) (hinput : formed.buildInput = .ok input)
    (htotal : (book.sum fun _ work => work) = (s.rows.map rowWork).sum)
    (h : WorkBooked book (nothingDue n) formed) :
    ∃ book', LogBooked ⟨formed, s.rows ++ [fillGroupLog input]⟩ book' := by
  obtain ⟨batch, hbatch, hrow⟩ := exists_batchBook hlocated hplaced hinput
  refine ⟨book + batch, ?_, ?_⟩
  · have hadd : ((book + batch).sum fun _ work => work) =
        (book.sum fun _ work => work) + batch.sum fun _ work => work :=
      Finsupp.sum_add_index' (fun _ => rfl) fun _ _ _ => rfl
    rw [hadd, htotal, hrow, List.map_append, List.sum_append]
    simp
  · intro r
    obtain ⟨hkept, hpaid⟩ := h r
    refine ⟨hkept, ?_⟩
    rcases hpaid with hlost | hcharged
    · exact .inl hlost
    · right
      rw [owed_nothingDue, add_zero] at hcharged
      rw [Finsupp.add_apply, hcharged, hbatch, inFlight, if_pos hcomputing]

theorem LogBooked.step {s s' : LoggedWorker P acc n} {op : WorkerOp} {book : RequestId →₀ Work}
    (hsingle : cfg.decodeCompletion = .singleToken) (hsettled : Settled cfg s.worker)
    (haccounted : Accounted s.worker) (h : LogBooked s book) (hop : op.Enabled s.worker)
    (hstep : s.step cfg op = .ok s') : ∃ book', LogBooked s' book' := by
  obtain ⟨hworker, hrows⟩ := LoggedWorker.step_spec hstep
  obtain ⟨worker, rows⟩ := s
  obtain ⟨worker', rows'⟩ := s'
  dsimp only at hworker hrows hsettled haccounted hop
  have hlocated := hsettled.located
  cases op with
  | enqueue r =>
    obtain rfl : rows' = rows := hrows
    have hbooked := booked_enqueued hlocated hop hworker h.booked
    have haccept : worker.acceptMessage cfg r = .ok worker' := hworker
    obtain ⟨p, c, sequence, balance, -, -, -, -, -, hw⟩ := acceptMessage_spec haccept
    have hdue : dueOn worker' (inFlight worker') = dueOn worker (inFlight worker) := by
      rw [hw]
      rfl
    refine ⟨book, h.total, ?_⟩
    dsimp only
    rw [hdue]
    exact hbooked
  | formBatch =>
    have hidle := hsettled.idle hop
    obtain ⟨formed, hasBatch, hform, rfl⟩ := WorkerOp.step_formBatch hworker
    have hbooked : WorkBooked book (nothingDue n) worker := by
      have hbefore := h.booked
      have hnone : worker.computing = false := hop
      simp only [inFlight, hnone, Bool.false_eq_true, if_false, dueOn_nil] at hbefore
      exact hbefore
    obtain ⟨hlocated', hformed, hplaced⟩ := booked_formBatch hlocated hidle hform hbooked
    cases hasBatch with
    | false =>
      obtain rfl : rows' = rows := hrows
      refine ⟨book, h.total, ?_⟩
      simp only [inFlight, Bool.false_eq_true, if_false, dueOn_nil]
      exact hformed
    | true =>
      -- the row logged at the start books what the batch will compute
      obtain ⟨input, hinput, rfl⟩ := hrows
      exact LogBooked.start (s := ⟨worker, rows⟩) (hlocated'.of_eq rfl rfl rfl rfl rfl) hplaced rfl
        hinput h.total hformed
  | completeIteration =>
    obtain rfl : rows' = rows := hrows
    obtain ⟨completed, events, hcomplete, rfl⟩ := WorkerOp.step_completeIteration hworker
    have hbefore := h.booked
    have hcomputing : worker.computing = true := hop
    simp only [inFlight, hcomputing, if_true] at hbefore
    have hafter := booked_completeIteration hsingle hlocated haccounted hcomplete hbefore
    refine ⟨book, h.total, ?_⟩
    simp only [inFlight, Bool.false_eq_true, if_false, dueOn_nil]
    exact hafter
  | release r =>
    obtain rfl : rows' = rows := hrows
    obtain rfl := Except.ok.inj hworker
    have hflight : inFlight (worker.releaseRequest r) = inFlight worker := by
      rw [inFlight, inFlight, (releaseRequest_frame worker r).1]
    refine ⟨book, h.total, ?_⟩
    dsimp only
    rw [hflight]
    exact booked_released hlocated h.booked

/-- A run of the shell from a new worker that holds no request, with its log. -/
structure LoggedRun (cfg : ChunkedPrefillConfig n) (ops : List WorkerOp)
    (s : LoggedWorker P acc n) : Prop where
  run : ∃ (budget : PrefixCacheBudget) (requests : Requests) (policies : Fin n → P)
    (balance : LoadBalance),
    (∀ r, (requests r).Fresh) ∧ (∀ p, candidates (policies p) = []) ∧
    Run.TryAllowed (LoggedWorker.step cfg) (fun s op => op.Enabled s.worker)
      (⟨ChunkedPrefillWorker.new cfg budget requests policies balance, []⟩ :
        LoggedWorker P acc n) ops ∧
    Run.tryRun (LoggedWorker.step cfg)
      ⟨ChunkedPrefillWorker.new cfg budget requests policies balance, []⟩ ops = .ok s

theorem booked_new (cfg : ChunkedPrefillConfig n) (budget : PrefixCacheBudget)
    {requests : Requests} (hrequests : ∀ r, (requests r).Fresh) (policies : Fin n → P)
    (balance : LoadBalance) :
    LogBooked (⟨ChunkedPrefillWorker.new cfg budget requests policies balance, []⟩ :
      LoggedWorker P acc n) 0 := by
  refine ⟨rfl, fun r => ⟨⟨(hrequests r).recorded, fun _ _ _ => ?_, fun _ => hrequests r,
    fun p context hchunked => nomatch hchunked⟩, .inr ?_⟩⟩
  · exact congrArg RequestRecord.prefillTokensProcessed (hrequests r)
  · have hwork : (requests r).work = 0 := (hrequests r).work_eq
    rw [owed_of_absent rfl, add_zero]
    exact hwork.symm

section run

variable {ops : List WorkerOp} {s : LoggedWorker P acc n}

theorem LoggedRun.booked (hsingle : cfg.decodeCompletion = .singleToken)
    (h : LoggedRun cfg ops s) :
    Settled cfg s.worker ∧ Accounted s.worker ∧ ∃ book, LogBooked s book := by
  obtain ⟨budget, requests, policies, balance, hrequests, hpolicies, hallowed, hrun⟩ := h.run
  refine Run.tryInvariant
    (fun s => Settled cfg s.worker ∧ Accounted s.worker ∧ ∃ book, LogBooked s book)
    (fun s op s' hs hop hstep => ?_) ⟨?_, accounted_new cfg budget hrequests policies balance,
      0, booked_new cfg budget hrequests policies balance⟩ hallowed hrun
  · obtain ⟨hsettled, haccounted, book, hbooked⟩ := hs
    obtain ⟨hworker, -⟩ := LoggedWorker.step_spec hstep
    exact ⟨hsettled.step hop hworker, accounted_invariant.step hsettled haccounted hop hworker,
      hbooked.step hsingle hsettled haccounted hop hstep⟩
  · exact ⟨located_new cfg budget balance
      (fun r => ⟨(hrequests r).stage, (hrequests r).outputTokensEmitted⟩) hpolicies,
      fun _ _ => rfl⟩

theorem unseen_making {config : BoundedFutureKvAdmissionConfig} {stepTokens : Nat}
    (hstep : Making config stepTokens w w') (hlocated : Located cfg w)
    (h : (w.requests r).stage = none) : (w'.requests r).stage = none := by
  cases hstep with
  | prepare q => exact h
  | retract q victim live =>
    have hne : r ≠ victim := by
      intro heq
      subst heq
      exact nomatch (hlocated.at_resident (hlocated.resident_of_live live)).stage.mp h
    exact (congrArg (fun e => (Entries.record e).stage)
      (entriesOf_retracted hlocated live config.retractionPolicy hne)).trans h
  | ratio x => exact h

theorem unseen_forming {s s' : Forming P acc n} (hstep : FormStep cfg s s')
    (hlocated : Located cfg s.worker) (h : (s.worker.requests r).stage = none) :
    (s'.worker.requests r).stage = none := by
  cases hstep with
  | chunk => exact h
  | refresh p => exact h
  | @admitted p budget chunkBudget left slots slots' a worker available windows room gate claimed
      entered spent =>
    obtain ⟨hpeek, -⟩ := gateHead_spec gate
    have hne : r ≠ a.candidate.requestId := by
      intro heq
      subst heq
      exact nomatch (hlocated.at_waiting (mem_of_peek hpeek)).stage.mp h
    exact (congrArg (fun e => (Entries.record e).stage)
      (entriesOf_admitted hlocated hpeek entered hne)).trans h

theorem unseen_completing (hstep : Completing cfg p w w') (hlocated : Located cfg w)
    (h : (w.requests r).stage = none) : (w'.requests r).stage = none := by
  have habsent : w.store.phaseOf r = .absent := by
    obtain ⟨location, hat⟩ := hlocated.located r
    obtain rfl : location = .unseen := hat.stage.mp h
    exact hat.phase
  obtain ⟨hentries, -⟩ := hstep.absent hlocated habsent
  exact (congrArg (fun e => (Entries.record e).stage) hentries).trans h

theorem unseen_step {op : WorkerOp} (hsettled : Settled cfg w) (hop : op.Enabled w)
    (hother : op ≠ .enqueue r) (hstep : op.step cfg w = .ok w')
    (h : (w.requests r).stage = none) : (w'.requests r).stage = none := by
  cases op with
  | enqueue q =>
    have hne : r ≠ q := fun heq => hother (heq ▸ rfl)
    have haccept : w.acceptMessage cfg q = .ok w' := hstep
    obtain ⟨p, c, sequence, balance, -, -, -, -, -, hw⟩ := acceptMessage_spec haccept
    have hsame : w'.requests r = w.requests r := by
      rw [hw]
      exact Function.update_of_ne hne ..
    rw [hsame]
    exact h
  | formBatch =>
    obtain ⟨formed, hasBatch, hform, rfl⟩ := WorkerOp.step_formBatch hstep
    obtain ⟨-, hformed, -⟩ := formBatch_rule (J := fun w => (w.requests r).stage = none)
      (fun _ _ _ _ hw => hw) (fun hturn hlocated _ hw => unseen_making hturn hlocated hw)
      (fun hturn hlocated hw => unseen_forming hturn hlocated hw) hform hsettled.located
      (hsettled.idle hop) h
    exact hformed
  | completeIteration =>
    obtain ⟨completed, events, hcomplete, rfl⟩ := WorkerOp.step_completeIteration hstep
    obtain ⟨hpath, -, -⟩ := completeIteration_path hsettled.located hcomplete
    have hall : (completed.requests r).stage = none :=
      completing_rule (J := fun w => (w.requests r).stage = none)
        (fun hturn hlocated hw => unseen_completing hturn hlocated hw) hpath hsettled.located h
    exact hall
  | release q =>
    obtain rfl := Except.ok.inj hstep
    rw [requests_releaseRequest]
    exact h

theorem LoggedRun.unseen (h : LoggedRun cfg ops s) (hnever : .enqueue r ∉ ops) :
    (s.worker.requests r).stage = none := by
  obtain ⟨budget, requests, policies, balance, hrequests, hpolicies, hallowed, hrun⟩ := h.run
  have hall := Run.tryRun_induction
    (I := fun ops (s : LoggedWorker P acc n) => .enqueue r ∉ ops ∧
      Run.TryAllowed (LoggedWorker.step cfg) (fun s op => op.Enabled s.worker) s ops ∧
      Settled cfg s.worker ∧ (s.worker.requests r).stage = none)
    (fun op rest s s' hI hstep => by
      obtain ⟨hnever, hallowed, hsettled, hnone⟩ := hI
      obtain ⟨hworker, -⟩ := LoggedWorker.step_spec hstep
      have hother : op ≠ .enqueue r := fun heq => hnever (heq ▸ List.mem_cons_self)
      exact ⟨fun hmem => hnever (List.mem_cons_of_mem _ hmem), hallowed.tail hstep,
        hsettled.step hallowed.1 hworker,
        unseen_step hsettled hallowed.1 hother hworker hnone⟩)
    ⟨hnever, hallowed, ⟨located_new cfg budget balance
      (fun r => ⟨(hrequests r).stage, (hrequests r).outputTokensEmitted⟩) hpolicies,
      fun _ _ => rfl⟩, (hrequests r).stage⟩ hrun
  exact hall.2.2.2

/-! ## Conservation -/

theorem LoggedRun.work_eq (hsingle : cfg.decodeCompletion = .singleToken)
    (h : LoggedRun cfg ops s) {served : List RequestId} (hnodup : served.Nodup)
    (hserved : ∀ r, .enqueue r ∈ ops → r ∈ served)
    (hcompleted : ∀ r ∈ served, (s.worker.requests r).completed = true) :
    (collectActual s.rows).work = (served.map fun r => (s.worker.requests r).work).sum := by
  obtain ⟨hsettled, -, book, htotal, hbooked⟩ := h.booked hsingle
  have hlocated := hsettled.located
  have hcharged : ∀ r ∈ served, book r = (s.worker.requests r).work := by
    intro r hr
    obtain ⟨hkept, hpaid⟩ := hbooked r
    rw [owed_of_completed hlocated hkept (hcompleted r hr)] at hpaid
    rcases hpaid with hlost | hcharged
    · exact nomatch (hcompleted r hr).symm.trans hlost.incomplete
    · rw [add_zero] at hcharged
      exact hcharged
  have houtside : book.support ⊆ served.toFinset := by
    intro r hr
    by_contra hnot
    apply Finsupp.mem_support_iff.mp hr
    have hnew := h.unseen fun hmem => hnot (List.mem_toFinset.mpr (hserved r hmem))
    obtain ⟨location, hat⟩ := hlocated.located r
    obtain rfl : location = .unseen := hat.stage.mp hnew
    obtain ⟨hkept, hpaid⟩ := hbooked r
    rw [owed_of_absent hat.phase] at hpaid
    rcases hpaid with hlost | hcharged
    · exact absurd hnew hlost.stamped
    · rw [hcharged, (hkept.unseen hnew).work_eq, add_zero]
  calc (collectActual s.rows).work
      = (s.rows.map rowWork).sum := collectActual_work s.rows
    _ = book.sum fun _ work => work := htotal.symm
    _ = ∑ r ∈ served.toFinset, book r :=
        Finsupp.sum_of_support_subset book houtside _ fun _ _ => rfl
    _ = (served.map book).sum := List.sum_toFinset book hnodup
    _ = (served.map fun r => (s.worker.requests r).work).sum := by
        rw [List.map_congr_left hcharged]

/-- **Per-request closed forms are the work of the iterations.** When every request that was
delivered has completed, whatever was hit, chunked, interleaved, retracted and computed again,
the logged totals are the ones `Expected.addRequest` adds up; and what was computed with what
the hits saved is what cold prefills compute. -/
theorem workload_conserved (hsingle : cfg.decodeCompletion = .singleToken)
    (h : LoggedRun cfg ops s) {served : List RequestId} (hnodup : served.Nodup)
    (hserved : ∀ r, .enqueue r ∈ ops → r ∈ served)
    (hcompleted : ∀ r ∈ served, (s.worker.requests r).completed = true) (numLayers : Nat) :
    let actual := collectActual s.rows
    let inputs := served.map fun r => (s.worker.requests r).sloInput
    let expected := inputs.foldl (Expected.addRequest .iterwise numLayers) .default
    (actual.prefillTokens = expected.prefillTokens ∧ actual.decodePasses = expected.decodePasses ∧
      actual.batchTokens = expected.batchTokens ∧ actual.causal = expected.causal ∧
      actual.decodeKv = expected.decodeKv) ∧
    (∀ input ∈ inputs, input.causal + input.savedCausal = input.coldCausal) ∧
    expected.causal + expected.savedCausal = expected.coldCausal ∧
    ∀ input : RequestSloWorkInput, input.ContextsFilled →
      input.causal + input.savedCausal = input.coldCausal := by
  intro actual inputs expected
  obtain ⟨hsettled, haccounted, book, -, hbooked⟩ := h.booked hsingle
  obtain ⟨hwork, hsaved, hcold⟩ := foldl_addRequest numLayers inputs .default
  have hzero : Expected.default.work = 0 := by
    funext quantity
    cases quantity with
    | prefillTokens | decodePasses | batchTokens | decodeKv | causal => rfl
  have hsame : actual.work = expected.work := by
    rw [h.work_eq hsingle hnodup hserved hcompleted, hwork, hzero, zero_add, List.map_map]
    rfl
  have heach : ∀ input ∈ inputs, input.causal + input.savedCausal = input.coldCausal := by
    intro input hinput
    obtain ⟨r, hr, rfl⟩ := List.mem_map.mp hinput
    have hrecorded := (hbooked r).1.recorded
    exact hrecorded.causal_saved (haccounted r).balanced
      (hrecorded.finished (hcompleted r hr)).1
  refine ⟨⟨congrFun hsame .prefillTokens, congrFun hsame .decodePasses,
    congrFun hsame .batchTokens, congrFun hsame .causal, congrFun hsame .decodeKv⟩, heach, ?_,
    fun input hfilled => input.causal_add_saved hfilled⟩
  have hcausal : expected.causal = (inputs.map RequestSloWorkInput.causal).sum := by
    have htotal := congrFun hwork .causal
    rw [Pi.add_apply, list_sum_apply, List.map_map, hzero, Pi.zero_apply, zero_add] at htotal
    exact htotal
  rw [hcausal, hsaved, hcold]
  have hsum : ∀ inputs : List RequestSloWorkInput,
      (∀ input ∈ inputs, input.causal + input.savedCausal = input.coldCausal) →
      (inputs.map RequestSloWorkInput.causal).sum +
          (inputs.map RequestSloWorkInput.savedCausal).sum =
        (inputs.map RequestSloWorkInput.coldCausal).sum := by
    intro inputs hinputs
    rw [← List.sum_map_add]
    exact congrArg List.sum (List.map_congr_left hinputs)
  have hall := hsum inputs heach
  simp only [Expected.default, zero_add]
  exact hall

end run

/-- The second of two prompts is retracted after two tokens and computed again; both
complete. -/
def retractedRun : List WorkerOp :=
  [.enqueue 1, .enqueue 2, .formBatch, .completeIteration, .formBatch, .completeIteration,
    .formBatch, .completeIteration, .formBatch, .completeIteration, .formBatch,
    .completeIteration, .formBatch, .completeIteration]

/-- What the two requests of that run expect of its log. -/
theorem workload_conserved_two :
    ∃ s : LoggedWorker PendingOrder (KvAccounting.tokensForTest 28 (by decide)) 1,
      (s.worker.requests 2).reprocessedPrefills = [⟨2, 0, 14, true⟩] ∧
      (collectActual s.rows).decodeKv = 65 ∧
      (collectActual s.rows).decodeKv = (([1, 2].map fun r => (s.worker.requests r).sloInput).foldl
          (Expected.addRequest .iterwise 1) .default).decodeKv := by
  have hchecked : ∃ s : LoggedWorker PendingOrder (KvAccounting.tokensForTest 28 (by decide)) 1,
      Run.tryRun (LoggedWorker.step retractingEngine)
        ⟨ChunkedPrefillWorker.new retractingEngine .disabled
          (fun r => .fromRequest r 0 12 4 .standalone) (fun _ => .new .fifo) .single, []⟩
        retractedRun = .ok s ∧
      decide ((s.worker.requests 1).completed = true ∧ (s.worker.requests 2).completed = true ∧
        (s.worker.requests 2).reprocessedPrefills = [⟨2, 0, 14, true⟩] ∧
        (collectActual s.rows).decodeKv = 65) = true :=
    exists_ok_of_check (by decide +kernel)
  obtain ⟨s, hrun, hcheck⟩ := hchecked
  obtain ⟨hfirst, hsecond, hepisodes, hkv⟩ := of_decide_eq_true hcheck
  have hlogged : LoggedRun retractingEngine retractedRun s :=
    ⟨.disabled, fun r => .fromRequest r 0 12 4 .standalone, fun _ => .new .fifo, .single,
      fun _ => rfl, fun _ => rfl, by decide +kernel, hrun⟩
  have hserved : ∀ r, .enqueue r ∈ retractedRun → r ∈ [1, 2] := by
    intro r hr
    simpa [retractedRun] using hr
  have hcompleted : ∀ r ∈ [1, 2], (s.worker.requests r).completed = true := by
    intro r hr
    rcases List.mem_pair.mp hr with rfl | rfl
    · exact hfirst
    · exact hsecond
  have hall := workload_conserved rfl hlogged (by decide) hserved hcompleted 1
  exact ⟨s, hepisodes, hkv, hall.1.2.2.2.2⟩

end ServingSim
