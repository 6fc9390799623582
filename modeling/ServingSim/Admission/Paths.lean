import ServingSim.Admission.Completion

/-
  A step of the chunked-prefill worker as a path of moves.

  `formBatch` and `completeIteration` loop over partitions, queues and members. What
  is proved about a step is proved about one turn of these loops, so here each step is
  taken apart into the turns it makes: retraction (`Making`), scheduling (`FormStep`,
  with the budgets and verify windows left beside the worker) and completion
  (`Completing`). An invariant of every turn is then one of every step.
-/

namespace ServingSim

open KeyedTotal PendingOrderPolicy KvCacheStore Relation

variable {P : Type} [PendingOrderPolicy P] {acc : KvAccounting} {n : Nat}
  {cfg : ChunkedPrefillConfig n} {w w' : ChunkedPrefillWorker P acc n} {r : RequestId} {p : Fin n}

namespace ChunkedPrefillWorker

/-! ## Retraction -/

/-- A turn of the retraction loops: room is made for a step, a live decode is
retracted, or the batch's plan or the ratio is set. -/
inductive Making (config : BoundedFutureKvAdmissionConfig) (stepTokens : Nat)
    (w : ChunkedPrefillWorker P acc n) : ChunkedPrefillWorker P acc n → Prop
  | prepare (p : Fin n) :
    Making config stepTokens w (w.issue (.prepareNextDecode p config.pageSize stepTokens))
  | retract (p : Fin n) (r : RequestId) (live : r ∈ w.decodeStates p) : Making config stepTokens w
      ((w.issue (.release r p)).requeueRetracted p r config.retractionPolicy)
  | ratio (x : ℚ) : Making config stepTokens w { w with currentNewTokenRatio := x }

theorem selectBest_mem {α : Type} {better : α → α → Bool} {xs : List α} {x : α}
    (h : selectBest better xs = some x) : x ∈ xs := by
  revert h
  -- the best so far is always one of the list
  apply List.foldlRecOn (motive := fun best : Option α => best = some x → x ∈ xs)
  · intro hnone
    cases hnone
  · intro best hbest y hy hb
    cases best with
    | none =>
      obtain rfl := Option.some.inj hb
      exact hy
    | some old =>
      dsimp only at hb
      split at hb
      · obtain rfl := Option.some.inj hb
        exact hy
      · exact hbest hb

omit [PendingOrderPolicy P] in
/-- The request a retraction evicts is a live decode of the partition. -/
theorem selectRetraction_mem {policy : DecodeRetractionPolicy}
    (h : w.selectRetraction p policy = .ok r) : r ∈ w.decodeStates p := by
  cases policy with
  | length =>
    simp only [selectRetraction, bind_eq_ok_iff, required_eq_ok_iff] at h
    obtain ⟨victim, hvictim, rfl⟩ := h
    have hlength : w.selectLengthRetraction p = some r := Except.ok.inj hvictim
    simp only [selectLengthRetraction, Option.map_eq_some_iff] at hlength
    obtain ⟨⟨request, position⟩, hbest, rfl⟩ := hlength
    exact List.fst_mem_of_mem_zipIdx (selectBest_mem hbest)
  | fcfs =>
    simp only [selectRetraction, selectFcfsRetraction, bind_eq_ok_iff, required_eq_ok_iff] at h
    obtain ⟨victim, ⟨best, hbest, hsome⟩, rfl⟩ := h
    have hmem := Run.tryRun_induction
      (I := fun rest (victim : Option (Nat × RequestId)) =>
        (∀ v ∈ victim, v.2 ∈ w.decodeStates p) ∧ ∀ request ∈ rest, request ∈ w.decodeStates p)
      (fun request rest victim victim' hI hturn => by
        simp only [bind_eq_ok_iff] at hturn
        obtain ⟨order, -, hturn⟩ := hturn
        refine ⟨fun v hv => ?_, fun other hother => hI.2 other (List.mem_cons_of_mem _ hother)⟩
        have hturn := Except.ok.inj hturn
        split at hturn
        · rw [← hturn] at hv
          obtain rfl := Option.some.inj hv
          exact hI.2 request List.mem_cons_self
        · rw [← hturn] at hv
          exact hI.1 v hv)
      ⟨fun v hv => (Option.not_mem_none v hv).elim, fun request hrequest => hrequest⟩ hbest
    obtain ⟨v, hv, rfl⟩ := Option.map_eq_some_iff.mp (Except.ok.inj hsome)
    exact hmem.1 v hv

variable {config : BoundedFutureKvAdmissionConfig} {stepTokens : Nat}

theorem retractOne_path (h : w.retractOne config p = .ok w') : Making config stepTokens w w' := by
  simp only [retractOne, bind_eq_ok_iff] at h
  obtain ⟨-, -, r, hr, hw⟩ := h
  obtain rfl := Except.ok.inj hw
  exact .retract p r (selectRetraction_mem hr)

theorem retractUntilFits_path {fuel : Nat} {retracted retracted' : Bool}
    (h : retractUntilFits config stepTokens p fuel (w, retracted) = .ok (w', retracted')) :
    ReflTransGen (Making config stepTokens) w w' := by
  induction fuel generalizing w retracted with
  | zero =>
    obtain ⟨rfl, -⟩ := Prod.ext_iff.mp (Except.ok.inj h)
    exact .refl
  | succ fuel ih =>
    simp only [retractUntilFits] at h
    split at h
    · have hprepare : Making config stepTokens w
          (w.issue (.prepareNextDecode p config.pageSize stepTokens)) := .prepare p
      split at h
      · simp only [bind_eq_ok_iff] at h
        obtain ⟨evicted, hevicted, h⟩ := h
        exact .head hprepare (.head (retractOne_path hevicted) (ih h))
      · obtain ⟨rfl, -⟩ := Prod.ext_iff.mp (Except.ok.inj h)
        exact .single hprepare
    · obtain ⟨rfl, -⟩ := Prod.ext_iff.mp (Except.ok.inj h)
      exact .refl

theorem prepareDecode_path {retracted : Bool}
    (h : w.prepareDecode config stepTokens = .ok (w', retracted)) :
    ReflTransGen (Making config stepTokens) w w' := by
  simp only [prepareDecode, bind_eq_ok_iff] at h
  obtain ⟨⟨prepared, retractedAny⟩, hfold, hw⟩ := h
  have hpath := Run.tryRun_induction
    (I := fun _ (state : ChunkedPrefillWorker P acc n × Bool) =>
      ReflTransGen (Making config stepTokens) w state.1)
    (fun p _ state state' hpath hturn => hpath.trans (retractUntilFits_path hturn)) .refl hfold
  obtain ⟨rfl, -⟩ := Prod.ext_iff.mp (Except.ok.inj hw)
  refine hpath.tail ?_
  dsimp only
  split
  · exact .ratio _
  · exact .ratio _

end ChunkedPrefillWorker

open ChunkedPrefillWorker

theorem ChunkedPrefillWorker.Making.located {config : BoundedFutureKvAdmissionConfig}
    {stepTokens : Nat}
    (h : Making config stepTokens w w') (hlocated : Located cfg w) (hidle : Idle w) :
    Located cfg w' ∧ Idle w' := by
  cases h with
  | prepare p =>
    refine ⟨hlocated.prepare p _ _, fun q => ?_⟩
    have hpartitions := w.store.partitions_prepareNextDecode p config.pageSize stepTokens
    exact (congrArg (fun partitions => (partitions q).prefillAdmits) hpartitions).trans (hidle q)
  | retract p r live =>
    exact ⟨hlocated.retract live hidle _, fun q => admits_release (hidle q) r p⟩
  | ratio x => exact ⟨hlocated.of_eq rfl rfl rfl rfl rfl, hidle⟩

theorem located_of_making {config : BoundedFutureKvAdmissionConfig} {stepTokens : Nat}
    (h : ReflTransGen (Making config stepTokens) w w') (hlocated : Located cfg w)
    (hidle : Idle w) : Located cfg w' ∧ Idle w' := by
  induction h with
  | refl => exact ⟨hlocated, hidle⟩
  | tail _ hstep ih => exact hstep.located ih.1 ih.2

/-! ## Scheduling -/

/-- The worker while prefills are scheduled, with the budget tokens and the verify windows
each partition has left. -/
structure Forming (P : Type) (acc : KvAccounting) (n : Nat) where
  worker : ChunkedPrefillWorker P acc n
  budgets : Fin n → Nat
  slots : Fin n → Option Nat

/-- A turn of the scheduling loops. -/
inductive FormStep (cfg : ChunkedPrefillConfig n) (s : Forming P acc n) : Forming P acc n → Prop
  /-- A started prompt gets its next chunk; it stays started while it has tokens left. -/
  | chunk {p : Fin n} {before after : List AdmissionCandidate} {c : AdmissionCandidate}
      {context : ResolvedPrefillContext} {budget tokens left : Nat}
      (available : s.budgets p = budget)
      (started : s.worker.startedPrefills p = before ++ c :: after)
      (fresh : c.requestId ∉ (s.worker.store.partitions p).prefillAdmits)
      (resolved : (s.worker.store.ledger.viewOf c.requestId).context = some context)
      (size : nextChunkTokens context (budget - cfg.draftingSlots) cfg.chunkEndAlignment
        cfg.maxBatchTokens = tokens)
      (positive : tokens ≠ 0) (spent : spend budget (tokens + cfg.draftingSlots) = .ok left) :
    FormStep cfg s
      { worker :=
          { s.worker.issue (.schedulePrefillChunk c.requestId p tokens) with
            startedPrefills := Function.update s.worker.startedPrefills p
              (before ++ (if tokens < context.remainingPrefillTokens then [c] else []) ++ after) }
        budgets := Function.update s.budgets p left
        slots := s.slots }
  | refresh (p : Fin n) : FormStep cfg s { s with worker := s.worker.refreshPolicy p }
  /-- The head of a pending set is admitted with its first chunk. -/
  | admitted {p : Fin n} {budget chunkBudget left : Nat} {slots slots' : Option Nat}
      {a : Admission} {worker : ChunkedPrefillWorker P acc n}
      (available : s.budgets p = budget) (windows : s.slots p = slots)
      (room : spend budget cfg.draftingSlots = .ok chunkBudget)
      (gate : gateHead cfg s.worker p chunkBudget slots = some a)
      (claimed : claimWindow a.candidate slots = .ok slots')
      (entered : s.worker.admitHead p a = .ok worker)
      (spent : spend budget (a.chunkTokens + cfg.draftingSlots) = .ok left) :
    FormStep cfg s
      { worker := worker
        budgets := Function.update s.budgets p left
        slots := Function.update s.slots p slots' }

theorem FormStep.located {s s' : Forming P acc n} (h : FormStep cfg s s')
    (hlocated : Located cfg s.worker) : Located cfg s'.worker := by
  cases h with
  | chunk _ started fresh resolved => exact hlocated.scheduleStarted started fresh resolved _
  | refresh p => exact hlocated.refresh p
  | admitted _ _ _ gate _ entered => exact hlocated.admitHead gate entered

theorem located_of_forming {s s' : Forming P acc n} (h : ReflTransGen (FormStep cfg) s s')
    (hlocated : Located cfg s.worker) : Located cfg s'.worker := by
  induction h with
  | refl => exact hlocated
  | tail _ hstep ih => exact hstep.located ih

theorem Located.nodup_started (h : Located cfg w) (p : Fin n) :
    ((w.startedPrefills p).map fun c => c.requestId).Nodup := by
  rw [List.nodup_iff_count_le_one]
  intro r
  obtain ⟨location, hat⟩ := h.located r
  have hsub : (ofRequest r (w.startedPrefills p)).Sublist (location.startedOn p) := hat.started p
  have hle : (location.startedOn p).length ≤ 1 := by
    unfold Location.startedOn
    split
    · split <;> simp
    · simp
  rw [List.count, List.countP_map, List.countP_eq_length_filter]
  refine le_trans (Nat.le_of_eq (congrArg List.length ?_)) (hsub.length_le.trans hle)
  exact List.filter_congr fun c _ => beq_eq_decide _ _

/-- The prompts of a list that are not in the partition's iteration yet. -/
structure Unscheduled (w : ChunkedPrefillWorker P acc n) (p : Fin n)
    (rest : List AdmissionCandidate) : Prop where
  nodup : (rest.map fun c => c.requestId).Nodup
  fresh : ∀ c ∈ rest, c.requestId ∉ (w.store.partitions p).prefillAdmits

omit [PendingOrderPolicy P] in
theorem Unscheduled.tail {c : AdmissionCandidate} {rest : List AdmissionCandidate}
    (h : Unscheduled w p (c :: rest)) : Unscheduled w p rest :=
  ⟨(List.nodup_cons.mp h.nodup).2, fun d hd => h.fresh d (List.mem_cons_of_mem _ hd)⟩

omit [PendingOrderPolicy P] in
theorem Unscheduled.scheduled {c : AdmissionCandidate} {rest : List AdmissionCandidate}
    (h : Unscheduled w p (c :: rest)) (tokens : Nat) :
    Unscheduled (w.issue (.schedulePrefillChunk c.requestId p tokens)) p rest := by
  obtain ⟨hnew, hnodup⟩ := List.nodup_cons.mp h.nodup
  refine ⟨hnodup, fun d hd hmem => ?_⟩
  replace hmem : d.requestId ∈
      ((w.store.schedulePrefillChunk c.requestId p tokens).partitions p).prefillAdmits := hmem
  rw [admits_schedulePrefillChunk, if_pos rfl, List.mem_append, List.mem_singleton] at hmem
  rcases hmem with hmem | hmem
  · exact h.fresh d (List.mem_cons_of_mem _ hd) hmem
  · exact hnew (List.mem_map.mpr ⟨d, hd, hmem⟩)

omit [PendingOrderPolicy P] in
/-- The other partitions' prefills stay. -/
theorem admits_schedule_of_ne {q : Fin n} (hq : q ≠ p) (tokens : Nat) :
    ((w.issue (.schedulePrefillChunk r p tokens)).store.partitions q).prefillAdmits =
      (w.store.partitions q).prefillAdmits := by
  refine (admits_schedulePrefillChunk w.store r p q tokens).trans ?_
  rw [if_neg hq, List.append_nil]

/-- The started prompts of a partition, one after the other: `before` are the ones already
visited that stay started. -/
theorem scheduleStarted_path {rest : List AdmissionCandidate} {budget left : Nat}
    {kept : List AdmissionCandidate} (budgets : Fin n → Nat) (slots : Fin n → Option Nat)
    (h : scheduleStarted cfg p rest w budget = .ok (w', left, kept)) (hrest : Unscheduled w p rest)
    (before : List AdmissionCandidate) :
    ReflTransGen (FormStep cfg)
      ⟨{ w with startedPrefills := Function.update w.startedPrefills p (before ++ rest) },
        Function.update budgets p budget, slots⟩
      ⟨{ w' with startedPrefills := Function.update w'.startedPrefills p (before ++ kept) },
        Function.update budgets p left, slots⟩ ∧
    (∀ q, q ≠ p → (w'.store.partitions q).prefillAdmits = (w.store.partitions q).prefillAdmits) ∧
    w'.startedPrefills = w.startedPrefills := by
  induction rest generalizing w budget before kept with
  | nil =>
    simp only [scheduleStarted, Except.ok.injEq, Prod.mk.injEq] at h
    obtain ⟨rfl, rfl, rfl⟩ := h
    exact ⟨.refl, fun _ _ => rfl, rfl⟩
  | cons c rest ih =>
    simp only [scheduleStarted, resolvedPrefillContext, bind_eq_ok_iff, required_eq_ok_iff] at h
    obtain ⟨context, hcontext, h⟩ := h
    split at h
    · simp only [bind_eq_ok_iff] at h
      obtain ⟨⟨final, left', kept'⟩, hfinal, h⟩ := h
      simp only [pure, Except.pure, Except.ok.injEq, Prod.mk.injEq] at h
      obtain ⟨rfl, rfl, rfl⟩ := h
      have hpath := ih hfinal hrest.tail (before ++ [c])
      simp only [List.append_assoc, List.singleton_append] at hpath
      exact hpath
    · next hpositive =>
      simp only [bind_eq_ok_iff] at h
      obtain ⟨spent, hspent, ⟨final, left', kept'⟩, hfinal, h⟩ := h
      simp only [pure, Except.pure, Except.ok.injEq, Prod.mk.injEq] at h
      obtain ⟨rfl, rfl, rfl⟩ := h
      obtain ⟨hpath, hother, hstarted⟩ := ih hfinal (hrest.scheduled _)
        (before ++ if nextChunkTokens context (budget - cfg.draftingSlots) cfg.chunkEndAlignment
          cfg.maxBatchTokens < context.remainingPrefillTokens then [c] else [])
      have hstep : FormStep cfg
          ⟨{ w with startedPrefills := Function.update w.startedPrefills p (before ++ c :: rest) },
            Function.update budgets p budget, slots⟩ _ :=
        .chunk (Function.update_self ..) (Function.update_self ..)
          (hrest.fresh c List.mem_cons_self) hcontext rfl hpositive hspent
      simp only [Function.update_idem] at hstep
      refine ⟨.head hstep ?_, fun q hq => ?_, hstarted⟩
      · have hkept : ∀ tokens, before ++ (if tokens < context.remainingPrefillTokens then c :: kept'
            else kept') =
            before ++ (if tokens < context.remainingPrefillTokens then [c] else []) ++ kept' := by
          intro tokens
          split <;> simp
        rw [hkept]
        exact hpath
      · exact (hother q hq).trans (admits_schedule_of_ne hq _)

theorem scheduleStartedOn_path {budgets budgets' : Fin n → Nat} (slots : Fin n → Option Nat)
    (hlocated : Located cfg w) (hidle : (w.store.partitions p).prefillAdmits = [])
    (h : scheduleStartedOn cfg (w, budgets) p = .ok (w', budgets')) :
    ReflTransGen (FormStep cfg) ⟨w, budgets, slots⟩ ⟨w', budgets', slots⟩ ∧
    ∀ q, q ≠ p → (w'.store.partitions q).prefillAdmits = (w.store.partitions q).prefillAdmits := by
  simp only [scheduleStartedOn, bind_eq_ok_iff] at h
  obtain ⟨⟨scheduled, left, kept⟩, hscheduled, h⟩ := h
  simp only [pure, Except.pure, Except.ok.injEq, Prod.mk.injEq] at h
  obtain ⟨rfl, rfl⟩ := h
  have hrest : Unscheduled w p (w.startedPrefills p) :=
    ⟨hlocated.nodup_started p, fun c _ hmem => by simp [hidle] at hmem⟩
  obtain ⟨hpath, hother, -⟩ := scheduleStarted_path budgets slots hscheduled hrest []
  simp only [List.nil_append, Function.update_eq_self] at hpath
  exact ⟨hpath, hother⟩

theorem admitFresh_path {fuel : Nat} {budget : Nat} {slot : Option Nat}
    (h : admitFresh cfg p fuel w budget slot = .ok w') {budgets : Fin n → Nat}
    {slots : Fin n → Option Nat} (hbudget : budgets p = budget) (hslot : slots p = slot) :
    ∃ budgets' slots', ReflTransGen (FormStep cfg) ⟨w, budgets, slots⟩ ⟨w', budgets', slots'⟩ ∧
      ∀ q, q ≠ p → budgets' q = budgets q ∧ slots' q = slots q := by
  induction fuel generalizing w budget slot budgets slots with
  | zero =>
    obtain rfl := Except.ok.inj h
    exact ⟨budgets, slots, .refl, fun _ _ => ⟨rfl, rfl⟩⟩
  | succ fuel ih =>
    simp only [admitFresh] at h
    split at h
    · simp only [bind_eq_ok_iff] at h
      obtain ⟨chunkBudget, hroom, h⟩ := h
      have hrefresh : FormStep cfg ⟨w, budgets, slots⟩ ⟨w.refreshPolicy p, budgets, slots⟩ :=
        .refresh p
      split at h
      · obtain rfl := Except.ok.inj h
        exact ⟨budgets, slots, .single hrefresh, fun _ _ => ⟨rfl, rfl⟩⟩
      · next a hgate =>
        simp only [bind_eq_ok_iff] at h
        obtain ⟨slot', hclaimed, admitted, hentered, left, hspent, h⟩ := h
        have hstep : FormStep cfg ⟨w.refreshPolicy p, budgets, slots⟩ ⟨admitted,
            Function.update budgets p left, Function.update slots p slot'⟩ :=
          .admitted hbudget hslot hroom hgate hclaimed hentered hspent
        obtain ⟨budgets', slots', hpath, hother⟩ :=
          ih h (Function.update_self ..) (Function.update_self ..)
        refine ⟨budgets', slots', .head hrefresh (.head hstep hpath), fun q hq => ?_⟩
        obtain ⟨hbudgets, hslots⟩ := hother q hq
        exact ⟨hbudgets.trans (Function.update_of_ne hq ..),
          hslots.trans (Function.update_of_ne hq ..)⟩
    · obtain rfl := Except.ok.inj h
      exact ⟨budgets, slots, .refl, fun _ _ => ⟨rfl, rfl⟩⟩

theorem schedulePrefills_path {retracted : Bool} (hlocated : Located cfg w) (hidle : Idle w)
    (h : w.schedulePrefills cfg retracted = .ok w') :
    ∃ budgets slots, ReflTransGen (FormStep cfg)
      ⟨w, w.remainingBudget cfg, w.futureDecodeSlots cfg⟩ ⟨w', budgets, slots⟩ := by
  simp only [schedulePrefills, bind_eq_ok_iff] at h
  obtain ⟨⟨scheduled, budgets⟩, hscheduled, h⟩ := h
  have hstarted := Run.tryRun_induction
    (I := fun rest (state : ChunkedPrefillWorker P acc n × (Fin n → Nat)) =>
      ReflTransGen (FormStep cfg) ⟨w, w.remainingBudget cfg, w.futureDecodeSlots cfg⟩
        ⟨state.1, state.2, w.futureDecodeSlots cfg⟩ ∧
      rest.Nodup ∧ ∀ p ∈ rest, (state.1.store.partitions p).prefillAdmits = [])
    (fun p rest state state' hI hturn => by
      obtain ⟨hpath, hnodup, hfree⟩ := hI
      obtain ⟨hnew, hnodup⟩ := List.nodup_cons.mp hnodup
      obtain ⟨hturn, hother⟩ := scheduleStartedOn_path (w.futureDecodeSlots cfg)
        (located_of_forming hpath hlocated) (hfree p List.mem_cons_self) hturn
      refine ⟨hpath.trans hturn, hnodup, fun q hq => ?_⟩
      rw [hother q fun heq => hnew (heq ▸ hq)]
      exact hfree q (List.mem_cons_of_mem _ hq))
    ⟨.refl, List.nodup_finRange n, fun p _ => hidle p⟩ hscheduled
  cases retracted with
  | true =>
    obtain rfl := Except.ok.inj h
    exact ⟨_, _, hstarted.1⟩
  | false =>
    -- the partitions' budgets and windows are their own until their turn
    have hfresh := Run.tryRun_induction
      (I := fun rest (state : ChunkedPrefillWorker P acc n) => rest.Nodup ∧
        ∃ budgets' slots', ReflTransGen (FormStep cfg)
          ⟨w, w.remainingBudget cfg, w.futureDecodeSlots cfg⟩ ⟨state, budgets', slots'⟩ ∧
          ∀ p ∈ rest, budgets' p = budgets p ∧ slots' p = w.futureDecodeSlots cfg p)
      (fun p rest state state' hI hturn => by
        obtain ⟨hnodup, budgets', slots', hpath, hown⟩ := hI
        obtain ⟨hnew, hnodup⟩ := List.nodup_cons.mp hnodup
        obtain ⟨hbudget, hslot⟩ := hown p List.mem_cons_self
        obtain ⟨budgets'', slots'', hturn, hother⟩ := admitFresh_path hturn hbudget hslot
        refine ⟨hnodup, budgets'', slots'', hpath.trans hturn, fun q hq => ?_⟩
        obtain ⟨hbudgets, hslots⟩ := hother q fun heq => hnew (heq ▸ hq)
        obtain ⟨hbudget', hslot'⟩ := hown q (List.mem_cons_of_mem _ hq)
        exact ⟨hbudgets.trans hbudget', hslots.trans hslot'⟩)
      ⟨List.nodup_finRange n, budgets, w.futureDecodeSlots cfg, hstarted.1, fun _ _ => ⟨rfl, rfl⟩⟩ h
    obtain ⟨-, budgets', slots', hpath, -⟩ := hfresh
    exact ⟨budgets', slots', hpath⟩

/-! ## A batch -/

/-- What a formed batch went through: room for the decodes of an engine that mixes, the
prefills, and room for the decodes of a decode-only batch. -/
structure Formed (cfg : ChunkedPrefillConfig n)
    (w prepared scheduled w' : ChunkedPrefillWorker P acc n)
    (hasBatch : Bool) : Prop where
  before : prepared = { w with batchPlan := fun _ => true } ∨
    ∃ config retracted, cfg.boundedConfig = some config ∧ cfg.mixesPrefillWithDecode = true ∧
      ({ w with batchPlan := fun _ => true } : ChunkedPrefillWorker P acc n).prepareDecode config
        cfg.queryWidth = .ok (prepared, retracted)
  prefills : ∃ retracted, prepared.schedulePrefills cfg retracted = .ok scheduled
  after : ∃ planned ready : ChunkedPrefillWorker P acc n, planned = { scheduled with
      batchPlan := fun p => cfg.mixesPrefillWithDecode || !scheduled.hasPrefillAdmit p } ∧
    (ready = planned ∨ Idle scheduled ∧ ∃ config retracted, cfg.boundedConfig = some config ∧
      cfg.mixesPrefillWithDecode = false ∧
      planned.prepareDecode config cfg.queryWidth = .ok (ready, retracted)) ∧
    w' = ready.resetRatioWhenIdle cfg hasBatch
  /-- Without a batch there is no prefill. -/
  idle : hasBatch = false → Idle scheduled

omit [PendingOrderPolicy P] in
theorem idle_of_noPrefill
    (h : ((List.finRange n).any fun p => w.hasPrefillAdmit p) = false) : Idle w := by
  intro p
  have hp := List.any_eq_false.mp h p (List.mem_finRange p)
  simpa [hasPrefillAdmit] using hp

theorem formBatch_path {hasBatch : Bool} (h : w.formBatch cfg = .ok (w', hasBatch)) :
    ∃ prepared scheduled, Formed cfg w prepared scheduled w' hasBatch := by
  simp only [formBatch, bind_eq_ok_iff] at h
  obtain ⟨⟨prepared, retracted⟩, hbefore, scheduled, hscheduled, ⟨ready, hadDecode⟩, hafter, h⟩ := h
  simp only [pure, Except.pure, Except.ok.injEq, Prod.mk.injEq] at h
  obtain ⟨hw, hbatch⟩ := h
  refine ⟨prepared, scheduled, ?_, ⟨retracted, hscheduled⟩, ⟨_, ready, rfl, ?_, ?_⟩, ?_⟩
  · simp only [prepareBeforeAdmission] at hbefore
    split at hbefore
    · next config hconfig =>
      split at hbefore
      · next hmix =>
        rw [Bool.and_eq_true] at hmix
        exact .inr ⟨config, retracted, hconfig, hmix.1, hbefore⟩
      · exact .inl (Prod.ext_iff.mp (Except.ok.inj hbefore)).1.symm
    · exact .inl (Prod.ext_iff.mp (Except.ok.inj hbefore)).1.symm
  · simp only [prepareDecodeOnly] at hafter
    split at hafter
    · next config hconfig =>
      split at hafter
      · next hmix =>
        simp only [Bool.and_eq_true, Bool.not_eq_true'] at hmix
        simp only [bind_eq_ok_iff] at hafter
        obtain ⟨⟨ready', retracted'⟩, hprepare, hready⟩ := hafter
        obtain ⟨rfl, -⟩ := Prod.ext_iff.mp (Except.ok.inj hready)
        exact .inr ⟨idle_of_noPrefill hmix.1.2, config, retracted', hconfig, hmix.1.1, hprepare⟩
      · exact .inl (Prod.ext_iff.mp (Except.ok.inj hafter)).1.symm
    · exact .inl (Prod.ext_iff.mp (Except.ok.inj hafter)).1.symm
  · rw [← hw, ← hbatch]
  · intro hnone
    rw [← hbatch, Bool.or_eq_false_iff] at hnone
    exact idle_of_noPrefill hnone.2

variable {J : ChunkedPrefillWorker P acc n → Prop}

theorem formBatch_rule
    (hframe : ∀ (w : ChunkedPrefillWorker P acc n) plan ratio computing, J w →
      J { w with batchPlan := plan, currentNewTokenRatio := ratio, computing := computing })
    (hmaking : ∀ {config stepTokens} {w w' : ChunkedPrefillWorker P acc n},
      Making config stepTokens w w' → Located cfg w → Idle w → J w → J w')
    (hforming : ∀ {s s' : Forming P acc n},
      FormStep cfg s s' → Located cfg s.worker → J s.worker → J s'.worker)
    {hasBatch : Bool} (hform : w.formBatch cfg = .ok (w', hasBatch)) (h : Located cfg w)
    (hidle : Idle w) (hw : J w) :
    Located cfg w' ∧ J w' ∧ (hasBatch = false → Idle w') := by
  have hmade : ∀ {config stepTokens} {w w' : ChunkedPrefillWorker P acc n},
      ReflTransGen (Making config stepTokens) w w' → Located cfg w → Idle w → J w →
      Located cfg w' ∧ Idle w' ∧ J w' := by
    intro config stepTokens w w' hpath hlocated hfree hJ
    induction hpath with
    | refl => exact ⟨hlocated, hfree, hJ⟩
    | tail _ hstep ih =>
      obtain ⟨hlocated', hfree'⟩ := hstep.located ih.1 ih.2.1
      exact ⟨hlocated', hfree', hmaking hstep ih.1 ih.2.1 ih.2.2⟩
  -- the three parts of a batch: room for the decodes, the prefills, the reset of the ratio
  obtain ⟨prepared, scheduled, hformed⟩ := formBatch_path hform
  have hprepared : Located cfg prepared ∧ Idle prepared ∧ J prepared := by
    have hplanned : Located cfg { w with batchPlan := fun _ => true } := h.of_eq rfl rfl rfl rfl rfl
    have hJ : J { w with batchPlan := fun _ => true } :=
      hframe w _ w.currentNewTokenRatio w.computing hw
    rcases hformed.before with rfl | ⟨config, retracted, -, -, hprepare⟩
    · exact ⟨hplanned, hidle, hJ⟩
    · exact hmade (prepareDecode_path hprepare) hplanned hidle hJ
  obtain ⟨retracted, hprefills⟩ := hformed.prefills
  obtain ⟨budgets, slots, hpath⟩ := schedulePrefills_path hprepared.1 hprepared.2.1 hprefills
  have hscheduled : ∀ {s s' : Forming P acc n}, ReflTransGen (FormStep cfg) s s' →
      Located cfg s.worker → J s.worker → Located cfg s'.worker ∧ J s'.worker := by
    intro s s' hpath hlocated hJ
    induction hpath with
    | refl => exact ⟨hlocated, hJ⟩
    | tail _ hstep ih => exact ⟨hstep.located ih.1, hforming hstep ih.1 ih.2⟩
  obtain ⟨hlocated, hJ⟩ := hscheduled hpath hprepared.1 hprepared.2.2
  obtain ⟨planned, ready, hplanned, hready, rfl⟩ := hformed.after
  have hplan : Located cfg planned ∧ (Idle scheduled → Idle planned) ∧ J planned := by
    rw [hplanned]
    exact ⟨hlocated.of_eq rfl rfl rfl rfl rfl, fun hfree => hfree,
      hframe scheduled _ scheduled.currentNewTokenRatio scheduled.computing hJ⟩
  have hend : Located cfg ready ∧ (Idle scheduled → Idle ready) ∧ J ready := by
    rcases hready with rfl | ⟨hfree, config, retracted', -, -, hprepare⟩
    · exact hplan
    · obtain ⟨hlocated, hfree', hJ⟩ := hmade (prepareDecode_path hprepare) hplan.1
        (hplan.2.1 hfree) hplan.2.2
      exact ⟨hlocated, fun _ => hfree', hJ⟩
  obtain ⟨hlocated, hfree, hJ⟩ := hend
  unfold resetRatioWhenIdle
  split
  · split
    · exact ⟨hlocated.of_eq rfl rfl rfl rfl rfl, hframe ready ready.batchPlan _ ready.computing hJ,
        fun hnone q => hfree (hformed.idle hnone) q⟩
    · exact ⟨hlocated, hJ, fun hnone => hfree (hformed.idle hnone)⟩
  · exact ⟨hlocated, hJ, fun hnone => hfree (hformed.idle hnone)⟩

theorem Located.formBatch (h : Located cfg w) (hidle : Idle w) {hasBatch : Bool}
    (hform : w.formBatch cfg = .ok (w', hasBatch)) :
    Located cfg w' ∧ (hasBatch = false → Idle w') := by
  obtain ⟨hlocated, -, hfree⟩ := formBatch_rule (J := fun _ => True) (fun _ _ _ _ _ => trivial)
    (fun _ _ _ _ => trivial) (fun _ _ _ => trivial) hform h hidle trivial
  exact ⟨hlocated, hfree⟩

/-! ## Completing -/

/-- A turn of the completion loops of a partition. -/
inductive Completing (cfg : ChunkedPrefillConfig n) (p : Fin n) (w : ChunkedPrefillWorker P acc n) :
    ChunkedPrefillWorker P acc n → Prop
  /-- The partition's decodes take their step. -/
  | decoded {w' : ChunkedPrefillWorker P acc n} {completed : List RequestId}
      (step : w.completeDecodesOn cfg p = .ok (w', completed)) : Completing cfg p w w'
  /-- A scheduled chunk is recorded. -/
  | prefilled {w' : ChunkedPrefillWorker P acc n} {r : RequestId}
      {completed completed' : List RequestId}
      (admitted : r ∈ (w.store.partitions p).prefillAdmits)
      (step : completePrefill p (w, completed) r = .ok (w', completed')) : Completing cfg p w w'
  | cleared : Completing cfg p w (w.issue (.clearPrefillAdmits p))
  /-- A request that emitted its last token leaves. -/
  | finished {r : RequestId} (resident : w.store.phaseOf r = .resident p)
      (complete : (w.requests r).isComplete = true)
      (free : (w.store.partitions p).prefillAdmits = []) :
    Completing cfg p w (releaseCompleted p w r)

theorem Completing.located (h : Completing cfg p w w') (hlocated : Located cfg w) :
    Located cfg w' := by
  cases h with
  | decoded step => exact (hlocated.decodeStep step).located
  | prefilled admitted step => exact (hlocated.completePrefill admitted step).located
  | cleared => exact hlocated.clear p
  | finished resident _ free => exact hlocated.finish resident free

theorem located_of_completing (h : ReflTransGen (Completing cfg p) w w')
    (hlocated : Located cfg w) : Located cfg w' := by
  induction h with
  | refl => exact hlocated
  | tail _ hstep ih => exact hstep.located ih

/-- The requests a partition's iteration completed so far: each once, resident and complete. -/
structure Finished (w : ChunkedPrefillWorker P acc n) (p : Fin n) (completed : List RequestId) :
    Prop where
  nodup : completed.Nodup
  resident : ∀ r ∈ completed, w.store.phaseOf r = .resident p
  complete : ∀ r ∈ completed, (w.requests r).isComplete = true

theorem completePrefills_path {rest completed completed' : List RequestId} (h : Located cfg w)
    (hrest : ∀ r ∈ rest, r ∈ (w.store.partitions p).prefillAdmits) (hdone : Finished w p completed)
    (hfold : rest.foldlM (completePrefill p) (w, completed) = .ok (w', completed')) :
    ReflTransGen (Completing cfg p) w w' ∧ Finished w' p completed' ∧
      ∀ q, (w'.store.partitions q).prefillAdmits = (w.store.partitions q).prefillAdmits := by
  have hall := Run.tryRun_induction
    (I := fun rest (state : ChunkedPrefillWorker P acc n × List RequestId) =>
      ReflTransGen (Completing cfg p) w state.1 ∧ Finished state.1 p state.2 ∧
      (∀ q, (state.1.store.partitions q).prefillAdmits = (w.store.partitions q).prefillAdmits) ∧
      ∀ r ∈ rest, r ∈ (w.store.partitions p).prefillAdmits)
    (fun r rest state state' hI hturn => by
      obtain ⟨hpath, hfinished, hadmits, hmem⟩ := hI
      have hr : r ∈ (state.1.store.partitions p).prefillAdmits := by
        rw [hadmits]
        exact hmem r List.mem_cons_self
      have hstep := (located_of_completing hpath h).completePrefill hr hturn
      -- the chunk's request was being prefilled, so it is none of the completed ones
      have hnew : r ∉ state.2 := fun hcompleted => by
        have hresident := hfinished.resident r hcompleted
        rw [hstep.before] at hresident
        cases hresident
      have hkept : Finished state'.1 p state.2 := by
        refine ⟨hfinished.nodup, fun s hs => ?_, fun s hs => ?_⟩
        · rw [(hstep.other fun heq => hnew (heq ▸ hs)).1]
          exact hfinished.resident s hs
        · rw [(hstep.other fun heq => hnew (heq ▸ hs)).2]
          exact hfinished.complete s hs
      refine ⟨hpath.tail (.prefilled hr hturn), ?_, fun q => (hstep.admits q).trans (hadmits q),
        fun s hs => hmem s (List.mem_cons_of_mem _ hs)⟩
      rcases hstep.completed with hsame | ⟨hadded, hresident, hcomplete⟩
      · rw [hsame]
        exact hkept
      · rw [hadded]
        refine ⟨List.Nodup.append hkept.nodup (List.nodup_singleton r) (by simpa using hnew),
          fun s hs => ?_, fun s hs => ?_⟩
        · rcases List.mem_append.mp hs with hs | hs
          · exact hkept.resident s hs
          · exact (List.mem_singleton.mp hs) ▸ hresident
        · rcases List.mem_append.mp hs with hs | hs
          · exact hkept.complete s hs
          · exact (List.mem_singleton.mp hs) ▸ hcomplete)
    ⟨.refl, hdone, fun _ => rfl, hrest⟩ hfold
  exact ⟨hall.1, hall.2.1, hall.2.2.1⟩

theorem releaseCompleted_path {completed : List RequestId} (h : Located cfg w)
    (hfree : (w.store.partitions p).prefillAdmits = []) (hdone : Finished w p completed) :
    ReflTransGen (Completing cfg p) w (completed.foldl (releaseCompleted p) w) ∧
      (∀ q, ((completed.foldl (releaseCompleted p) w).store.partitions q).prefillAdmits =
        (w.store.partitions q).prefillAdmits) ∧
      (completed.foldl (releaseCompleted p) w).requests = w.requests := by
  induction completed generalizing w with
  | nil => exact ⟨.refl, fun _ => rfl, rfl⟩
  | cons r completed ih =>
    obtain ⟨hnew, hnodup⟩ := List.nodup_cons.mp hdone.nodup
    have hresident := hdone.resident r List.mem_cons_self
    have hother : ∀ s ∈ completed,
        (releaseCompleted p w r).entriesOf s = w.entriesOf s := fun s hs =>
      entriesOf_releaseCompleted h.tracked hresident fun heq => hnew (heq ▸ hs)
    have hadmits : ∀ q, ((releaseCompleted p w r).store.partitions q).prefillAdmits =
        (w.store.partitions q).prefillAdmits := fun q =>
      admits_releaseRetainingPrefix w.store r p q
    have hstep : Completing cfg p w (releaseCompleted p w r) :=
      .finished hresident (hdone.complete r List.mem_cons_self) hfree
    obtain ⟨hpath, hrest, hrequests⟩ := ih (w := releaseCompleted p w r) (hstep.located h)
      ((hadmits p).trans hfree)
      ⟨hnodup, fun s hs => (congrArg Entries.phase (hother s hs)).trans
          (hdone.resident s (List.mem_cons_of_mem _ hs)),
        fun s hs => (congrArg (fun e => (Entries.record e).isComplete) (hother s hs)).trans
          (hdone.complete s (List.mem_cons_of_mem _ hs))⟩
    exact ⟨.head hstep hpath, fun q => (hrest q).trans (hadmits q), hrequests⟩

theorem completePartition_path (h : Located cfg w) {events events' : List RequestId}
    (hstep : completePartition cfg (w, events) p = .ok (w', events')) :
    ReflTransGen (Completing cfg p) w w' ∧ (∀ q, (w'.store.partitions q).prefillAdmits =
        if q = p then [] else (w.store.partitions q).prefillAdmits) ∧
      ∃ completed, events' = events ++ completed ∧
        ∀ r ∈ completed, (w'.requests r).isComplete = true := by
  simp only [completePartition, bind_eq_ok_iff] at hstep
  obtain ⟨⟨decoded, retired⟩, hdecoded, ⟨prefilled, completed⟩, hprefilled, hstep⟩ := hstep
  simp only [pure, Except.pure, Except.ok.injEq, Prod.mk.injEq] at hstep
  obtain ⟨rfl, rfl⟩ := hstep
  have hdecode := h.decodeStep hdecoded
  obtain ⟨hpath, hfinished, hadmits⟩ := completePrefills_path hdecode.located (fun r hr => hr)
    ⟨hdecode.nodup, hdecode.resident, hdecode.complete⟩ hprefilled
  have hlocated := located_of_completing hpath hdecode.located
  have hcleared : ∀ q,
      ((prefilled.issue (.clearPrefillAdmits p)).store.partitions q).prefillAdmits =
      if q = p then [] else (prefilled.store.partitions q).prefillAdmits := fun q =>
    admits_clearPrefillAdmits prefilled.store p q
  -- clearing the iteration's prefills leaves the finished requests as they are
  have hsame := fun s => entriesOf_clear (p := p) hlocated.tracked s
  have hdone : Finished (prefilled.issue (.clearPrefillAdmits p)) p completed :=
    ⟨hfinished.nodup, fun s hs =>
        (congrArg Entries.phase (hsame s)).trans (hfinished.resident s hs),
      hfinished.complete⟩
  obtain ⟨hrelease, hrest, hrequests⟩ := releaseCompleted_path (hlocated.clear p)
    ((hcleared p).trans (if_pos rfl)) hdone
  refine ⟨.head (.decoded hdecoded) (hpath.trans (.head .cleared hrelease)), fun q => ?_,
    completed, rfl, fun r hr => ?_⟩
  · rw [hrest, hcleared, hadmits, hdecode.admits]
  · rw [hrequests]
    exact hfinished.complete r hr

theorem completeIteration_path (h : Located cfg w) {events : List RequestId}
    (hstep : w.completeIteration cfg = .ok (w', events)) :
    ReflTransGen (fun w w' => ∃ p, Completing cfg p w w') w w' ∧ Located cfg w' ∧ Idle w' := by
  have hall := Run.tryRun_induction
    (I := fun rest (state : ChunkedPrefillWorker P acc n × List RequestId) =>
      ReflTransGen (fun w w' => ∃ p, Completing cfg p w w') w state.1 ∧ Located cfg state.1 ∧
      ∀ q, q ∉ rest → (state.1.store.partitions q).prefillAdmits = [])
    (fun p rest state state' hI hturn => by
      obtain ⟨hpath, hlocated, hfree⟩ := hI
      obtain ⟨hturn, hadmits, -⟩ := completePartition_path hlocated hturn
      refine ⟨hpath.trans (hturn.lift id fun _ _ hstep => ⟨p, hstep⟩),
        located_of_completing hturn hlocated, fun q hq => ?_⟩
      rw [hadmits]
      split
      · rfl
      · next hne =>
        exact hfree q (by simp [hne, hq]))
    ⟨.refl, h, fun q hq => absurd (List.mem_finRange q) hq⟩ hstep
  exact ⟨hall.1, hall.2.1, fun q => hall.2.2 q List.not_mem_nil⟩

/-! ## Whole steps -/

/-- What every step of the shell keeps: every request is in one location, and nothing is in
an iteration that was not formed. -/
structure Settled (cfg : ChunkedPrefillConfig n) (w : ChunkedPrefillWorker P acc n) : Prop where
  located : Located cfg w
  idle : w.computing = false → Idle w

theorem releaseRequest_frame (w : ChunkedPrefillWorker P acc n) (r : RequestId) :
    (w.releaseRequest r).computing = w.computing ∧
      ∀ q, ((w.releaseRequest r).store.partitions q).prefillAdmits.Subset
        (w.store.partitions q).prefillAdmits := by
  rcases releaseRequest_cases w r with ⟨p, -, hw⟩ | ⟨-, episodes, -, hw⟩
  · rw [hw]
    exact ⟨rfl, fun q s hs => hs⟩
  · rw [hw]
    refine ⟨rfl, fun q s hs => ?_⟩
    have hmem := (admits_releaseExternal w.store r q).mem_iff.mp hs
    split at hmem
    · exact List.mem_of_mem_erase hmem
    · exact hmem

theorem Settled.step {op : WorkerOp} (h : Settled cfg w) (hop : op.Enabled w)
    (hstep : op.step cfg w = .ok w') : Settled cfg w' := by
  cases op with
  | enqueue r =>
    have haccept : w.acceptMessage cfg r = .ok w' := hstep
    obtain ⟨p, c, sequence, balance, -, -, -, -, -, hw⟩ := acceptMessage_spec haccept
    refine ⟨h.located.accept hop hstep, fun hcomputing q => ?_⟩
    rw [hw] at hcomputing ⊢
    exact h.idle hcomputing q
  | formBatch =>
    obtain ⟨formed, hasBatch, hform, rfl⟩ := WorkerOp.step_formBatch hstep
    obtain ⟨hlocated, hidle⟩ := h.located.formBatch (h.idle hop) hform
    exact ⟨hlocated.of_eq rfl rfl rfl rfl rfl, fun hnone q => hidle hnone q⟩
  | completeIteration =>
    obtain ⟨completed, events, hcomplete, rfl⟩ := WorkerOp.step_completeIteration hstep
    obtain ⟨-, hlocated, hidle⟩ := completeIteration_path h.located hcomplete
    exact ⟨hlocated.of_eq rfl rfl rfl rfl rfl, fun _ q => hidle q⟩
  | release r =>
    obtain rfl := Except.ok.inj hstep
    obtain ⟨hcomputing, hsubset⟩ := releaseRequest_frame w r
    refine ⟨h.located.cancel r, fun hidle q => ?_⟩
    have hfree := hsubset q
    rw [h.idle (hcomputing.symm.trans hidle) q] at hfree
    exact List.subset_nil.mp hfree

/-- A state that a run of the shell leads to, from a new worker that holds no request. -/
structure Reached (cfg : ChunkedPrefillConfig n) (w : ChunkedPrefillWorker P acc n) : Prop where
  run : ∃ (budget : PrefixCacheBudget) (requests : Requests) (policies : Fin n → P)
    (balance : LoadBalance) (ops : List WorkerOp),
    (∀ r, (requests r).Fresh) ∧ (∀ p, candidates (policies p) = []) ∧
    Run.TryAllowed (WorkerOp.step cfg) (fun w op => op.Enabled w)
      (ChunkedPrefillWorker.new cfg budget requests policies balance :
        ChunkedPrefillWorker P acc n) ops ∧
    Run.tryRun (WorkerOp.step cfg)
      (ChunkedPrefillWorker.new cfg budget requests policies balance) ops = .ok w

theorem Reached.invariant {Inv : ChunkedPrefillWorker P acc n → Prop} (h : Reached cfg w)
    (hnew : ∀ budget requests policies balance, (∀ r, (requests r).Fresh) →
      (∀ p, candidates (policies p) = []) →
      Inv (ChunkedPrefillWorker.new cfg budget requests policies balance))
    (hstep : ∀ w op w', Settled cfg w → Inv w → WorkerOp.Enabled w op →
      WorkerOp.step cfg w op = .ok w' → Inv w') : Settled cfg w ∧ Inv w := by
  obtain ⟨budget, requests, policies, balance, ops, hrequests, hpolicies, hallowed, hrun⟩ := h.run
  refine Run.tryInvariant (fun w => Settled cfg w ∧ Inv w)
    (fun w op w' hw hop hop' => ⟨hw.1.step hop hop', hstep w op w' hw.1 hw.2 hop hop'⟩) ?_
    hallowed hrun
  exact ⟨⟨located_new cfg budget balance
    (fun r => ⟨(hrequests r).stage, (hrequests r).outputTokensEmitted⟩) hpolicies,
    fun _ _ => rfl⟩, hnew budget requests policies balance hrequests hpolicies⟩

/-- What every turn of every loop keeps. -/
structure TurnInvariant (cfg : ChunkedPrefillConfig n) (J : ChunkedPrefillWorker P acc n → Prop) :
    Prop where
  frame : ∀ (w : ChunkedPrefillWorker P acc n) plan ratio computing, J w →
    J { w with batchPlan := plan, currentNewTokenRatio := ratio, computing := computing }
  making : ∀ {config stepTokens} {w w' : ChunkedPrefillWorker P acc n},
    Making config stepTokens w w' → Located cfg w → Idle w → J w → J w'
  forming : ∀ {s s' : Forming P acc n},
    FormStep cfg s s' → Located cfg s.worker → J s.worker → J s'.worker
  completing : ∀ {p} {w w' : ChunkedPrefillWorker P acc n},
    Completing cfg p w w' → Located cfg w → J w → J w'
  enqueued : ∀ {r} {w w' : ChunkedPrefillWorker P acc n},
    w.acceptMessage cfg r = .ok w' → Located cfg w → J w → J w'
  released : ∀ {r} {w : ChunkedPrefillWorker P acc n}, Located cfg w → J w → J (w.releaseRequest r)

theorem TurnInvariant.completing_path
    (hJ : TurnInvariant cfg J) (h : ReflTransGen (fun w w' => ∃ p, Completing cfg p w w') w w')
    (hlocated : Located cfg w) (hw : J w) : J w' := by
  have hall : Located cfg w' ∧ J w' := by
    induction h with
    | refl => exact ⟨hlocated, hw⟩
    | tail _ hturn ih =>
      obtain ⟨q, hturn⟩ := hturn
      exact ⟨hturn.located ih.1, hJ.completing hturn ih.1 ih.2⟩
  exact hall.2

theorem TurnInvariant.step (hJ : TurnInvariant cfg J)
    {op : WorkerOp} (h : Settled cfg w) (hw : J w) (hop : op.Enabled w)
    (hstep : op.step cfg w = .ok w') : J w' := by
  cases op with
  | enqueue r => exact hJ.enqueued hstep h.located hw
  | formBatch =>
    obtain ⟨formed, hasBatch, hform, rfl⟩ := WorkerOp.step_formBatch hstep
    obtain ⟨-, hformed, -⟩ := formBatch_rule hJ.frame hJ.making hJ.forming hform h.located
      (h.idle hop) hw
    exact hJ.frame formed formed.batchPlan formed.currentNewTokenRatio hasBatch hformed
  | completeIteration =>
    obtain ⟨completed, events, hcomplete, rfl⟩ := WorkerOp.step_completeIteration hstep
    obtain ⟨hpath, -, -⟩ := completeIteration_path h.located hcomplete
    have hall := hJ.completing_path hpath h.located hw
    exact hJ.frame completed completed.batchPlan completed.currentNewTokenRatio false hall
  | release r =>
    obtain rfl := Except.ok.inj hstep
    exact hJ.released h.located hw

end ServingSim
