import ServingSim.Admission.ChunkAlignment
import ServingSim.Admission.ChunkTiling
import ServingSim.Admission.TokenBudget

/-
  Whether a batch always moves a prefill on.

  A chunk is cut from the cap less the drafting slots, but a block is compared with the
  whole cap: where a block is wider than the chunk and no wider than the cap, a chunk that
  starts on a boundary is floored to nothing, and the prompt waits for good. The other
  ways to stall are a cap that the drafting slots use up, a verify window wider than the
  cap, and a prompt with nothing to compute.
-/

namespace ServingSim

open KeyedTotal PendingOrderPolicy KvCacheStore Relation ChunkedPrefillWorker

/-! ## Sizes -/

/-- Sizes with which every chunk that is cut is positive. -/
structure ChunkSizes (maxBatchTokens draftingSlots : Nat)
    (chunkEndAlignment : Option ChunkEndAlignment) : Prop where
  budget : draftingSlots < maxBatchTokens
  quantum : ∀ alignment ∈ chunkEndAlignment,
    alignment.quantum + draftingSlots ≤ maxBatchTokens ∨ maxBatchTokens < alignment.quantum

theorem checkpointAligned_pos {start prefillEnd chunkTokens maxChunkTokens : Nat}
    {alignment : ChunkEndAlignment} (hchunk : 0 < chunkTokens) (hstart : start < prefillEnd)
    (hfloored : start < alignment.floored start prefillEnd (start + chunkTokens) maxChunkTokens) :
    0 < checkpointAlignedChunkTokens start prefillEnd chunkTokens alignment maxChunkTokens := by
  rw [checkpointAligned_eq, if_neg (by omega)]
  obtain ⟨-, hkind, -⟩ := firstStop_spec (alignment.stops start prefillEnd) start
    (alignment.floored start prefillEnd (start + chunkTokens) maxChunkTokens)
  rcases hkind with hend | ⟨-, hahead⟩
  · omega
  · omega

theorem nextChunk_pos {context : ResolvedPrefillContext} {maxBatchTokens draftingSlots : Nat}
    {chunkEndAlignment : Option ChunkEndAlignment}
    (hsizes : ChunkSizes maxBatchTokens draftingSlots chunkEndAlignment)
    (hquantum : ∀ alignment ∈ chunkEndAlignment, alignment.quantum > 0)
    (hleft : 0 < context.remainingPrefillTokens) :
    0 < nextChunkTokens context (maxBatchTokens - draftingSlots) chunkEndAlignment
      maxBatchTokens := by
  have hbudget := hsizes.budget
  unfold nextChunkTokens
  cases chunkEndAlignment with
  | none =>
    show 0 < min context.remainingPrefillTokens (maxBatchTokens - draftingSlots)
    omega
  | some alignment =>
    apply checkpointAligned_pos
    · omega
    · omega
    · generalize context.activeChunk.1 = start
      unfold ChunkEndAlignment.floored
      split
      · next hfloor =>
        obtain ⟨hshort, hfloor⟩ := hfloor
        rcases hfloor with hahead | hnarrow
        · exact hahead
        · -- a block within the cap is within the chunk, which then reaches the next boundary
          have hfits := (hsizes.quantum alignment rfl).resolve_right (Nat.not_lt.mpr hnarrow)
          have hblock := Nat.lt_div_mul_add (a := start +
            min context.remainingPrefillTokens (maxBatchTokens - draftingSlots))
            (hquantum alignment rfl)
          omega
      · omega

variable {P : Type} [PendingOrderPolicy P] {acc : KvAccounting} {n : Nat}
  {cfg : ChunkedPrefillConfig n} {w w' : ChunkedPrefillWorker P acc n} {r : RequestId} {p : Fin n}

/-! ## The turns of a batch -/

/-- A turn of the scheduling loops, whatever budgets and windows it was given. -/
def Scheduling (cfg : ChunkedPrefillConfig n) (w w' : ChunkedPrefillWorker P acc n) : Prop :=
  ∃ budgets slots budgets' slots', FormStep cfg ⟨w, budgets, slots⟩ ⟨w', budgets', slots'⟩

theorem scheduling_path {s s' : Forming P acc n} (h : ReflTransGen (FormStep cfg) s s') :
    ReflTransGen (Scheduling cfg) s.worker s'.worker :=
  h.lift Forming.worker fun s s' hstep => ⟨s.budgets, s.slots, s'.budgets, s'.slots, hstep⟩

theorem scheduling_rule {J : ChunkedPrefillWorker P acc n → Prop}
    (hJ : ∀ w w', Scheduling cfg w w' → Located cfg w → Paced w → J w → J w')
    (hpath : ReflTransGen (Scheduling cfg) w w') (hlocated : Located cfg w) (hpaced : Paced w)
    (hw : J w) : Located cfg w' ∧ Paced w' ∧ J w' := by
  induction hpath with
  | refl => exact ⟨hlocated, hpaced, hw⟩
  | tail _ hturn ih =>
    obtain ⟨hat, hkept, hj⟩ := ih
    have hnext := hJ _ _ hturn hat hkept hj
    obtain ⟨budgets, slots, budgets', slots', hstep⟩ := hturn
    exact ⟨hstep.located hat, paced_forming hstep hat hkept, hnext⟩

/-- The heads of some partitions, one partition after the other. -/
def admitAll (cfg : ChunkedPrefillConfig n) (budgets : Fin n → Nat) (slots : Fin n → Option Nat)
    (w : ChunkedPrefillWorker P acc n) (partitions : List (Fin n)) :
    Except String (ChunkedPrefillWorker P acc n) :=
  partitions.foldlM
    (fun w p => admitFresh cfg p (len (w.policies p) + 1) w (budgets p) (slots p)) w

theorem admitFresh_scheduling {fuel budget : Nat} {slot : Option Nat}
    (h : admitFresh cfg p fuel w budget slot = .ok w') : ReflTransGen (Scheduling cfg) w w' := by
  obtain ⟨budgets', slots', hpath, -⟩ := @admitFresh_path P _ acc n cfg w w' p fuel budget slot h
    (fun _ => budget) (fun _ => slot) rfl rfl
  exact scheduling_path hpath

theorem admitAll_path {budgets : Fin n → Nat} {slots : Fin n → Option Nat}
    {partitions : List (Fin n)} (h : admitAll cfg budgets slots w partitions = .ok w') :
    ReflTransGen (Scheduling cfg) w w' := by
  refine Run.tryRun_induction
    (I := fun _ (state : ChunkedPrefillWorker P acc n) => ReflTransGen (Scheduling cfg) w state)
    ?_ .refl h
  intro q rest state state' hpath hturn
  exact hpath.trans (admitFresh_scheduling hturn)

/-- The state in which the batch comes to the pending set of the partition after `before`. -/
def headTurn (cfg : ChunkedPrefillConfig n) (w : ChunkedPrefillWorker P acc n)
    (before : List (Fin n)) : Except String (ChunkedPrefillWorker P acc n) := do
  let planned := { w with batchPlan := fun _ => true }
  let (scheduled, budgets) ←
    forPartitions (scheduleStartedOn cfg) (planned, planned.remainingBudget cfg)
  admitAll cfg budgets (planned.futureDecodeSlots cfg) scheduled before

variable {hasBatch : Bool}

theorem formBatch_quiet (hquiet : w.anyLiveDecode = false)
    (hform : w.formBatch cfg = .ok (w', hasBatch)) :
    ∃ scheduled : ChunkedPrefillWorker P acc n,
      ({ w with batchPlan := fun _ => true } : ChunkedPrefillWorker P acc n).schedulePrefills cfg
        false = .ok scheduled ∧
      ∀ p, (scheduled.store.partitions p).prefillAdmits ≠ [] →
        w'.kv = scheduled.kv ∧ w'.startedPrefills = scheduled.startedPrefills ∧
          hasBatch = true := by
  simp only [formBatch, bind_eq_ok_iff] at hform
  obtain ⟨⟨prepared, retracted⟩, hbefore, scheduled, hscheduled, ⟨ready, hadDecode⟩, hafter,
    hform⟩ := hform
  simp only [pure, Except.pure, Except.ok.injEq, Prod.mk.injEq] at hform
  obtain ⟨rfl, rfl⟩ := hform
  have hsame : prepared = { w with batchPlan := fun _ => true } ∧ retracted = false := by
    have hlive : ({ w with batchPlan := fun _ => true } :
        ChunkedPrefillWorker P acc n).anyLiveDecode = false := hquiet
    simp only [prepareBeforeAdmission, hlive, Bool.and_false, Bool.false_eq_true, if_false]
      at hbefore
    split at hbefore
    all_goals
      obtain ⟨rfl, rfl⟩ := Prod.ext_iff.mp (Except.ok.inj hbefore)
      exact ⟨rfl, rfl⟩
  obtain ⟨rfl, rfl⟩ := hsame
  refine ⟨scheduled, hscheduled, ?_⟩
  intro p hp
  have hprefill : ((List.finRange n).any fun p => scheduled.hasPrefillAdmit p) = true := by
    rw [List.any_eq_true]
    refine ⟨p, List.mem_finRange p, ?_⟩
    simpa [hasPrefillAdmit] using hp
  have hready : ready = { scheduled with
      batchPlan := fun p => cfg.mixesPrefillWithDecode || !scheduled.hasPrefillAdmit p } := by
    simp only [prepareDecodeOnly, hprefill, Bool.not_true, Bool.and_false, Bool.false_and,
      Bool.false_eq_true, if_false] at hafter
    split at hafter
    all_goals exact (Prod.ext_iff.mp (Except.ok.inj hafter)).1.symm
  rw [hready]
  refine ⟨?_, ?_, ?_⟩
  · unfold resetRatioWhenIdle
    split
    · split <;> rfl
    · rfl
  · unfold resetRatioWhenIdle
    split
    · split <;> rfl
    · rfl
  · rw [hprefill, Bool.or_true]

omit [PendingOrderPolicy P] in
theorem liveDecodeCount_of_quiet (h : w.anyLiveDecode = false) (p : Fin n) :
    w.liveDecodeCount p = 0 := by
  have hp := List.any_eq_false.mp h p (List.mem_finRange p)
  simpa [hasLiveDecode, ResidentPartitionState.hasLiveDecode, ChunkedPrefillWorker.liveDecodeCount,
    KvCacheStore.liveDecodeCount, ResidentPartitionState.liveDecodeCount] using hp

omit [PendingOrderPolicy P] in
/-- Without a live decode the whole cap is there for prefills. -/
theorem remainingBudget_of_quiet (h : w.anyLiveDecode = false) (p : Fin n) :
    w.remainingBudget cfg p = cfg.maxBatchTokens := by
  unfold remainingBudget
  split
  · rw [liveDecodeCount_of_quiet h, Nat.zero_mul, Nat.sub_zero]
  · rfl

/-! ## The first started prompt -/

/-- The next chunk of the first started prompt of a partition, which is positive. -/
structure FirstChunk (cfg : ChunkedPrefillConfig n) (p : Fin n) (first : AdmissionCandidate)
    (rest : List AdmissionCandidate) (w w' : ChunkedPrefillWorker P acc n) : Prop where
  started : w.startedPrefills p = first :: rest
  turn : Scheduling cfg w w'
  chunk : ∃ context tokens, (w.store.ledger.viewOf first.requestId).context = some context ∧
    context.activeChunkTokens = 0 ∧ 0 < tokens ∧ tokens ≤ context.remainingPrefillTokens ∧
    w' = { w.issue (.schedulePrefillChunk first.requestId p tokens) with
      startedPrefills := Function.update w.startedPrefills p
        ((if tokens < context.remainingPrefillTokens then [first] else []) ++ rest) }

theorem scheduleStartedOn_first {first : AdmissionCandidate} {rest : List AdmissionCandidate}
    {budgets budgets' : Fin n → Nat}
    (hsizes : ChunkSizes cfg.maxBatchTokens cfg.draftingSlots cfg.chunkEndAlignment)
    (hlocated : Located cfg w) (hpaced : Paced w)
    (hstarted : w.startedPrefills p = first :: rest)
    (hidle : (w.store.partitions p).prefillAdmits = [])
    (hbudget : budgets p = cfg.maxBatchTokens)
    (h : scheduleStartedOn cfg (w, budgets) p = .ok (w', budgets')) :
    ∃ v, FirstChunk cfg p first rest w v ∧ ReflTransGen (Scheduling cfg) v w' := by
  simp only [scheduleStartedOn, bind_eq_ok_iff, hstarted, hbudget, scheduleStarted,
    resolvedPrefillContext, required_eq_ok_iff] at h
  obtain ⟨⟨scheduled, left, kept⟩, ⟨context, hcontext, h⟩, hend⟩ := h
  simp only [pure, Except.pure, Except.ok.injEq, Prod.mk.injEq] at hend
  obtain ⟨rfl, -⟩ := hend
  have howed := hpaced.owing p first (by simp [hstarted]) context hcontext
  have hleft : 0 < context.remainingPrefillTokens := by
    rw [ResolvedPrefillContext.remainingPrefillTokens]
    omega
  have hpositive := nextChunk_pos hsizes cfg.quantum_pos hleft
  have hfit := (nextChunkTokens_le context (cfg.maxBatchTokens - cfg.draftingSlots)
    cfg.chunkEndAlignment cfg.maxBatchTokens).trans (Nat.min_le_left _ _)
  rw [if_neg (Nat.ne_of_gt hpositive)] at h
  simp only [bind_eq_ok_iff] at h
  obtain ⟨spent, hspent, ⟨final, left', kept'⟩, hfinal, h⟩ := h
  simp only [pure, Except.pure, Except.ok.injEq, Prod.mk.injEq] at h
  obtain ⟨rfl, rfl, rfl⟩ := h
  generalize hsize : nextChunkTokens context (cfg.maxBatchTokens - cfg.draftingSlots)
    cfg.chunkEndAlignment cfg.maxBatchTokens = tokens at *
  have hrest : Unscheduled w p (first :: rest) := by
    refine ⟨hstarted ▸ hlocated.nodup_started p, ?_⟩
    intro c _ hmem
    rw [hidle] at hmem
    cases hmem
  have hfresh := hrest.fresh first List.mem_cons_self
  have hactive := hpaced.resting p first.requestId hfresh context
    (hlocated.at_started (by simp [hstarted])).phase hcontext
  have hhead : w.startedPrefills p = [] ++ first :: rest := hstarted
  have hstep : FormStep cfg ⟨w, budgets, fun _ => none⟩ _ :=
    .chunk hbudget hhead hfresh hcontext hsize
      (Nat.ne_of_gt hpositive) hspent
  obtain ⟨hpath, -, -⟩ := scheduleStarted_path budgets (fun _ => none) hfinal (hrest.scheduled _)
    (if tokens < context.remainingPrefillTokens then [first] else [])
  refine ⟨_, ⟨hstarted, ⟨_, _, _, _, hstep⟩, context, tokens, hcontext, hactive, hpositive, hfit,
    rfl⟩, ?_⟩
  have hkept : (if tokens < context.remainingPrefillTokens then first :: kept' else kept') =
      (if tokens < context.remainingPrefillTokens then [first] else []) ++ kept' := by
    split <;> rfl
  rw [hkept]
  exact scheduling_path hpath

theorem scheduleStartedOn_frame {budgets budgets' : Fin n → Nat} (hlocated : Located cfg w)
    (hidle : (w.store.partitions p).prefillAdmits = [])
    (h : scheduleStartedOn cfg (w, budgets) p = .ok (w', budgets')) {q : Fin n} (hq : q ≠ p) :
    w'.startedPrefills q = w.startedPrefills q ∧ budgets' q = budgets q := by
  simp only [scheduleStartedOn, bind_eq_ok_iff] at h
  obtain ⟨⟨scheduled, left, kept⟩, hscheduled, h⟩ := h
  simp only [pure, Except.pure, Except.ok.injEq, Prod.mk.injEq] at h
  obtain ⟨rfl, rfl⟩ := h
  have hrest : Unscheduled w p (w.startedPrefills p) := by
    refine ⟨hlocated.nodup_started p, ?_⟩
    intro c _ hmem
    rw [hidle] at hmem
    cases hmem
  obtain ⟨-, -, hstarted⟩ := scheduleStarted_path budgets (fun _ => none) hscheduled hrest []
  refine ⟨?_, Function.update_of_ne hq ..⟩
  exact (Function.update_of_ne hq ..).trans (congrFun hstarted q)

theorem first_scheduled {first : AdmissionCandidate} {rest : List AdmissionCandidate}
    (hsizes : ChunkSizes cfg.maxBatchTokens cfg.draftingSlots cfg.chunkEndAlignment)
    (hlocated : Located cfg w) (hidle : Idle w) (hpaced : Paced w)
    (hquiet : w.anyLiveDecode = false) (hstarted : w.startedPrefills p = first :: rest)
    (hform : w.formBatch cfg = .ok (w', hasBatch)) :
    ∃ u v scheduled, ReflTransGen (Scheduling cfg) { w with batchPlan := fun _ => true } u ∧
      FirstChunk cfg p first rest u v ∧ ReflTransGen (Scheduling cfg) v scheduled ∧
      ∀ q, (scheduled.store.partitions q).prefillAdmits ≠ [] →
        w'.kv = scheduled.kv ∧ w'.startedPrefills = scheduled.startedPrefills ∧
          hasBatch = true := by
  obtain ⟨scheduled, hscheduled, hend⟩ := formBatch_quiet hquiet hform
  generalize hplanned : ({ w with batchPlan := fun _ => true } :
    ChunkedPrefillWorker P acc n) = planned at *
  have hat : Located cfg planned := hplanned ▸ hlocated.of_eq rfl rfl rfl rfl rfl
  have hkept : Paced planned := hplanned ▸ ⟨hpaced.tiled, hpaced.owing, hpaced.resting⟩
  have hfree : Idle planned := hplanned ▸ hidle
  have hfirst : planned.startedPrefills p = first :: rest := hplanned ▸ hstarted
  have hcap : ∀ q, planned.remainingBudget cfg q = cfg.maxBatchTokens := by
    intro q
    rw [← hplanned]
    exact remainingBudget_of_quiet hquiet q
  simp only [schedulePrefills, bind_eq_ok_iff, Bool.false_eq_true, if_false] at hscheduled
  obtain ⟨⟨started, budgets⟩, hstartedAll, hfresh⟩ := hscheduled
  -- the invariant over the partitions: those to come are as planned, `p` has had its first chunk
  have hall := Run.tryRun_induction
    (I := fun rest' (state : ChunkedPrefillWorker P acc n × (Fin n → Nat)) =>
      ReflTransGen (Scheduling cfg) planned state.1 ∧ rest'.Nodup ∧
      (∀ q ∈ rest', (state.1.store.partitions q).prefillAdmits = [] ∧
        state.1.startedPrefills q = planned.startedPrefills q ∧
        state.2 q = cfg.maxBatchTokens) ∧
      (p ∉ rest' → ∃ u v, ReflTransGen (Scheduling cfg) planned u ∧
        FirstChunk cfg p first rest u v ∧ ReflTransGen (Scheduling cfg) v state.1))
    (fun q rest' state state' hI hturn => by
      obtain ⟨hpath, hnodup, hwaiting, hdone⟩ := hI
      obtain ⟨hnew, hnodup⟩ := List.nodup_cons.mp hnodup
      obtain ⟨hq, hqstarted, hqbudget⟩ := hwaiting q List.mem_cons_self
      obtain ⟨hlocatedNow, hpacedNow, -⟩ := scheduling_rule (J := fun _ => True)
        (fun _ _ _ _ _ h => h) hpath hat hkept trivial
      obtain ⟨hturnPath, hother⟩ := scheduleStartedOn_path (fun _ => none) hlocatedNow hq hturn
      have hstepPath : ReflTransGen (Scheduling cfg) state.1 state'.1 := scheduling_path hturnPath
      refine ⟨hpath.trans hstepPath, hnodup, ?_, ?_⟩
      · intro t ht
        have hne : t ≠ q := fun heq => hnew (heq ▸ ht)
        obtain ⟨hadmits, hsame, hbudget⟩ := hwaiting t (List.mem_cons_of_mem _ ht)
        obtain ⟨hstartedSame, hbudgetSame⟩ := scheduleStartedOn_frame hlocatedNow hq hturn hne
        exact ⟨(hother t hne).trans hadmits, hstartedSame.trans hsame, hbudgetSame.trans hbudget⟩
      · intro hp
        by_cases hpq : p = q
        · subst hpq
          obtain ⟨v, hchunk, hafter⟩ := scheduleStartedOn_first hsizes hlocatedNow hpacedNow
            (hqstarted.trans hfirst) hq hqbudget hturn
          exact ⟨state.1, v, hpath, hchunk, hafter⟩
        · obtain ⟨u, v, hbefore, hchunk, hafter⟩ := hdone (by
            rw [List.mem_cons]
            exact not_or.mpr ⟨hpq, hp⟩)
          exact ⟨u, v, hbefore, hchunk, hafter.trans hstepPath⟩)
    ⟨.refl, List.nodup_finRange n, fun q _ => ⟨hfree q, rfl, hcap q⟩,
      fun hp => absurd (List.mem_finRange p) hp⟩ hstartedAll
  obtain ⟨-, -, -, hdone⟩ := hall
  obtain ⟨u, v, hbefore, hchunk, hafter⟩ := hdone List.not_mem_nil
  exact ⟨u, v, scheduled, hbefore, hchunk, hafter.trans (admitAll_path hfresh), hend⟩

/-! ## The head of a pending set -/

/-- A head with something to compute that its partition has room for. -/
structure HeadFits (cfg : ChunkedPrefillConfig n) (w : ChunkedPrefillWorker P acc n) (p : Fin n)
    (c : AdmissionCandidate) : Prop where
  head : peek (w.policies p) = some c
  nonempty : 0 < c.freshPromptTokens + c.sessionInput.declaredPrefixTokens
  fits : admissionFits cfg w p (admissionFootprint cfg acc
    (w.store.previewPrefillContext p c.freshPromptTokens c.sessionInput) c) = true

theorem remaining_new_pos {freshPromptTokens : Nat} {input : SessionInput} (resident : Nat)
    (h : 0 < freshPromptTokens + input.declaredPrefixTokens) :
    0 < (ResolvedPrefillContext.new input resident freshPromptTokens).remainingPrefillTokens := by
  simp only [ResolvedPrefillContext.remainingPrefillTokens, ResolvedPrefillContext.new]
  split
  · omega
  · omega

variable {c : AdmissionCandidate}

theorem gateHead_fits {slots : Option Nat}
    (hsizes : ChunkSizes cfg.maxBatchTokens cfg.draftingSlots cfg.chunkEndAlignment)
    (hfits : HeadFits cfg w p c) (hslots : slots ≠ some 0) :
    ∃ a, gateHead cfg w p (cfg.maxBatchTokens - cfg.draftingSlots) slots = some a ∧
      a.candidate = c := by
  have hroom := hfits.fits
  have hleft : 0 < (w.store.previewPrefillContext p c.freshPromptTokens
      c.sessionInput).remainingPrefillTokens := remaining_new_pos _ hfits.nonempty
  generalize hresolved : w.store.previewPrefillContext p c.freshPromptTokens c.sessionInput =
    resolved at hroom hleft
  have hpositive := nextChunk_pos hsizes cfg.quantum_pos hleft
  refine ⟨⟨c, resolved, nextChunkTokens resolved (cfg.maxBatchTokens - cfg.draftingSlots)
    cfg.chunkEndAlignment cfg.maxBatchTokens, admissionFootprint cfg acc resolved c⟩, ?_, rfl⟩
  simp [gateHead, hfits.head, hresolved, hslots, Nat.ne_of_gt hpositive, hroom]

omit [PendingOrderPolicy P] in
/-- A window is left where one fits the cap and nothing decodes or is started. -/
theorem futureDecodeSlots_ne_zero (hwindow : cfg.queryWidth ≤ 1 ∨
      cfg.decodeBudget ≤ cfg.maxBatchTokens) (hquiet : w.anyLiveDecode = false)
    (hnone : w.startedPrefills p = []) : w.futureDecodeSlots cfg p ≠ some 0 := by
  unfold futureDecodeSlots
  split
  · next hwidth =>
    have hfit := hwindow.resolve_left (Nat.not_le.mpr hwidth)
    have hpositive : 0 < cfg.decodeBudget := Nat.add_pos_left (queryWidth_pos cfg) _
    have hone := Nat.div_pos hfit hpositive
    rw [liveDecodeCount_of_quiet hquiet, hnone]
    simp only [List.filter_nil, List.length_nil, Nat.sub_zero, ne_eq, Option.some.injEq]
    omega
  · exact Option.some_ne_none 0 ∘ Eq.symm

/-! ## Chunks stay scheduled -/

/-- Every chunk in the iteration is positive. -/
def ChunksPositive (w : ChunkedPrefillWorker P acc n) : Prop :=
  ∀ p, ∀ r ∈ (w.store.partitions p).prefillAdmits, 0 < w.chunkTokensOf r

theorem chunksPositive_scheduling (h : Scheduling cfg w w') (hlocated : Located cfg w)
    (hpositive : ChunksPositive w) : ChunksPositive w' := by
  obtain ⟨budgets, slots, budgets', slots', hstep⟩ := h
  rcases hstep.schedules hlocated with ⟨p, hsame⟩ | ⟨p, r, tokens, hschedules⟩
  · obtain rfl : w' = w.refreshPolicy p := congrArg Forming.worker hsame
    exact hpositive
  · intro q t ht
    have hchunk : w'.chunkTokensOf t = if t = r then tokens else w.chunkTokensOf t :=
      hschedules.chunk t
    have hadmits : (w'.store.partitions q).prefillAdmits =
        (w.store.partitions q).prefillAdmits ++ if q = p then [r] else [] := hschedules.admits q
    rw [hchunk]
    split
    · exact hschedules.positive
    · next hne =>
      rw [hadmits, List.mem_append] at ht
      rcases ht with hold | hadded
      · exact hpositive q t hold
      · split at hadded
        · exact absurd (List.mem_singleton.mp hadded) hne
        · cases hadded

theorem admits_scheduling (h : Scheduling cfg w w') (hlocated : Located cfg w)
    (hr : r ∈ (w.store.partitions p).prefillAdmits) :
    r ∈ (w'.store.partitions p).prefillAdmits := by
  obtain ⟨budgets, slots, budgets', slots', hstep⟩ := h
  rcases hstep.schedules hlocated with ⟨q, hsame⟩ | ⟨q, t, tokens, hschedules⟩
  · obtain rfl : w' = w.refreshPolicy q := congrArg Forming.worker hsame
    exact hr
  · have hadmits : (w'.store.partitions p).prefillAdmits =
        (w.store.partitions p).prefillAdmits ++ if p = q then [t] else [] := hschedules.admits p
    rw [hadmits]
    exact List.mem_append_left _ hr

/-- A request has a positive chunk in the iteration of a partition. -/
structure Carries (w : ChunkedPrefillWorker P acc n) (p : Fin n) (r : RequestId) : Prop where
  admitted : r ∈ (w.store.partitions p).prefillAdmits
  positive : 0 < w.chunkTokensOf r

theorem carries_of_path {u scheduled : ChunkedPrefillWorker P acc n} (hidle : Idle w)
    (hlocated : Located cfg w) (hpaced : Paced w)
    (hbefore : ReflTransGen (Scheduling cfg) w u)
    (hr : r ∈ (u.store.partitions p).prefillAdmits)
    (hafter : ReflTransGen (Scheduling cfg) u scheduled) : Carries scheduled p r := by
  have hnone : ChunksPositive w := by
    intro q t ht
    rw [hidle q] at ht
    cases ht
  obtain ⟨hlocatedU, hpacedU, hpositiveU⟩ := scheduling_rule
    (fun _ _ hturn hat _ h => chunksPositive_scheduling hturn hat h) hbefore hlocated hpaced hnone
  obtain ⟨-, -, hpositive, hin⟩ := scheduling_rule
    (J := fun v => ChunksPositive v ∧ r ∈ (v.store.partitions p).prefillAdmits)
    (fun _ _ hturn hat _ h =>
      ⟨chunksPositive_scheduling hturn hat h.1, admits_scheduling hturn hat h.2⟩)
    hafter hlocatedU hpacedU ⟨hpositiveU, hr⟩
  exact ⟨hin, hpositive p r hin⟩

omit [PendingOrderPolicy P] in
theorem Carries.congr (h : Carries w p r) (hkv : w'.kv = w.kv) : Carries w' p r := by
  have hstore : w'.store = w.store := congrArg IssuedStore.store hkv
  refine ⟨hstore ▸ h.admitted, ?_⟩
  have hchunk : w'.chunkTokensOf r = w.chunkTokensOf r := by
    unfold chunkTokensOf
    rw [hstore]
  rw [hchunk]
  exact h.positive

theorem FirstChunk.admits {first : AdmissionCandidate} {rest : List AdmissionCandidate}
    (h : FirstChunk cfg p first rest w w') :
    first.requestId ∈ (w'.store.partitions p).prefillAdmits := by
  obtain ⟨context, tokens, -, -, -, -, rfl⟩ := h.chunk
  refine (admits_schedulePrefillChunk w.store first.requestId p p tokens).symm ▸ ?_
  rw [if_pos rfl]
  exact List.mem_append_right _ (List.mem_singleton_self _)

theorem started_carried {first : AdmissionCandidate} {rest : List AdmissionCandidate}
    (hsizes : ChunkSizes cfg.maxBatchTokens cfg.draftingSlots cfg.chunkEndAlignment)
    (hlocated : Located cfg w) (hidle : Idle w) (hpaced : Paced w)
    (hquiet : w.anyLiveDecode = false) (hstarted : w.startedPrefills p = first :: rest)
    (hform : w.formBatch cfg = .ok (w', hasBatch)) : Carries w' p first.requestId := by
  obtain ⟨u, v, scheduled, hbefore, hchunk, hafter, hend⟩ :=
    first_scheduled hsizes hlocated hidle hpaced hquiet hstarted hform
  have hcarries : Carries scheduled p first.requestId :=
    carries_of_path (w := { w with batchPlan := fun _ => true }) hidle
      (hlocated.of_eq rfl rfl rfl rfl rfl) ⟨hpaced.tiled, hpaced.owing, hpaced.resting⟩
      (hbefore.tail hchunk.turn) hchunk.admits hafter
  exact hcarries.congr (hend p (List.ne_nil_of_mem hcarries.admitted)).1

/-- The head of a pending set enters with its first chunk. -/
structure HeadChunk (cfg : ChunkedPrefillConfig n) (p : Fin n) (c : AdmissionCandidate)
    (w w' : ChunkedPrefillWorker P acc n) : Prop where
  turn : Scheduling cfg w w'
  enters : ∃ a budget slots, gateHead cfg w p budget slots = some a ∧
    w.admitHead p a = .ok w' ∧ a.candidate = c

theorem HeadChunk.admits (h : HeadChunk cfg p c w w') :
    c.requestId ∈ (w'.store.partitions p).prefillAdmits := by
  obtain ⟨a, budget, slots, -, hentered, hcandidate⟩ := h.enters
  rw [admits_admitHead hentered, if_pos rfl, hcandidate]
  exact List.mem_append_right _ (List.mem_singleton_self _)

section

variable {before after : List (Fin n)} {turn : ChunkedPrefillWorker P acc n}
  (hsizes : ChunkSizes cfg.maxBatchTokens cfg.draftingSlots cfg.chunkEndAlignment)
  (hwindow : cfg.queryWidth ≤ 1 ∨ cfg.decodeBudget ≤ cfg.maxBatchTokens)
  (hlocated : Located cfg w) (hidle : Idle w) (hpaced : Paced w)
  (hquiet : w.anyLiveDecode = false) (hnone : w.startedPrefills p = [])
  (hsplit : List.finRange n = before ++ p :: after) (hturn : headTurn cfg w before = .ok turn)
  (hfits : HeadFits cfg (turn.refreshPolicy p) p c) (hform : w.formBatch cfg = .ok (w', hasBatch))

include before after turn hsizes hwindow hlocated hidle hpaced hquiet hnone hsplit hturn hfits hform

theorem head_scheduled :
    ∃ u v scheduled, ReflTransGen (Scheduling cfg) { w with batchPlan := fun _ => true } u ∧
      HeadChunk cfg p c u v ∧ ReflTransGen (Scheduling cfg) v scheduled ∧
      ∀ q, (scheduled.store.partitions q).prefillAdmits ≠ [] →
        w'.kv = scheduled.kv ∧ w'.startedPrefills = scheduled.startedPrefills ∧
          hasBatch = true := by
  obtain ⟨scheduled, hscheduled, hend⟩ := formBatch_quiet hquiet hform
  simp only [headTurn, bind_eq_ok_iff] at hturn
  generalize hplanned : ({ w with batchPlan := fun _ => true } :
    ChunkedPrefillWorker P acc n) = planned at *
  have hat : Located cfg planned := hplanned ▸ hlocated.of_eq rfl rfl rfl rfl rfl
  have hkept : Paced planned := hplanned ▸ ⟨hpaced.tiled, hpaced.owing, hpaced.resting⟩
  have hfree : Idle planned := hplanned ▸ hidle
  have hempty : planned.startedPrefills p = [] := hplanned ▸ hnone
  have hcap : planned.remainingBudget cfg p = cfg.maxBatchTokens := by
    rw [← hplanned]
    exact remainingBudget_of_quiet hquiet p
  have hslots : planned.futureDecodeSlots cfg p ≠ some 0 := by
    apply futureDecodeSlots_ne_zero hwindow
    · rw [← hplanned]
      exact hquiet
    · exact hempty
  simp only [schedulePrefills, bind_eq_ok_iff, Bool.false_eq_true, if_false] at hscheduled
  obtain ⟨⟨started, budgets⟩, hstartedAll, hfresh⟩ := hscheduled
  obtain ⟨⟨started', budgets'⟩, hstartedAll', hadmitted⟩ := hturn
  obtain ⟨rfl, rfl⟩ : started' = started ∧ budgets' = budgets :=
    Prod.mk.injEq .. ▸ Except.ok.inj (hstartedAll'.symm.trans hstartedAll)
  have hall := Run.tryRun_induction
    (I := fun rest (state : ChunkedPrefillWorker P acc n × (Fin n → Nat)) =>
      ReflTransGen (Scheduling cfg) planned state.1 ∧ rest.Nodup ∧
      (∀ q ∈ rest, (state.1.store.partitions q).prefillAdmits = []) ∧
      state.1.startedPrefills p = [] ∧ state.2 p = cfg.maxBatchTokens)
    (fun q rest state state' hI hstep => by
      obtain ⟨hpath, hnodup, hwaiting, hstartedP, hbudgetP⟩ := hI
      obtain ⟨hnew, hnodup⟩ := List.nodup_cons.mp hnodup
      have hq := hwaiting q List.mem_cons_self
      obtain ⟨hlocatedNow, -, -⟩ := scheduling_rule (J := fun _ => True)
        (fun _ _ _ _ _ h => h) hpath hat hkept trivial
      obtain ⟨hstepPath, hother⟩ := scheduleStartedOn_path (fun _ => none) hlocatedNow hq hstep
      refine ⟨hpath.trans (scheduling_path hstepPath), hnodup, ?_, ?_⟩
      · intro t ht
        have hne : t ≠ q := fun heq => hnew (heq ▸ ht)
        exact (hother t hne).trans (hwaiting t (List.mem_cons_of_mem _ ht))
      · by_cases hpq : p = q
        · subst hpq
          simp only [scheduleStartedOn, hstartedP, scheduleStarted, bind_eq_ok_iff,
            Except.ok.injEq] at hstep
          obtain ⟨-, rfl, hstep⟩ := hstep
          simp only [pure, Except.pure, Except.ok.injEq] at hstep
          rw [← hstep]
          exact ⟨Function.update_self .., (Function.update_self ..).trans hbudgetP⟩
        · obtain ⟨hstartedSame, hbudgetSame⟩ := scheduleStartedOn_frame hlocatedNow hq hstep hpq
          exact ⟨hstartedSame.trans hstartedP, hbudgetSame.trans hbudgetP⟩)
    ⟨.refl, List.nodup_finRange n, fun q _ => hfree q, hempty, hcap⟩ hstartedAll
  obtain ⟨hstartedPath, -, -, -, hleft⟩ := hall
  have hbudget : budgets' p = cfg.maxBatchTokens := hleft
  -- the partitions before, the head's own turn, the partitions after
  have hrun : admitAll cfg budgets' (planned.futureDecodeSlots cfg) started'
      (before ++ p :: after) = .ok scheduled := hsplit ▸ hfresh
  rw [admitAll, List.foldlM_append] at hrun
  simp only [bind_eq_ok_iff, List.foldlM_cons] at hrun
  obtain ⟨turn', hbefore, admitted, hown, hafter⟩ := hrun
  obtain rfl : turn' = turn := Except.ok.inj (hbefore.symm.trans hadmitted)
  have hturnPath := hstartedPath.trans (admitAll_path hadmitted)
  rw [hbudget] at hown
  simp only [admitFresh, if_pos hsizes.budget, bind_eq_ok_iff] at hown
  obtain ⟨chunkBudget, hroom, hown⟩ := hown
  obtain rfl : chunkBudget = cfg.maxBatchTokens - cfg.draftingSlots := by
    have hspent := spend_eq_ok_iff.mp hroom
    omega
  obtain ⟨a, hgate, hcandidate⟩ := gateHead_fits hsizes hfits hslots
  rw [hgate] at hown
  simp only [bind_eq_ok_iff] at hown
  obtain ⟨slots, hclaimed, entered, hentered, left, hspent, hown⟩ := hown
  have hrefresh : Scheduling cfg turn' (turn'.refreshPolicy p) :=
    ⟨fun _ => 0, fun _ => none, _, _, .refresh p⟩
  have hentering : Scheduling cfg (turn'.refreshPolicy p) entered :=
    ⟨fun _ => cfg.maxBatchTokens, fun _ => planned.futureDecodeSlots cfg p, _, _,
      .admitted rfl rfl hroom hgate hclaimed hentered hspent⟩
  exact ⟨_, entered, scheduled, hturnPath.tail hrefresh, ⟨hentering, a, _, _, hgate, hentered,
    hcandidate⟩, (admitFresh_scheduling hown).trans (admitAll_path hafter), hend⟩

theorem head_carried : Carries w' p c.requestId := by
  obtain ⟨u, v, scheduled, hbefore, hchunk, hafter, hend⟩ :=
    head_scheduled hsizes hwindow hlocated hidle hpaced hquiet hnone hsplit hturn hfits hform
  have hcarries : Carries scheduled p c.requestId :=
    carries_of_path (w := { w with batchPlan := fun _ => true }) hidle
      (hlocated.of_eq rfl rfl rfl rfl rfl) ⟨hpaced.tiled, hpaced.owing, hpaced.resting⟩
      (hbefore.tail hchunk.turn) hchunk.admits hafter
  exact hcarries.congr (hend p (List.ne_nil_of_mem hcarries.admitted)).1

end

end ServingSim
