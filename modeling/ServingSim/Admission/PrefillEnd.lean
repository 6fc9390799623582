import ServingSim.Admission.ChunkProgress

/-
  Every prefill that is in progress comes to its end.

  A started prompt waits for the ones started before it on its partition, and each of
  them owes the tokens of its prefill that are not scheduled yet. A batch without decodes
  schedules the first of them, so what they owe together falls with every batch, and a
  prompt that has waited that often has its last chunk.

  What is proved:
    1. `chunk_scheduling_progresses`, `chunk_scheduling_stalls` — nothing stalls where the
       sizes fit, and a block that no chunk can fill stalls its prompt.
-/

namespace ServingSim

open KeyedTotal PendingOrderPolicy KvCacheStore Relation ChunkedPrefillWorker

variable {P : Type} [PendingOrderPolicy P] {acc : KvAccounting} {n : Nat}
  {cfg : ChunkedPrefillConfig n} {w w' : ChunkedPrefillWorker P acc n} {r : RequestId} {p : Fin n}

/-! ## What is owed -/

/-- Tokens of a prefill that are not scheduled yet. -/
def owedTokens (w : ChunkedPrefillWorker P acc n) (r : RequestId) : Nat :=
  (w.store.ledger.viewOf r).context.elim 0 fun context =>
    context.prefillTokensToCompute - (context.processedPrefillTokens + context.activeChunkTokens)

def owedBy (w : ChunkedPrefillWorker P acc n) (prompts : List AdmissionCandidate) : Nat :=
  (prompts.map fun c => owedTokens w c.requestId).sum

/-- A chunk that ends the prefill is scheduled. -/
structure Ended (w : ChunkedPrefillWorker P acc n) (p : Fin n) (r : RequestId) : Prop where
  phase : w.store.phaseOf r = .chunked p
  reached : ∃ context, (w.store.ledger.viewOf r).context = some context ∧
    context.processedPrefillTokens + context.activeChunkTokens = context.prefillTokensToCompute

/-- A started prompt, with at most `k` tokens owed up to the end of its own prefill. -/
def Trails (w : ChunkedPrefillWorker P acc n) (p : Fin n) (c : AdmissionCandidate) (k : Nat) :
    Prop :=
  ∃ ahead behind, w.startedPrefills p = ahead ++ c :: behind ∧ owedBy w (ahead ++ [c]) ≤ k

section owed

variable {c d : AdmissionCandidate}

omit [PendingOrderPolicy P]

@[simp] theorem owedBy_nil : owedBy w [] = 0 := rfl

@[simp] theorem owedBy_cons (c : AdmissionCandidate) (prompts : List AdmissionCandidate) :
    owedBy w (c :: prompts) = owedTokens w c.requestId + owedBy w prompts := List.sum_cons

@[simp] theorem owedBy_append (prompts prompts' : List AdmissionCandidate) :
    owedBy w (prompts ++ prompts') = owedBy w prompts + owedBy w prompts' := by
  simp [owedBy]

theorem owedBy_congr {prompts : List AdmissionCandidate}
    (h : ∀ c ∈ prompts, owedTokens w' c.requestId = owedTokens w c.requestId) :
    owedBy w' prompts = owedBy w prompts := by
  unfold owedBy
  rw [List.map_congr_left h]

theorem owedBy_sublist {prompts prompts' : List AdmissionCandidate} (h : prompts.Sublist prompts') :
    owedBy w prompts ≤ owedBy w prompts' :=
  (h.map _).sum_le_sum fun _ _ => Nat.zero_le _

theorem Trails.mono {k k' : Nat} (h : Trails w p c k) (hk : k ≤ k') : Trails w p c k' := by
  obtain ⟨ahead, behind, hstarted, howed⟩ := h
  exact ⟨ahead, behind, hstarted, howed.trans hk⟩

theorem Trails.started {k : Nat} (h : Trails w p c k) : c ∈ w.startedPrefills p := by
  obtain ⟨ahead, behind, hstarted, -⟩ := h
  rw [hstarted]
  exact List.mem_append_right _ List.mem_cons_self

end owed

theorem owed_of_entries (h : w'.entriesOf r = w.entriesOf r) :
    owedTokens w' r = owedTokens w r := by
  have hview : w'.store.ledger.viewOf r = w.store.ledger.viewOf r := congrArg Entries.view h
  unfold owedTokens
  rw [hview]

/-- A prompt trails, or its prefill has its last chunk. -/
def Nears (w : ChunkedPrefillWorker P acc n) (p : Fin n) (c : AdmissionCandidate) (k : Nat) :
    Prop :=
  Ended w p c.requestId ∨ Trails w p c k

omit [PendingOrderPolicy P] in
theorem Owing.owed_pos (h : Owing w) {c : AdmissionCandidate} (hc : c ∈ w.startedPrefills p)
    {context : ResolvedPrefillContext}
    (hcontext : (w.store.ledger.viewOf c.requestId).context = some context) :
    0 < owedTokens w c.requestId := by
  have howed := h p c hc context hcontext
  unfold owedTokens
  rw [hcontext]
  show 0 < context.prefillTokensToCompute - _
  omega

variable {k : Nat}

theorem Trails.pos {c : AdmissionCandidate} (h : Trails w p c k)
    (hlocated : Located cfg w) (howing : Owing w) : 0 < k := by
  obtain ⟨-, context, hcontext, -⟩ := (hlocated.at_started h.started).progress
  have hpositive := howing.owed_pos h.started hcontext
  obtain ⟨ahead, behind, -, howed⟩ := h
  rw [owedBy_append, owedBy_cons, owedBy_nil] at howed
  omega

/-! ## A chunk -/

theorem places_of_append_eq {α : Type} {c d : α} {before after ahead behind : List α}
    (h : before ++ d :: after = ahead ++ c :: behind) :
    (d = c ∧ before = ahead ∧ after = behind) ∨
      (∃ between, ahead = before ++ d :: between ∧ after = between ++ c :: behind) ∨
      ∃ between, before = ahead ++ c :: between ∧ behind = between ++ d :: after := by
  rcases List.append_eq_append_iff.mp h with ⟨t, hahead, hd⟩ | ⟨t, hbefore, hc⟩
  · cases t with
    | nil =>
      obtain ⟨hdc, hafter⟩ := List.cons.inj hd
      exact .inl ⟨hdc, (hahead.trans (List.append_nil _)).symm, hafter⟩
    | cons e t =>
      obtain ⟨rfl, hafter⟩ := List.cons.inj hd
      exact .inr (.inl ⟨t, hahead, hafter⟩)
  · cases t with
    | nil =>
      obtain ⟨hcd, hbehind⟩ := List.cons.inj hc
      exact .inl ⟨hcd.symm, hbefore.trans (List.append_nil _), hbehind.symm⟩
    | cons e t =>
      obtain ⟨rfl, hbehind⟩ := List.cons.inj hc
      exact .inr (.inr ⟨t, hbefore, hbehind⟩)

theorem trails_chunk {c d : AdmissionCandidate} {before after : List AdmissionCandidate}
    {context : ResolvedPrefillContext} {k tokens : Nat} (hlocated : Located cfg w)
    (hpaced : Paced w) (hstarted : w.startedPrefills p = before ++ d :: after)
    (hcontext : (w.store.ledger.viewOf d.requestId).context = some context)
    (hrest : context.activeChunkTokens = 0) (hfit : tokens ≤ context.remainingPrefillTokens)
    (hw : w' = { w.issue (.schedulePrefillChunk d.requestId p tokens) with
      startedPrefills := Function.update w.startedPrefills p
        (before ++ (if tokens < context.remainingPrefillTokens then [d] else []) ++ after) })
    (h : Trails w p c k) :
    Ended w' p c.requestId ∨ Trails w' p c k ∧ (before = [] → Trails w' p c (k - tokens)) := by
  have hat := hlocated.at_started (p := p) (c := d) (by simp [hstarted])
  have howing := hpaced.owing p d (by simp [hstarted]) context hcontext
  have hnext : (w'.store.ledger.viewOf d.requestId).context =
      some (context.scheduleChunk tokens) := by
    rw [hw]
    exact contextOf_schedulePrefillChunk w.store d.requestId p tokens hcontext
  have hstarted' : w'.startedPrefills p =
      before ++ (if tokens < context.remainingPrefillTokens then [d] else []) ++ after := by
    rw [hw]
    exact Function.update_self ..
  have hphase : w'.store.phaseOf d.requestId = .chunked p := by
    rw [hw]
    exact (phaseOf_apply hlocated.tracked (show StoreOp.Issuable w.store
      (.schedulePrefillChunk d.requestId p tokens) from hat.phase)).trans hat.phase
  have hother : ∀ s, s ≠ d.requestId → owedTokens w' s = owedTokens w s := by
    intro s hs
    apply owed_of_entries
    rw [hw]
    exact entriesOf_scheduled hlocated.tracked hat.phase hs
      (ofRequest_rescheduled hstarted (fun e he => mem_kept he) hs)
  have hleft : owedTokens w' d.requestId + tokens = owedTokens w d.requestId := by
    unfold owedTokens
    rw [hnext, hcontext]
    show context.prefillTokensToCompute - (context.processedPrefillTokens + tokens) + tokens =
      context.prefillTokensToCompute - (context.processedPrefillTokens + context.activeChunkTokens)
    rw [ResolvedPrefillContext.remainingPrefillTokens] at hfit
    omega
  -- the prompt is started once, so the others are not about to change
  have hnodup := hlocated.nodup_started p
  rw [hstarted, List.map_append, List.map_cons] at hnodup
  obtain ⟨-, hlater, hapart⟩ := List.nodup_append.mp hnodup
  have hbefore : owedBy w' before = owedBy w before := by
    apply owedBy_congr
    intro e he
    exact hother _ (hapart _ (List.mem_map_of_mem he) _ List.mem_cons_self)
  have hafter : ∀ e ∈ after, owedTokens w' e.requestId = owedTokens w e.requestId := by
    intro e he
    apply hother
    intro heq
    exact (List.nodup_cons.mp hlater).1 (heq ▸ List.mem_map_of_mem he)
  obtain ⟨ahead, behind, hsplit, howed⟩ := h
  rw [hstarted] at hsplit
  rcases places_of_append_eq hsplit with
    ⟨rfl, rfl, rfl⟩ | ⟨between, rfl, rfl⟩ | ⟨between, rfl, rfl⟩
  · -- the chunk is the prompt's own
    by_cases hmore : tokens < context.remainingPrefillTokens
    · right
      rw [if_pos hmore] at hstarted'
      have hfalls : owedBy w' (before ++ [d]) + tokens = owedBy w (before ++ [d]) := by
        rw [owedBy_append, owedBy_append, hbefore, owedBy_cons, owedBy_cons, owedBy_nil,
          owedBy_nil, ← hleft]
        omega
      have hlist : w'.startedPrefills p = before ++ d :: after := by
        rw [hstarted', List.append_assoc]
        rfl
      exact ⟨⟨before, after, hlist, by omega⟩, fun _ => ⟨before, after, hlist, by omega⟩⟩
    · left
      refine ⟨hphase, _, hnext, ?_⟩
      show context.processedPrefillTokens + tokens = context.prefillTokensToCompute
      rw [ResolvedPrefillContext.remainingPrefillTokens] at hfit hmore
      omega
  · -- the chunk is of a prompt ahead
    right
    have hkept : owedBy w' (if tokens < context.remainingPrefillTokens then [d] else []) ≤
        owedTokens w' d.requestId := by
      split
      · simp
      · simp
    have hbetween : owedBy w' (between ++ [c]) = owedBy w (between ++ [c]) := by
      apply owedBy_congr
      intro e he
      apply hafter
      rcases List.mem_append.mp he with he | he
      · exact List.mem_append_left _ he
      · rw [List.mem_singleton.mp he]
        exact List.mem_append_right _ List.mem_cons_self
    have hfalls : owedBy w' ((before ++ if tokens < context.remainingPrefillTokens then [d]
        else []) ++ between ++ [c]) + tokens ≤ owedBy w ((before ++ d :: between) ++ [c]) := by
      simp only [owedBy_append, owedBy_cons, owedBy_nil, hbefore] at hbetween ⊢
      omega
    have hlist : w'.startedPrefills p = (before ++ (if tokens < context.remainingPrefillTokens
        then [d] else []) ++ between) ++ c :: behind := by
      rw [hstarted']
      simp only [List.append_assoc]
    exact ⟨⟨_, behind, hlist, by omega⟩, fun _ => ⟨_, behind, hlist, by omega⟩⟩
  · -- the chunk is of a prompt behind
    right
    have hsame : owedBy w' (ahead ++ [c]) = owedBy w (ahead ++ [c]) := by
      apply owedBy_congr
      intro e he
      apply hother
      refine hapart _ (List.mem_map_of_mem ?_) _ List.mem_cons_self
      rcases List.mem_append.mp he with he | he
      · exact List.mem_append_left _ he
      · rw [List.mem_singleton.mp he]
        exact List.mem_append_right _ List.mem_cons_self
    have hlist : w'.startedPrefills p = ahead ++ c :: (between ++
        (if tokens < context.remainingPrefillTokens then [d] else []) ++ after) := by
      rw [hstarted']
      simp only [List.append_assoc, List.cons_append]
    refine ⟨⟨ahead, _, hlist, hsame ▸ howed⟩, ?_⟩
    intro hnil
    simp at hnil

/-! ## A turn -/

theorem Ended.congr (h : Ended w p r) (hentries : w'.entriesOf r = w.entriesOf r) :
    Ended w' p r := by
  have hview : w'.store.ledger.viewOf r = w.store.ledger.viewOf r := congrArg Entries.view hentries
  refine ⟨(congrArg Entries.phase hentries).trans h.phase, ?_⟩
  rw [hview]
  exact h.reached

omit [PendingOrderPolicy P] in
/-- What is owed by the prompts started before stays, and prompts are started behind them. -/
theorem Trails.congr {c : AdmissionCandidate} (h : Trails w p c k)
    (hstarted : ∃ added, w'.startedPrefills p = w.startedPrefills p ++ added)
    (howed : ∀ d ∈ w.startedPrefills p, owedTokens w' d.requestId = owedTokens w d.requestId) :
    Trails w' p c k := by
  obtain ⟨ahead, behind, hlist, hle⟩ := h
  obtain ⟨added, hadded⟩ := hstarted
  refine ⟨ahead, behind ++ added, ?_, ?_⟩
  · rw [hadded, hlist, List.append_assoc, List.cons_append]
  · refine (Nat.le_of_eq (owedBy_congr ?_)).trans hle
    intro d hd
    apply howed
    rw [hlist]
    rcases List.mem_append.mp hd with hd | hd
    · exact List.mem_append_left _ hd
    · rw [List.mem_singleton.mp hd]
      exact List.mem_append_right _ List.mem_cons_self

omit [PendingOrderPolicy P] in
/-- Every prompt started trails, with what the partition owes as its bound. -/
theorem trails_of_started {c : AdmissionCandidate} (h : c ∈ w.startedPrefills p) :
    Trails w p c (owedBy w (w.startedPrefills p)) := by
  obtain ⟨ahead, behind, hstarted⟩ := List.append_of_mem h
  refine ⟨ahead, behind, hstarted, ?_⟩
  apply owedBy_sublist
  rw [hstarted]
  exact (List.Sublist.refl ahead).append (List.singleton_sublist.mpr List.mem_cons_self)

omit [PendingOrderPolicy P] in
theorem Nears.frame {c : AdmissionCandidate} (h : Nears w p c k) (hkv : w'.kv = w.kv)
    (hstarted : w'.startedPrefills = w.startedPrefills) : Nears w' p c k := by
  have hstore : w'.store = w.store := congrArg IssuedStore.store hkv
  rcases h with ⟨hphase, hreached⟩ | htrails
  · left
    refine ⟨?_, ?_⟩
    · rw [hstore]
      exact hphase
    · rw [hstore]
      exact hreached
  · right
    apply htrails.congr
    · exact ⟨[], by rw [hstarted, List.append_nil]⟩
    · intro d _
      unfold owedTokens
      rw [hstore]

theorem Nears.still {c : AdmissionCandidate} (h : Nears w p c k)
    (hall : ∀ s, w'.entriesOf s = w.entriesOf s)
    (hstarted : w'.startedPrefills = w.startedPrefills) : Nears w' p c k := by
  rcases h with hended | htrails
  · exact .inl (hended.congr (hall _))
  · right
    apply htrails.congr
    · exact ⟨[], by rw [hstarted, List.append_nil]⟩
    · intro d _
      exact owed_of_entries (hall _)

theorem Nears.other {c : AdmissionCandidate} (h : Nears w p c k)
    (hlocated : Located cfg w) (hr : w.store.phaseOf r ≠ .chunked p)
    (hother : ∀ s, s ≠ r → w'.entriesOf s = w.entriesOf s)
    (hstarted : ∃ added, w'.startedPrefills p = w.startedPrefills p ++ added) :
    Nears w' p c k := by
  rcases h with hended | htrails
  · left
    apply hended.congr
    apply hother
    intro heq
    exact hr (heq ▸ hended.phase)
  · right
    apply htrails.congr hstarted
    intro d hd
    apply owed_of_entries
    apply hother
    intro heq
    exact hr (heq ▸ (hlocated.at_started hd).phase)

theorem nears_scheduling {c : AdmissionCandidate} (h : Scheduling cfg w w')
    (hlocated : Located cfg w) (hpaced : Paced w) (hnears : Nears w p c k) : Nears w' p c k := by
  obtain ⟨budgets, slots, budgets', slots', hstep⟩ := h
  generalize hs : (⟨w, budgets, slots⟩ : Forming P acc n) = s at hstep
  generalize hs' : (⟨w', budgets', slots'⟩ : Forming P acc n) = s' at hstep
  cases hstep with
  | @chunk q before after d context budget tokens left available started fresh resolved size
      positive spent =>
    subst hs
    obtain rfl := congrArg Forming.worker hs'
    have hlist : w.startedPrefills q = before ++ d :: after := started
    have hmem : d ∈ w.startedPrefills q := by simp [hlist]
    have hphase := (hlocated.at_started hmem).phase
    by_cases hq : q = p
    · subst hq
      rcases hnears with hended | htrails
      · -- a prompt that is started still owes something
        left
        apply hended.congr
        refine entriesOf_scheduled hlocated.tracked hphase ?_
          (ofRequest_rescheduled started (fun e he => mem_kept he) ?_)
        all_goals
          intro heq
          obtain ⟨context', hcontext', hend⟩ := hended.reached
          have howed := hpaced.owing q d hmem context' (heq ▸ hcontext')
          omega
      · have hle := nextChunkTokens_le context (budget - cfg.draftingSlots) cfg.chunkEndAlignment
          cfg.maxBatchTokens
        rw [size] at hle
        rcases trails_chunk hlocated hpaced started resolved
          (hpaced.resting q d.requestId fresh context hphase resolved)
          (hle.trans (Nat.min_le_left _ _)) rfl htrails with hended | ⟨htrails, -⟩
        · exact .inl hended
        · exact .inr htrails
    · refine hnears.other hlocated (r := d.requestId) ?_ ?_ ⟨[], ?_⟩
      · intro heq
        cases hphase.symm.trans heq
        exact hq rfl
      · intro t ht
        exact entriesOf_scheduled hlocated.tracked hphase ht
          (ofRequest_rescheduled started (fun e he => mem_kept he) ht)
      · rw [List.append_nil]
        exact Function.update_of_ne (Ne.symm hq) ..
  | refresh q =>
    subst hs
    obtain rfl := congrArg Forming.worker hs'
    exact hnears.still (entriesOf_refresh hlocated q) rfl
  | @admitted q budget chunkBudget left slots slots' a worker available windows room gate claimed
      entered spent =>
    subst hs
    obtain rfl := congrArg Forming.worker hs'
    obtain ⟨hpeek, -⟩ := gateHead_spec gate
    have habsent := (hlocated.at_waiting (mem_of_peek hpeek)).phase
    refine hnears.other hlocated (r := a.candidate.requestId) ?_
      (fun t ht => entriesOf_admitted hlocated hpeek entered ht) ?_
    · intro heq
      cases habsent.symm.trans heq
    · obtain ⟨record, -, rfl⟩ := admitHead_spec entered
      show ∃ added, startedAfter w q a p = w.startedPrefills p ++ added
      unfold startedAfter
      split
      · by_cases hq : p = q
        · subst hq
          exact ⟨[a.candidate], Function.update_self ..⟩
        · refine ⟨[], ?_⟩
          rw [List.append_nil]
          exact Function.update_of_ne hq ..
      · exact ⟨[], (List.append_nil _).symm⟩

/-! ## A batch -/

theorem nears_making {config : BoundedFutureKvAdmissionConfig} {stepTokens : Nat}
    {c : AdmissionCandidate} (hstep : Making config stepTokens w w')
    (hlocated : Located cfg w) (h : Nears w p c k) : Nears w' p c k := by
  cases hstep with
  | prepare q => exact h.still (entriesOf_prepare hlocated.tracked q _ _) rfl
  | retract q victim live =>
    have hresident : w.store.phaseOf victim = .resident q := hlocated.resident_of_live live
    refine h.other hlocated (r := victim) ?_ (fun s hs => entriesOf_retracted hlocated live _ hs)
      ⟨[], ?_⟩
    · intro heq
      cases hresident.symm.trans heq
    · obtain ⟨d, f, record, -, -, -, -, -, -, -, hw⟩ :=
        requeueRetracted_spec (w.issue (.release victim q)) q victim config.retractionPolicy
      rw [hw, List.append_nil]
      rfl
  | ratio x => exact h.frame rfl rfl

theorem nears_formBatch {c : AdmissionCandidate} {hasBatch : Bool}
    (hlocated : Located cfg w) (hidle : Idle w) (hpaced : Paced w)
    (hform : w.formBatch cfg = .ok (w', hasBatch)) (h : Nears w p c k) : Nears w' p c k := by
  obtain ⟨-, ⟨-, hnears⟩, -⟩ := formBatch_rule
    (J := fun w => Paced w ∧ Nears w p c k)
    (fun _ _ _ _ h => ⟨⟨h.1.tiled, h.1.owing, h.1.resting⟩, h.2.frame rfl rfl⟩)
    (fun hstep hat hfree h => ⟨paced_making hstep hat hfree h.1, nears_making hstep hat h.2⟩)
    (fun hstep hat h => ⟨paced_forming hstep hat h.1,
      nears_scheduling ⟨_, _, _, _, hstep⟩ hat h.1 h.2⟩) hform hlocated hidle ⟨hpaced, h⟩
  exact hnears

theorem FirstChunk.nears {c first : AdmissionCandidate} {rest : List AdmissionCandidate}
    (hchunk : FirstChunk cfg p first rest w w') (hlocated : Located cfg w) (hpaced : Paced w)
    (h : Nears w p c (k + 1)) : Nears w' p c k := by
  rcases h with hended | htrails
  · -- nothing more is scheduled of a prompt that has its last chunk
    rcases nears_scheduling hchunk.turn hlocated hpaced (.inl hended : Nears w p c 0) with
      hended' | htrails
    · exact .inl hended'
    · exact .inr (htrails.mono (Nat.zero_le k))
  · obtain ⟨context, tokens, hcontext, hrest, hpositive, hfit, hw⟩ := hchunk.chunk
    have hfirst : w.startedPrefills p = [] ++ first :: rest := hchunk.started
    rcases trails_chunk hlocated hpaced hfirst hcontext hrest hfit hw htrails with
      hended | ⟨-, hfalls⟩
    · exact .inl hended
    · exact .inr ((hfalls rfl).mono (by omega))

theorem nears_quiet {c : AdmissionCandidate} {hasBatch : Bool}
    (hsizes : ChunkSizes cfg.maxBatchTokens cfg.draftingSlots cfg.chunkEndAlignment)
    (hlocated : Located cfg w) (hidle : Idle w) (hpaced : Paced w)
    (hquiet : w.anyLiveDecode = false) (hform : w.formBatch cfg = .ok (w', hasBatch))
    (h : Trails w p c (k + 1)) : Nears w' p c k := by
  have hnonempty : w.startedPrefills p ≠ [] := List.ne_nil_of_mem h.started
  obtain ⟨first, rest, hstarted⟩ := List.exists_cons_of_ne_nil hnonempty
  obtain ⟨u, v, scheduled, hbefore, hchunk, hafter, hend⟩ :=
    first_scheduled hsizes hlocated hidle hpaced hquiet hstarted hform
  have hplanned : Nears { w with batchPlan := fun _ => true } p c (k + 1) :=
    Nears.frame (.inr h) rfl rfl
  -- the turns before the chunk, the chunk, the turns after it
  obtain ⟨hlocatedU, hpacedU, hnearsU⟩ := scheduling_rule
    (fun _ _ hturn hat hkept h => nears_scheduling hturn hat hkept h) hbefore
    (hlocated.of_eq rfl rfl rfl rfl rfl) ⟨hpaced.tiled, hpaced.owing, hpaced.resting⟩ hplanned
  have hnearsV := hchunk.nears hlocatedU hpacedU hnearsU
  obtain ⟨hlocatedV, hpacedV, -⟩ := scheduling_rule (J := fun _ => True)
    (fun _ _ _ _ _ h => h) (.single hchunk.turn) hlocatedU hpacedU trivial
  obtain ⟨-, -, hnears, hin⟩ := scheduling_rule
    (J := fun w => Nears w p c k ∧ first.requestId ∈ (w.store.partitions p).prefillAdmits)
    (fun _ _ hturn hat hkept h =>
      ⟨nears_scheduling hturn hat hkept h.1, admits_scheduling hturn hat h.2⟩)
    hafter hlocatedV hpacedV ⟨hnearsV, hchunk.admits⟩
  obtain ⟨hkv, hstarted', -⟩ := hend p (List.ne_nil_of_mem hin)
  exact hnears.frame hkv hstarted'

theorem HeadChunk.nears {c : AdmissionCandidate} (hchunk : HeadChunk cfg p c w w')
    (hlocated : Located cfg w) : ∃ k, Nears w' p c k := by
  obtain ⟨a, budget, slots, hgate, hentered, rfl⟩ := hchunk.enters
  obtain ⟨hpeek, hresolved, -, -, -, hfit, -⟩ := gateHead_spec hgate
  obtain ⟨hphase, -⟩ := hlocated.admitted hpeek hentered
  obtain ⟨record, -, rfl⟩ := admitHead_spec hentered
  by_cases hmore : a.chunkTokens < a.resolvedPrefill.remainingPrefillTokens
  · refine ⟨_, .inr (trails_of_started ?_)⟩
    show a.candidate ∈ startedAfter w p a p
    rw [startedAfter, if_pos hmore, Function.update_self]
    exact List.mem_append_right _ (List.mem_singleton_self _)
  · obtain ⟨metadata, hcontext⟩ := contextOf_firstChunk w.store a.candidate.requestId p
      a.resolvedPrefill a.footprint a.chunkTokens
    refine ⟨0, .inl ⟨hphase, _, hcontext, ?_⟩⟩
    have hnew : a.resolvedPrefill.processedPrefillTokens = 0 := by
      rw [hresolved]
      rfl
    have hle := hfit.trans (Nat.min_le_left _ _)
    rw [ResolvedPrefillContext.remainingPrefillTokens] at hmore hle
    show a.resolvedPrefill.processedPrefillTokens + a.chunkTokens =
      a.resolvedPrefill.prefillTokensToCompute
    omega

theorem head_entered {before after : List (Fin n)} {turn : ChunkedPrefillWorker P acc n}
    {c : AdmissionCandidate} {hasBatch : Bool}
    (hsizes : ChunkSizes cfg.maxBatchTokens cfg.draftingSlots cfg.chunkEndAlignment)
    (hwindow : cfg.queryWidth ≤ 1 ∨ cfg.decodeBudget ≤ cfg.maxBatchTokens)
    (hlocated : Located cfg w) (hidle : Idle w) (hpaced : Paced w)
    (hquiet : w.anyLiveDecode = false) (hnone : w.startedPrefills p = [])
    (hsplit : List.finRange n = before ++ p :: after)
    (hturn : headTurn cfg w before = .ok turn) (hfits : HeadFits cfg (turn.refreshPolicy p) p c)
    (hform : w.formBatch cfg = .ok (w', hasBatch)) :
    Ended w' p c.requestId ∨ c ∈ w'.startedPrefills p := by
  obtain ⟨u, v, scheduled, hbefore, hchunk, hafter, hend⟩ :=
    head_scheduled hsizes hwindow hlocated hidle hpaced hquiet hnone hsplit hturn hfits hform
  obtain ⟨hlocatedU, hpacedU, -⟩ := scheduling_rule (J := fun _ => True)
    (fun _ _ _ _ _ h => h) hbefore (hlocated.of_eq rfl rfl rfl rfl rfl)
    ⟨hpaced.tiled, hpaced.owing, hpaced.resting⟩ trivial
  obtain ⟨hlocatedV, hpacedV, -⟩ := scheduling_rule (J := fun _ => True)
    (fun _ _ _ _ _ h => h) (.single hchunk.turn) hlocatedU hpacedU trivial
  obtain ⟨k, hnearsV⟩ := hchunk.nears hlocatedU
  obtain ⟨-, -, hnears, hin⟩ := scheduling_rule
    (J := fun w => Nears w p c k ∧ c.requestId ∈ (w.store.partitions p).prefillAdmits)
    (fun _ _ hturn hat hkept h =>
      ⟨nears_scheduling hturn hat hkept h.1, admits_scheduling hturn hat h.2⟩)
    hafter hlocatedV hpacedV ⟨hnearsV, hchunk.admits⟩
  obtain ⟨hkv, hstarted', -⟩ := hend p (List.ne_nil_of_mem hin)
  rcases hnears.frame hkv hstarted' with hended | htrails
  · exact .inl hended
  · exact .inr htrails.started

/-! ## The other steps -/

theorem trails_completing {q : Fin n} {c : AdmissionCandidate}
    (hstep : Completing cfg q w w') (hlocated : Located cfg w) (howing : Owing w)
    (h : Trails w p c k) : Trails w' p c k := by
  cases hstep with
  | decoded step =>
    have hdecode := hlocated.decodeStep step
    have hstarted : w'.startedPrefills = w.startedPrefills := by rw [hdecode.frame]
    apply h.congr
    · exact ⟨[], by rw [hstarted, List.append_nil]⟩
    · intro d _
      unfold owedTokens
      rw [hdecode.ledger]
  | @prefilled _ r completed completed' admitted step =>
    have hchunk := hlocated.completePrefill admitted step
    have hstarted : w'.startedPrefills = w.startedPrefills := by rw [hchunk.frame]
    obtain ⟨context, hcontext, hfinal⟩ := completed_chunk step
    apply h.congr
    · exact ⟨[], by rw [hstarted, List.append_nil]⟩
    · intro d hd
      by_cases hr : d.requestId = r
      · have howed := howing p d hd context (hr ▸ hcontext)
        rcases hfinal with ⟨hdone, -⟩ | ⟨-, hkv⟩
        · -- a started prompt is not done
          rw [ResolvedPrefillContext.remainingPrefillTokens] at hdone
          have hprocessed : context.completeChunk.processedPrefillTokens =
            context.processedPrefillTokens + context.activeChunkTokens := rfl
          have htoCompute : context.completeChunk.prefillTokensToCompute =
            context.prefillTokensToCompute := rfl
          omega
        · have hnext : (w'.store.ledger.viewOf r).context = some context.completeChunk :=
            (congrArg (fun kv : IssuedStore acc n => (kv.store.ledger.viewOf r).context)
              hkv).trans (contextOf_completePrefillChunk hcontext)
          unfold owedTokens
          rw [hr, hnext, hcontext]
          rfl
      · exact owed_of_entries (hchunk.entries d.requestId hr)
  | cleared =>
    apply h.congr
    · exact ⟨[], (List.append_nil _).symm⟩
    · intro d _
      exact owed_of_entries (entriesOf_clear hlocated.tracked _)
  | @finished r resident complete free =>
    apply h.congr
    · exact ⟨[], (List.append_nil _).symm⟩
    · intro d hd
      apply owed_of_entries
      apply entriesOf_releaseCompleted hlocated.tracked resident
      intro heq
      have hphase := (hlocated.at_started hd).phase
      cases (heq ▸ hphase).symm.trans resident

theorem trails_completeIteration {c : AdmissionCandidate} {events : List RequestId}
    (hlocated : Located cfg w) (howing : Owing w)
    (hstep : w.completeIteration cfg = .ok (w', events)) (h : Trails w p c k) :
    Trails w' p c k := by
  obtain ⟨hpath, -, -⟩ := completeIteration_path hlocated hstep
  have hall : Located cfg w' ∧ Owing w' ∧ Trails w' p c k := by
    clear hstep
    induction hpath with
    | refl => exact ⟨hlocated, howing, h⟩
    | tail _ hturn ih =>
      obtain ⟨q, hturn⟩ := hturn
      exact ⟨hturn.located ih.1, owing_completing hturn ih.1 ih.2.1,
        trails_completing hturn ih.1 ih.2.1 ih.2.2⟩
  exact hall.2.2

theorem trails_released {c : AdmissionCandidate} (hlocated : Located cfg w)
    (hr : c.requestId ≠ r) (h : Trails w p c k) : Trails (w.releaseRequest r) p c k := by
  rcases releaseRequest_cases w r with ⟨q, -, hw⟩ | ⟨-, episodes, hepisodes, hw⟩
  · rw [hw]
    apply h.congr
    · exact ⟨[], (List.append_nil _).symm⟩
    · intro d _
      rfl
  · have hother := fun s hs => entriesOf_dropped hlocated hepisodes (s := s) hs
    rw [hw]
    obtain ⟨ahead, behind, hstarted, howed⟩ := h
    refine ⟨ahead.filter fun d => d.requestId ≠ r, behind.filter fun d => d.requestId ≠ r, ?_, ?_⟩
    · show (w.startedPrefills p).filter (fun d => d.requestId ≠ r) = _
      rw [hstarted, List.filter_append, List.filter_cons_of_pos (by simpa using hr)]
    · refine le_trans ?_ howed
      have hsub : (ahead.filter (fun d => d.requestId ≠ r) ++ [c]).Sublist (ahead ++ [c]) :=
        List.filter_sublist.append (List.Sublist.refl _)
      refine le_trans (Nat.le_of_eq ?_) (owedBy_sublist hsub)
      apply owedBy_congr
      intro d hd
      apply owed_of_entries
      apply hother
      rcases List.mem_append.mp hd with hd | hd
      · simpa using (List.mem_filter.mp hd).2
      · rw [List.mem_singleton.mp hd]
        exact hr

/-! ## Runs -/

/-- Batches that a run forms while no decode is live. -/
def quietBatches (cfg : ChunkedPrefillConfig n) : ChunkedPrefillWorker P acc n → List WorkerOp → Nat
  | _, [] => 0
  | w, op :: ops =>
    (if op = .formBatch ∧ w.anyLiveDecode = false then 1 else 0) +
      match op.step cfg w with
      | .ok w' => quietBatches cfg w' ops
      | .error _ => 0

theorem nears_step {c : AdmissionCandidate} {op : WorkerOp}
    (hsizes : ChunkSizes cfg.maxBatchTokens cfg.draftingSlots cfg.chunkEndAlignment)
    (hsettled : Settled cfg w) (hpaced : Paced w) (hop : op.Enabled w)
    (hkeeps : op ≠ .release c.requestId) (hstep : op.step cfg w = .ok w') (h : Trails w p c k) :
    Nears w' p c (k - if op = .formBatch ∧ w.anyLiveDecode = false then 1 else 0) := by
  cases op with
  | enqueue r =>
    have haccept : w.acceptMessage cfg r = .ok w' := hstep
    obtain ⟨q, d, sequence, balance, -, -, -, -, -, rfl⟩ := acceptMessage_spec haccept
    exact Nears.frame (.inr h) rfl rfl
  | formBatch =>
    obtain ⟨formed, hasBatch, hform, rfl⟩ := WorkerOp.step_formBatch hstep
    have hidle := hsettled.idle hop
    by_cases hquiet : w.anyLiveDecode = false
    · rw [if_pos ⟨rfl, hquiet⟩]
      have hpositive := h.pos hsettled.located hpaced.owing
      obtain ⟨k, rfl⟩ := Nat.exists_eq_add_one.mpr hpositive
      exact (nears_quiet hsizes hsettled.located hidle hpaced hquiet hform h).frame rfl rfl
    · rw [if_neg (not_and_of_not_right _ hquiet)]
      exact (nears_formBatch hsettled.located hidle hpaced hform (.inr h)).frame rfl rfl
  | completeIteration =>
    obtain ⟨completed, events, hcomplete, rfl⟩ := WorkerOp.step_completeIteration hstep
    exact Nears.frame
      (.inr (trails_completeIteration hsettled.located hpaced.owing hcomplete h)) rfl rfl
  | release r =>
    obtain rfl := Except.ok.inj hstep
    refine .inr (trails_released hsettled.located ?_ h)
    intro heq
    exact hkeeps (heq ▸ rfl)

theorem prefill_ends {c : AdmissionCandidate} {ops : List WorkerOp}
    (hsizes : ChunkSizes cfg.maxBatchTokens cfg.draftingSlots cfg.chunkEndAlignment)
    (hsettled : Settled cfg w) (hpaced : Paced w)
    (hallowed : Run.TryAllowed (WorkerOp.step cfg) (fun w op => op.Enabled w) w ops)
    (hrun : Run.tryRun (WorkerOp.step cfg) w ops = .ok w')
    (hkeeps : WorkerOp.release c.requestId ∉ ops) (h : Nears w p c k) :
    (∃ before after v, ops = before ++ after ∧ Run.tryRun (WorkerOp.step cfg) w before = .ok v ∧
      Ended v p c.requestId) ∨ quietBatches cfg w ops < k := by
  induction ops generalizing w k with
  | nil =>
    rcases h with hended | htrails
    · exact .inl ⟨[], [], w, rfl, rfl, hended⟩
    · exact .inr (htrails.pos hsettled.located hpaced.owing)
  | cons op ops ih =>
    rcases h with hended | htrails
    · exact .inl ⟨[], op :: ops, w, rfl, rfl, hended⟩
    · obtain ⟨u, hstep, hrest⟩ := Run.tryRun_cons_eq_ok_iff.mp hrun
      obtain ⟨hne, hkeeps⟩ := not_or.mp fun h => hkeeps (List.mem_cons.mpr h)
      have hpositive := htrails.pos hsettled.located hpaced.owing
      have hnext := nears_step hsizes hsettled hpaced hallowed.1 (Ne.symm hne) hstep htrails
      rcases ih (hsettled.step hallowed.1 hstep) (paced_step hsettled hpaced hallowed.1 hstep)
        (hallowed.tail hstep) hrest hkeeps hnext with
        ⟨before, after, v, rfl, hbefore, hended⟩ | hfewer
      · exact .inl ⟨op :: before, after, v, rfl,
          Run.tryRun_cons_eq_ok_iff.mpr ⟨u, hstep, hbefore⟩, hended⟩
      · right
        rw [quietBatches, hstep]
        show _ + quietBatches cfg u ops < k
        omega

/-! ## No stall -/

/-- **Chunk scheduling does not stall where the sizes fit**: a batch without a live decode
carries a positive chunk of the first prompt started on each partition, or, where none is
started, of the head that fits; and every prompt started comes to the end of its prefill. -/
theorem chunk_scheduling_progresses
    (hsizes : ChunkSizes cfg.maxBatchTokens cfg.draftingSlots cfg.chunkEndAlignment)
    (h : Reached cfg w) :
    (∀ w' hasBatch, w.computing = false → w.anyLiveDecode = false →
      w.formBatch cfg = .ok (w', hasBatch) →
      (∀ p first rest, w.startedPrefills p = first :: rest → Carries w' p first.requestId) ∧
      ∀ p c before after turn, cfg.queryWidth ≤ 1 ∨ cfg.decodeBudget ≤ cfg.maxBatchTokens →
        w.startedPrefills p = [] → List.finRange n = before ++ p :: after →
        headTurn cfg w before = .ok turn → HeadFits cfg (turn.refreshPolicy p) p c →
        Carries w' p c.requestId ∧ (Ended w' p c.requestId ∨ c ∈ w'.startedPrefills p)) ∧
    ∀ p, ∀ c ∈ w.startedPrefills p, ∀ ops w',
      Run.TryAllowed (WorkerOp.step cfg) (fun w op => op.Enabled w) w ops →
      Run.tryRun (WorkerOp.step cfg) w ops = .ok w' → WorkerOp.release c.requestId ∉ ops →
      (∃ before after v, ops = before ++ after ∧
        Run.tryRun (WorkerOp.step cfg) w before = .ok v ∧ Ended v p c.requestId) ∨
        quietBatches cfg w ops < owedBy w (w.startedPrefills p) := by
  obtain ⟨hsettled, hpaced⟩ := h.paced
  refine ⟨?_, ?_⟩
  · intro w' hasBatch hready hquiet hform
    have hidle := hsettled.idle hready
    refine ⟨?_, ?_⟩
    · intro p first rest hstarted
      exact started_carried hsizes hsettled.located hidle hpaced hquiet hstarted hform
    · intro p c before after turn hwindow hnone hsplit hturn hfits
      exact ⟨head_carried hsizes hwindow hsettled.located hidle hpaced hquiet hnone hsplit hturn
        hfits hform, head_entered hsizes hwindow hsettled.located hidle hpaced hquiet hnone hsplit
        hturn hfits hform⟩
  · intro p c hc ops w' hallowed hrun hkeeps
    exact prefill_ends hsizes hsettled hpaced hallowed hrun hkeeps (.inr (trails_of_started hc))

theorem hundredTokens_pos : 0 < 100 := by decide

abbrev hundredTokens : KvAccounting := KvAccounting.tokensForTest 100 hundredTokens_pos

theorem chunkSizes_tenTokenCap : ChunkSizes tenTokenCap.maxBatchTokens tenTokenCap.draftingSlots
      tenTokenCap.chunkEndAlignment := by
  refine ⟨by decide, ?_⟩
  intro alignment halignment
  cases halignment

/-- The second chunk of the first prompt. -/
theorem chunk_scheduling_progresses_two :
    ∃ w w' : ChunkedPrefillWorker PendingOrder hundredTokens 1,
      ∃ first rest, w.startedPrefills 0 = first :: rest ∧
        w.formBatch tenTokenCap = .ok (w', true) ∧ Carries w' 0 first.requestId := by
  have hchecked : ∃ w : ChunkedPrefillWorker PendingOrder hundredTokens 1,
      Run.tryRun (WorkerOp.step tenTokenCap)
        (ChunkedPrefillWorker.new tenTokenCap .disabled twelveTokenPrompts (fun _ => .new .fifo)
          .single)
        [.enqueue 1, .enqueue 2, .formBatch, .completeIteration] = .ok w ∧
      (decide (w.computing = false ∧ w.anyLiveDecode = false ∧ w.startedPrefills 0 ≠ []) &&
        (w.formBatch tenTokenCap).toOption.any fun batch => batch.2) = true :=
    exists_ok_of_check (by decide +kernel)
  obtain ⟨w, hrun, hcheck⟩ := hchecked
  rw [Bool.and_eq_true] at hcheck
  obtain ⟨hstate, hformed⟩ := hcheck
  obtain ⟨hready, hquiet, hnonempty⟩ := of_decide_eq_true hstate
  obtain ⟨⟨w', hasBatch⟩, hform, rfl⟩ := exists_ok_of_any hformed
  obtain ⟨first, rest, hstarted⟩ := List.exists_cons_of_ne_nil hnonempty
  have hreached : Reached tenTokenCap w :=
    ⟨.disabled, twelveTokenPrompts, fun _ => .new .fifo, .single, _, fun _ => rfl, fun _ => rfl,
      by decide +kernel, hrun⟩
  exact ⟨w, w', first, rest, hstarted, hform,
    ((chunk_scheduling_progresses chunkSizes_tenTokenCap hreached).1 w' true hready hquiet
      hform).1 0 first rest hstarted⟩

theorem tenTokenBlock_pos : ∀ alignment ∈ some (ChunkEndAlignment.mk 10 false),
    alignment.quantum > 0 := by
  intro alignment halignment
  cases halignment
  decide

/-- The same cap in blocks of ten tokens, which no chunk of nine can fill. -/
def tenTokenBlocks : ChunkedPrefillConfig 1 :=
  { tenTokenCap with
    chunkEndAlignment := some ⟨10, false⟩
    quantum_pos := tenTokenBlock_pos }

/-- The candidate of a prompt of twelve tokens. -/
def twelveTokenHead : AdmissionCandidate := ⟨1, 0, 12, 4, .standalone, 0, 0, false⟩

/-- **A head that stalls**: it fits, nothing decodes, and no chunk of it is ever scheduled. -/
theorem chunk_scheduling_stalls : ∃ w w' turn : ChunkedPrefillWorker PendingOrder hundredTokens 1,
      Reached tenTokenBlocks w ∧ w.computing = false ∧ w.anyLiveDecode = false ∧
        w.startedPrefills 0 = [] ∧ headTurn tenTokenBlocks w [] = .ok turn ∧
        HeadFits tenTokenBlocks (turn.refreshPolicy 0) 0 twelveTokenHead ∧
        w.formBatch tenTokenBlocks = .ok (w', false) ∧
        ¬ Carries w' 0 twelveTokenHead.requestId := by
  have hchecked : ∃ w : ChunkedPrefillWorker PendingOrder hundredTokens 1,
      Run.tryRun (WorkerOp.step tenTokenBlocks)
        (ChunkedPrefillWorker.new tenTokenBlocks .disabled twelveTokenPrompts (fun _ => .new .fifo)
          .single)
        [.enqueue 1] = .ok w ∧
      (decide (w.computing = false ∧ w.anyLiveDecode = false ∧ w.startedPrefills 0 = []) &&
        ((headTurn tenTokenBlocks w []).toOption.any fun turn =>
          decide (peek ((turn.refreshPolicy 0).policies 0) = some twelveTokenHead ∧
            admissionFits tenTokenBlocks (turn.refreshPolicy 0) 0
              (admissionFootprint tenTokenBlocks hundredTokens
                ((turn.refreshPolicy 0).store.previewPrefillContext 0 12 .standalone)
                twelveTokenHead) = true)) &&
        (w.formBatch tenTokenBlocks).toOption.any fun batch =>
          decide (batch.2 = false ∧ (batch.1.store.partitions 0).prefillAdmits = [])) = true :=
    exists_ok_of_check (by decide +kernel)
  obtain ⟨w, hrun, hcheck⟩ := hchecked
  rw [Bool.and_eq_true, Bool.and_eq_true] at hcheck
  obtain ⟨⟨hstate, hturn⟩, hformed⟩ := hcheck
  obtain ⟨hready, hquiet, hnone⟩ := of_decide_eq_true hstate
  obtain ⟨turn, hturn, hfits⟩ := exists_ok_of_any hturn
  obtain ⟨hpeek, hroom⟩ := of_decide_eq_true hfits
  obtain ⟨⟨w', hasBatch⟩, hform, hempty⟩ := exists_ok_of_any hformed
  obtain ⟨rfl, hadmits⟩ := of_decide_eq_true hempty
  have hreached : Reached tenTokenBlocks w :=
    ⟨.disabled, twelveTokenPrompts, fun _ => .new .fifo, .single, _, fun _ => rfl, fun _ => rfl,
      by decide +kernel, hrun⟩
  refine ⟨w, w', turn, hreached, hready, hquiet, hnone, hturn, ⟨hpeek, by decide, hroom⟩, hform, ?_⟩
  intro hcarries
  have hmem := hcarries.admitted
  rw [hadmits] at hmem
  cases hmem

end ServingSim
