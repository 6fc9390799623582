import ServingSim.Admission.Paths

/-
  The token budget of an engine that mixes prefill with decode.

  A batch spends its cap on the query rows of the resident decodes, on the tokens
  of the prefill chunks, and on drafting slots for every request in it. Decodes are
  served first, so the bound rests on how many there can be: `claimants` are the
  requests that decode now or will once the chunk they have in the iteration, or,
  where a decode spends more than one row, the prompt they started, is done. Their
  windows never exceed the cap (`Budgeted`), between iterations and through them.

  What is proved:
    1. `mix_token_budget` — every batch of a run is within the cap.
-/

namespace ServingSim

open KeyedTotal PendingOrderPolicy KvCacheStore Relation ChunkedPrefillWorker

variable {P : Type} [PendingOrderPolicy P] {acc : KvAccounting} {n : Nat}
  {cfg : ChunkedPrefillConfig n} {w w' : ChunkedPrefillWorker P acc n} {r : RequestId} {p : Fin n}

namespace ChunkedPrefillWorker

/-- Tokens of the chunk a request has in the iteration. -/
def chunkTokensOf (w : ChunkedPrefillWorker P acc n) (r : RequestId) : Nat :=
  (w.store.ledger.prefillContext r).elim 0 fun context => context.activeChunk.2

/-- Batch tokens a partition spends: the query rows of its decodes, the tokens of its
chunks and the drafting slots of every request in the batch. -/
def batchTokens (cfg : ChunkedPrefillConfig n) (w : ChunkedPrefillWorker P acc n) (p : Fin n) :
    Nat :=
  let partition := w.store.partitions p
  let members := if w.batchPlan p then partition.decodeMembers else []
  (members.map fun e => cfg.decodeCompletion.queryTokensAt e.2).sum +
    (partition.prefillAdmits.map w.chunkTokensOf).sum +
    (members.length + partition.prefillAdmits.length) * cfg.draftingSlots

/-- The prompts that keep a verify window across iterations. -/
def windowed (cfg : ChunkedPrefillConfig n) (w : ChunkedPrefillWorker P acc n) (p : Fin n) :
    List RequestId :=
  if 1 < cfg.queryWidth then (w.startedPrefills p).map fun c => c.requestId else []

/-- The requests of a partition that decode or will. -/
def claimants (cfg : ChunkedPrefillConfig n) (w : ChunkedPrefillWorker P acc n) (p : Fin n) :
    Finset RequestId :=
  (w.decodeStates p ++ ((w.store.partitions p).prefillAdmits ++ w.windowed cfg p).filter
    fun r => 1 < (w.requests r).remainingOutputTokens).toFinset

end ChunkedPrefillWorker

/-! ## Claims -/

/-- A request decodes with output left, or is prefilled with more than one token to emit. -/
def Claims (cfg : ChunkedPrefillConfig n) (w : ChunkedPrefillWorker P acc n) (p : Fin n)
    (r : RequestId) : Prop :=
  w.store.phaseOf r = .resident p ∧ 0 < (w.requests r).remainingOutputTokens ∨
    (r ∈ (w.store.partitions p).prefillAdmits ∨ r ∈ w.windowed cfg p) ∧
      1 < (w.requests r).remainingOutputTokens

theorem Located.mem_decodeStates_iff (h : Located cfg w) : r ∈ w.decodeStates p ↔
      w.store.phaseOf r = .resident p ∧ 0 < (w.requests r).remainingOutputTokens := by
  have hleft : w.store.phaseOf r = .resident p → ∃ state, w.store.decodeOf p r = some state ∧
      state.remainingDecode = (w.requests r).remainingOutputTokens := fun hr => by
    obtain ⟨state, hstate, hin⟩ := (h.at_resident hr).progress
    exact ⟨state, hstate, hin.remaining⟩
  constructor
  · intro hr
    have hphase := h.resident_of_live hr
    obtain ⟨state, hstate, hremaining⟩ := hleft hphase
    obtain ⟨state', hstate', hlive⟩ := mem_decodeStates.mp hr
    obtain rfl : state = state' := Option.some.inj (hstate.symm.trans hstate')
    exact ⟨hphase, hremaining ▸ hlive⟩
  · intro ⟨hphase, hlive⟩
    obtain ⟨state, hstate, hremaining⟩ := hleft hphase
    exact mem_decodeStates.mpr ⟨state, hstate, hremaining ▸ hlive⟩

theorem Located.mem_claimants_iff (h : Located cfg w) :
    r ∈ w.claimants cfg p ↔ Claims cfg w p r := by
  simp only [claimants, List.mem_toFinset, List.mem_append, List.mem_filter, decide_eq_true_eq,
    h.mem_decodeStates_iff, Claims]

omit [PendingOrderPolicy P] in
/-- Claims recede where residents, prefills and remaining output do. -/
theorem Claims.recede (h : Claims cfg w' p r)
    (hphase : w'.store.phaseOf r = .resident p → w.store.phaseOf r = .resident p)
    (hadmits : r ∈ (w'.store.partitions p).prefillAdmits → r ∈ (w.store.partitions p).prefillAdmits)
    (hwindowed : r ∈ w'.windowed cfg p → r ∈ w.windowed cfg p)
    (hremaining : (w'.requests r).remainingOutputTokens ≤ (w.requests r).remainingOutputTokens) :
    Claims cfg w p r := by
  rcases h with ⟨hresident, hlive⟩ | ⟨hprefill, hleft⟩
  · exact .inl ⟨hphase hresident, by omega⟩
  · exact .inr ⟨hprefill.imp hadmits hwindowed, by omega⟩

omit [PendingOrderPolicy P] in
theorem mem_windowed : r ∈ w.windowed cfg p ↔
    1 < cfg.queryWidth ∧ ∃ c ∈ w.startedPrefills p, c.requestId = r := by
  unfold windowed
  split
  · next h => simp [h]
  · next h => simp [h]

theorem card_claimants_le (h : Located cfg w) (h' : Located cfg w')
    (hclaims : ∀ r, Claims cfg w' p r → Claims cfg w p r) :
    (w'.claimants cfg p).card ≤ (w.claimants cfg p).card := by
  refine Finset.card_le_card fun r hr => ?_
  rw [h.mem_claimants_iff]
  exact hclaims r (h'.mem_claimants_iff.mp hr)

omit [PendingOrderPolicy P] in
theorem length_decodeStates (w : ChunkedPrefillWorker P acc n) (p : Fin n) :
    (w.decodeStates p).length = w.liveDecodeCount p := by
  simp [ChunkedPrefillWorker.liveDecodeCount, KvCacheStore.liveDecodeCount,
    ResidentPartitionState.liveDecodeCount, decodeStates, ResidentPartitionState.decodeStates]

omit [PendingOrderPolicy P] in
/-- Every live decode is a claimant. -/
theorem live_le_claimants (w : ChunkedPrefillWorker P acc n) (p : Fin n) :
    w.liveDecodeCount p ≤ (w.claimants cfg p).card := by
  rw [← length_decodeStates, ← List.toFinset_card_of_nodup (nodup_decodeStates w p)]
  refine Finset.card_le_card fun r hr => ?_
  rw [claimants, List.mem_toFinset]
  exact List.mem_append_left _ (List.mem_toFinset.mp hr)

/-! ## Scheduling a chunk -/

/-- A chunk of `tokens` tokens of `r` was scheduled on `p` and paid for. -/
structure Schedules (cfg : ChunkedPrefillConfig n) (s s' : Forming P acc n) (p : Fin n)
    (r : RequestId) (tokens : Nat) : Prop where
  fresh : ∀ q, r ∉ (s.worker.store.partitions q).prefillAdmits
  positive : 0 < tokens
  admits : ∀ q, (s'.worker.store.partitions q).prefillAdmits =
    (s.worker.store.partitions q).prefillAdmits ++ if q = p then [r] else []
  chunk : ∀ t, s'.worker.chunkTokensOf t = if t = r then tokens else s.worker.chunkTokensOf t
  live : ∀ q, s'.worker.liveDecodeCount q = s.worker.liveDecodeCount q
  spent : s.budgets p = tokens + cfg.draftingSlots + s'.budgets p
  others : ∀ q, q ≠ p → s'.budgets q = s.budgets q

theorem spend_eq_ok_iff {budget tokens left : Nat} :
    spend budget tokens = .ok left ↔ budget = tokens + left := by
  simp only [spend, check_then_eq_ok_iff, ensure_eq_ok_iff, pure, Except.pure, Except.ok.injEq]
  omega

theorem live_schedulePrefillChunk (store : KvCacheStore acc n) (r : RequestId) (p q : Fin n)
    (tokens : Nat) :
    ((store.schedulePrefillChunk r p tokens).partitions q).liveDecodeCount =
      (store.partitions q).liveDecodeCount := by
  by_cases hq : q = p
  · subst hq
    simp [schedulePrefillChunk, ResidentPartitionState.addPrefillAdmit,
      ResidentPartitionState.liveDecodeCount, ResidentPartitionState.iterDecoding]
  · simp [schedulePrefillChunk, modifyPartition_of_ne _ _ hq]

omit [PendingOrderPolicy P] in
theorem chunkTokensOf_schedule {context : ResolvedPrefillContext}
    (hcontext : (w.store.ledger.viewOf r).context = some context) (p : Fin n) (tokens : Nat)
    (t : RequestId) :
    (w.issue (.schedulePrefillChunk r p tokens)).chunkTokensOf t =
      if t = r then tokens else w.chunkTokensOf t := by
  have hview := view_schedulePrefillChunk w.store r t p tokens
  have hchunk : ∀ w : ChunkedPrefillWorker P acc n, w.chunkTokensOf t =
      (w.store.ledger.viewOf t).context.elim 0 fun context => context.activeChunk.2 :=
    fun _ => rfl
  rw [hchunk, hchunk]
  refine (congrArg (fun view : RequestView n =>
    view.context.elim 0 fun context => context.activeChunk.2) hview).trans ?_
  by_cases ht : t = r
  · subst ht
    rw [if_pos rfl, if_pos rfl, hcontext]
    rfl
  · rw [if_neg ht, if_neg ht]

theorem Located.not_admitted (h : Located cfg w) (hr : w.store.phaseOf r = .chunked p)
    (hfresh : r ∉ (w.store.partitions p).prefillAdmits) (q : Fin n) :
    r ∉ (w.store.partitions q).prefillAdmits := by
  intro hmem
  rcases h.scheduled.placed q r hmem with hq | hq
  · rw [hr] at hq
    cases hq
    exact hfresh hmem
  · rw [hr] at hq
    cases hq

variable {s s' : Forming P acc n}

theorem FormStep.schedules (h : FormStep cfg s s')
    (hlocated : Located cfg s.worker) :
    (∃ p, s' = { s with worker := s.worker.refreshPolicy p }) ∨
      ∃ p r tokens, Schedules cfg s s' p r tokens := by
  cases h with
  | @chunk p before after c context budget tokens left available started fresh resolved _ positive
      spent =>
    have hat := hlocated.at_started (p := p) (c := c) (by simp [started])
    refine .inr ⟨p, c.requestId, tokens, hlocated.not_admitted hat.phase fresh,
      Nat.pos_of_ne_zero positive, fun q => admits_schedulePrefillChunk _ _ p q tokens,
      fun t => chunkTokensOf_schedule resolved p tokens t,
      fun q => live_schedulePrefillChunk _ _ p q tokens, ?_, fun q hq => ?_⟩
    · rw [available]
      simpa using spend_eq_ok_iff.mp spent
    · exact Function.update_of_ne hq ..
  | refresh p => exact .inl ⟨p, rfl⟩
  | @admitted p budget chunkBudget left slots slots' a worker available windows room gate claimed
      entered spent =>
    obtain ⟨hpeek, hresolved, hpositive, hfootprint, -⟩ := gateHead_spec gate
    obtain ⟨admitted, -, rfl⟩ := admitHead_spec entered
    obtain ⟨record, hrecord⟩ : ∃ record, record = admitted.stampStage .prefill := ⟨_, rfl⟩
    rw [← hrecord]
    have hwaiting := hlocated.at_waiting (mem_of_peek hpeek)
    have hpartitions : (reservedWorker s.worker p a record).store.partitions =
        s.worker.store.partitions :=
      s.worker.store.partitions_reserveChunkedPrefillContext ..
    have hview := fun t => view_reserveChunkedPrefillContext s.worker.store
      a.candidate.requestId t p a.resolvedPrefill a.footprint
    have hself := hview a.candidate.requestId
    rw [if_pos rfl] at hself
    have hchunk := fun t => chunkTokensOf_schedule (w := reservedWorker s.worker p a record)
      (congrArg RequestView.context hself) p a.chunkTokens t
    refine .inr ⟨p, a.candidate.requestId, a.chunkTokens,
      fun q hmem => hlocated.scheduled.not_absent hwaiting.phase q _ hmem rfl,
      Nat.pos_of_ne_zero hpositive, fun q => ?_, fun t => ?_, fun q => ?_, ?_, fun q hq => ?_⟩
    · exact (admits_schedulePrefillChunk _ _ p q a.chunkTokens).trans
        (congrArg (fun partitions : Fin n → ResidentPartitionState acc =>
          (partitions q).prefillAdmits ++ if q = p then [a.candidate.requestId] else [])
          hpartitions)
    · refine (hchunk t).trans ?_
      split
      · rfl
      · next ht =>
        have hother := hview t
        rw [if_neg ht] at hother
        exact congrArg (fun view : RequestView n =>
          view.context.elim 0 fun context => context.activeChunk.2) hother
    · exact (live_schedulePrefillChunk _ _ p q a.chunkTokens).trans
        (congrArg (fun partitions : Fin n → ResidentPartitionState acc =>
          (partitions q).liveDecodeCount) hpartitions)
    · rw [available]
      simpa using spend_eq_ok_iff.mp spent
    · exact Function.update_of_ne hq ..

/-! ## Verify windows -/

theorem remainingOutputTokens_congr {record record' : RequestRecord}
    (hdefinition : record'.definition = record.definition)
    (hemitted : record'.outputTokensEmitted = record.outputTokensEmitted) :
    record'.remainingOutputTokens = record.remainingOutputTokens := by
  simp only [RequestRecord.definition, RequestRecord.Definition.mk.injEq] at hdefinition
  obtain ⟨-, -, -, htarget, -⟩ := hdefinition
  simp only [RequestRecord.remainingOutputTokens, htarget, hemitted]

theorem Claims.of_chunk {c : AdmissionCandidate} {before after kept : List AdmissionCandidate}
    {tokens : Nat} {q : Fin n} (hlocated : Located cfg w) (hwidth : 1 < cfg.queryWidth)
    (hstarted : w.startedPrefills p = before ++ c :: after) (hkept : ∀ d ∈ kept, d = c)
    (h : Claims cfg { w.issue (.schedulePrefillChunk c.requestId p tokens) with
      startedPrefills := Function.update w.startedPrefills p (before ++ kept ++ after) } q r) :
    Claims cfg w q r := by
  have hat := hlocated.at_started (p := p) (c := c) (by simp [hstarted])
  have hop : StoreOp.Issuable w.store (.schedulePrefillChunk c.requestId p tokens) := hat.phase
  have hphase : (w.issue (.schedulePrefillChunk c.requestId p tokens)).store.phaseOf r =
      w.store.phaseOf r := phaseOf_apply hlocated.tracked hop
  have hadmits : ((w.issue (.schedulePrefillChunk c.requestId p tokens)).store.partitions
      q).prefillAdmits = _ := admits_schedulePrefillChunk w.store c.requestId p q tokens
  rcases h with ⟨hresident, hlive⟩ | ⟨hprefill, hleft⟩
  · exact .inl ⟨hphase.symm.trans hresident, hlive⟩
  · refine .inr ⟨?_, hleft⟩
    rcases hprefill with hmem | hmem
    · rcases List.mem_append.mp (hadmits ▸ hmem) with hold | hadded
      · exact .inl hold
      · split at hadded
        · next hq =>
          subst hq
          obtain rfl := List.mem_singleton.mp hadded
          exact .inr (mem_windowed.mpr ⟨hwidth, c, by simp [hstarted], rfl⟩)
        · cases hadded
    · obtain ⟨-, d, hd, rfl⟩ := mem_windowed.mp hmem
      refine .inr (mem_windowed.mpr ⟨hwidth, d, ?_, rfl⟩)
      by_cases hq : q = p
      · subst hq
        rw [hstarted]
        have hd : d ∈ before ++ kept ++ after := by simpa using hd
        rcases List.mem_append.mp hd with hd | hd
        · rcases List.mem_append.mp hd with hd | hd
          · exact List.mem_append_left _ hd
          · simp [hkept d hd]
        · exact List.mem_append_right _ (List.mem_cons_of_mem _ hd)
      · simpa [Function.update_of_ne hq] using hd

theorem Claims.congr (h : Claims cfg w' p r) (hentries : w'.entriesOf r = w.entriesOf r)
    (hadmits : r ∈ (w'.store.partitions p).prefillAdmits →
      r ∈ (w.store.partitions p).prefillAdmits) : Claims cfg w p r := by
  have hphase : w'.store.phaseOf r = w.store.phaseOf r := congrArg Entries.phase hentries
  have hrecord : w'.requests r = w.requests r := congrArg Entries.record hentries
  have hstarted : ofRequest r (w'.startedPrefills p) = ofRequest r (w.startedPrefills p) :=
    congrFun (congrArg Entries.started hentries) p
  refine h.recede (fun hr => hphase.symm.trans hr) hadmits (fun hr => ?_) (by rw [hrecord])
  obtain ⟨hwidth, c, hc, hcr⟩ := mem_windowed.mp hr
  have hmem := mem_ofRequest.mpr ⟨hc, hcr⟩
  rw [hstarted] at hmem
  exact mem_windowed.mpr ⟨hwidth, c, (mem_ofRequest.mp hmem).1, hcr⟩

theorem Claims.of_admitted {a : Admission} {budget : Nat} {slots : Option Nat} {q : Fin n}
    (hlocated : Located cfg w) (gate : gateHead cfg w p budget slots = some a)
    (entered : w.admitHead p a = .ok w') (h : Claims cfg w' q r) :
    Claims cfg w q r ∨
      q = p ∧ r = a.candidate.requestId ∧ 1 < a.candidate.remainingOutputTokens := by
  obtain ⟨hpeek, -, -, -, -⟩ := gateHead_spec gate
  have hwaiting := hlocated.at_waiting (mem_of_peek hpeek)
  have hadmits : (w'.store.partitions q).prefillAdmits =
      (w.store.partitions q).prefillAdmits ++ if q = p then [a.candidate.requestId] else [] :=
    admits_admitHead entered q
  by_cases hr : r = a.candidate.requestId
  · -- its own request is prefilled on `p` now, with the output its candidate has
    subst hr
    obtain ⟨hphase, hfits⟩ := hlocated.admitted hpeek entered
    rcases h with ⟨hresident, -⟩ | ⟨hprefill, hleft⟩
    · rw [hphase] at hresident
      cases hresident
    · refine .inr ⟨?_, rfl, hfits.remaining ▸ hleft⟩
      rcases hprefill with hmem | hmem
      · rw [hadmits] at hmem
        rcases List.mem_append.mp hmem with hold | hadded
        · exact absurd rfl (hlocated.scheduled.not_absent hwaiting.phase q _ hold)
        · split at hadded
          · next hq => exact hq
          · cases hadded
      · obtain ⟨-, d, hd, hdr⟩ := mem_windowed.mp hmem
        have hdq := ((hlocated.admitHead gate entered).at_started hd).phase
        have hsame : Phase.chunked q = Phase.chunked p :=
          hdq.symm.trans ((congrArg w'.store.phaseOf hdr).trans hphase)
        cases hsame
        rfl
  · refine .inl (h.congr (entriesOf_admitted hlocated hpeek entered hr) fun hmem => ?_)
    rw [hadmits] at hmem
    rcases List.mem_append.mp hmem with hold | hadded
    · exact hold
    · split at hadded
      · exact absurd (List.mem_singleton.mp hadded) hr
      · cases hadded

/-- The claimants of a partition fit in `room` with the verify windows it has left. -/
def Windows (cfg : ChunkedPrefillConfig n) (s : Forming P acc n) (p : Fin n) (room : Nat) : Prop :=
  ∃ left, s.slots p = some left ∧ (s.worker.claimants cfg p).card + left ≤ room

theorem FormStep.windows (h : FormStep cfg s s')
    (hlocated : Located cfg s.worker) (hwidth : 1 < cfg.queryWidth) {room : Nat}
    (hwindows : ∀ q, Windows cfg s q room) (q : Fin n) : Windows cfg s' q room := by
  have hlocated' := h.located hlocated
  obtain ⟨left, hleft, hroom⟩ := hwindows q
  cases h with
  | @chunk p before after c context budget tokens spare available started fresh resolved size
      positive spent =>
    have hle := card_claimants_le (p := q) hlocated hlocated' fun r hr =>
      Claims.of_chunk hlocated hwidth started
        (fun d hd => by
          split at hd
          · exact List.mem_singleton.mp hd
          · cases hd) hr
    exact ⟨left, hleft, by omega⟩
  | refresh p => exact ⟨left, hleft, hroom⟩
  | @admitted p budget chunkBudget spare slots slots' a worker available windows room' gate claimed
      entered spent =>
    by_cases hq : q = p
    · subst hq
      obtain rfl : slots = some left := windows.symm.trans hleft
      by_cases hclaims : 1 < a.candidate.remainingOutputTokens
      · -- the request's own claim takes a window
        have hinsert : (worker.claimants cfg q).card ≤ (s.worker.claimants cfg q).card + 1 := by
          refine le_trans (Finset.card_le_card fun r hr => ?_)
            (Finset.card_insert_le a.candidate.requestId _)
          rw [Finset.mem_insert, hlocated.mem_claimants_iff]
          rcases Claims.of_admitted hlocated gate entered (hlocated'.mem_claimants_iff.mp hr) with
            hold | ⟨-, hr, -⟩
          · exact .inr hold
          · exact .inl hr
        simp only [claimWindow, hclaims, if_true, bind_eq_ok_iff] at claimed
        obtain ⟨taken, htaken, hslots⟩ := claimed
        obtain rfl := Except.ok.inj hslots
        have hspend := spend_eq_ok_iff.mp htaken
        exact ⟨taken, Function.update_self .., by dsimp only; omega⟩
      · have hle := card_claimants_le (p := q) hlocated hlocated' fun r hr =>
          (Claims.of_admitted hlocated gate entered hr).resolve_right fun hown =>
            hclaims hown.2.2
        simp only [claimWindow, hclaims, if_false] at claimed
        obtain rfl := Except.ok.inj claimed
        exact ⟨left, Function.update_self .., by dsimp only at hle ⊢; omega⟩
    · have hle := card_claimants_le (p := q) hlocated hlocated' fun r hr =>
        (Claims.of_admitted hlocated gate entered hr).resolve_right fun hown => hq hown.1
      exact ⟨left, (Function.update_of_ne hq ..).trans hleft, by dsimp only at hle ⊢; omega⟩

/-! ## The budget -/

/-- Batch tokens the chunks of a partition spend with their drafting slots. -/
def chunkCharge (cfg : ChunkedPrefillConfig n) (w : ChunkedPrefillWorker P acc n) (p : Fin n) :
    Nat :=
  ((w.store.partitions p).prefillAdmits.map fun r => w.chunkTokensOf r + cfg.draftingSlots).sum

/-- The decodes, the chunks and the budget left of each partition are within the cap. -/
structure Within (cfg : ChunkedPrefillConfig n) (s : Forming P acc n) : Prop where
  spent : ∀ p, s.worker.liveDecodeCount p * cfg.decodeBudget + chunkCharge cfg s.worker p +
    s.budgets p ≤ cfg.maxBatchTokens
  positive : ∀ p, ∀ r ∈ (s.worker.store.partitions p).prefillAdmits, 0 < s.worker.chunkTokensOf r

omit [PendingOrderPolicy P] in
/-- A scheduled chunk adds its tokens and its drafting slots to its partition's charge. -/
theorem Schedules.chunkCharge {tokens : Nat}
    (h : Schedules cfg s s' p r tokens) (q : Fin n) :
    chunkCharge cfg s'.worker q =
      chunkCharge cfg s.worker q + if q = p then tokens + cfg.draftingSlots else 0 := by
  have hold : ∀ t ∈ (s.worker.store.partitions q).prefillAdmits,
      s'.worker.chunkTokensOf t + cfg.draftingSlots =
        s.worker.chunkTokensOf t + cfg.draftingSlots := fun t ht => by
    have hne : t ≠ r := fun heq => h.fresh q (heq ▸ ht)
    rw [h.chunk, if_neg hne]
  rw [ServingSim.chunkCharge, ServingSim.chunkCharge, h.admits, List.map_append, List.sum_append,
    List.map_congr_left hold]
  split
  · simp [h.chunk]
  · simp

theorem Within.step (h : Within cfg s) (hstep : FormStep cfg s s')
    (hlocated : Located cfg s.worker) : Within cfg s' := by
  rcases hstep.schedules hlocated with ⟨p, rfl⟩ | ⟨p, r, tokens, hschedules⟩
  · exact ⟨h.spent, h.positive⟩
  · refine ⟨fun q => ?_, fun q t ht => ?_⟩
    · have hspent := h.spent q
      rw [hschedules.live, hschedules.chunkCharge]
      by_cases hq : q = p
      · subst hq
        have hpaid := hschedules.spent
        rw [if_pos rfl]
        omega
      · rw [if_neg hq, hschedules.others q hq]
        omega
    · rw [hschedules.chunk]
      split
      · exact hschedules.positive
      · next hne =>
        rw [hschedules.admits, List.mem_append] at ht
        rcases ht with hold | hadded
        · exact h.positive q t hold
        · split at hadded
          · exact absurd (List.mem_singleton.mp hadded) hne
          · cases hadded

/-- The claimants' decode windows fit the cap. -/
def Affordable (cfg : ChunkedPrefillConfig n) (w : ChunkedPrefillWorker P acc n) : Prop :=
  ∀ p, (w.claimants cfg p).card * cfg.decodeBudget ≤ cfg.maxBatchTokens

theorem queryWidth_pos (cfg : ChunkedPrefillConfig n) : 0 < cfg.queryWidth := by
  unfold ChunkedPrefillConfig.queryWidth DecodeCompletion.queryTokensPerRequest
  split <;> omega

omit [PendingOrderPolicy P] in
/-- With one row for each decode the chunks themselves pay for the claims. -/
theorem Within.affordable_of_single {s : Forming P acc n} (h : Within cfg s)
    (hwidth : ¬ 1 < cfg.queryWidth) : Affordable cfg s.worker := by
  intro p
  have hone : cfg.queryWidth = 1 := by
    have := queryWidth_pos cfg
    omega
  have hcard : (s.worker.claimants cfg p).card ≤
      s.worker.liveDecodeCount p + (s.worker.store.partitions p).prefillAdmits.length := by
    refine (List.toFinset_card_le _).trans ?_
    rw [List.length_append, length_decodeStates, windowed, if_neg hwidth, List.append_nil]
    exact Nat.add_le_add_left (List.length_filter_le ..) _
  have hcharge : (s.worker.store.partitions p).prefillAdmits.length * cfg.decodeBudget ≤
      chunkCharge cfg s.worker p := by
    have hsum := List.card_nsmul_le_sum
      ((s.worker.store.partitions p).prefillAdmits.map fun r =>
        s.worker.chunkTokensOf r + cfg.draftingSlots) cfg.decodeBudget fun x hx => by
      obtain ⟨r, hr, rfl⟩ := List.mem_map.mp hx
      have hpositive := h.positive p r hr
      simp only [ChunkedPrefillConfig.decodeBudget, hone]
      omega
    simpa [ServingSim.chunkCharge] using hsum
  calc (s.worker.claimants cfg p).card * cfg.decodeBudget
      ≤ (s.worker.liveDecodeCount p + (s.worker.store.partitions p).prefillAdmits.length) *
          cfg.decodeBudget := Nat.mul_le_mul_right _ hcard
    _ = s.worker.liveDecodeCount p * cfg.decodeBudget +
          (s.worker.store.partitions p).prefillAdmits.length * cfg.decodeBudget := Nat.add_mul ..
    _ ≤ s.worker.liveDecodeCount p * cfg.decodeBudget + chunkCharge cfg s.worker p :=
        Nat.add_le_add_left hcharge _
    _ ≤ cfg.maxBatchTokens := (Nat.le_add_right _ _).trans (h.spent p)

omit [PendingOrderPolicy P] in
/-- With more rows for each decode the verify windows pay. -/
theorem affordable_of_windows {s : Forming P acc n}
    (h : ∀ p, Windows cfg s p (cfg.maxBatchTokens / cfg.decodeBudget)) :
    Affordable cfg s.worker := by
  intro p
  obtain ⟨left, -, hroom⟩ := h p
  have hle : (s.worker.claimants cfg p).card ≤ cfg.maxBatchTokens / cfg.decodeBudget := by omega
  exact (Nat.mul_le_mul_right _ hle).trans (Nat.div_mul_le_self _ _)

omit [PendingOrderPolicy P] in
/-- Before any chunk is scheduled a mixing engine is within the cap. -/
theorem within_start (hidle : Idle w) (hafford : Affordable cfg w)
    (hmix : cfg.mixesPrefillWithDecode = true) (slots : Fin n → Option Nat) :
    Within cfg ⟨w, w.remainingBudget cfg, slots⟩ := by
  refine ⟨fun p => ?_, fun p r hr => ?_⟩
  · have hlive : w.liveDecodeCount p * cfg.decodeBudget ≤ cfg.maxBatchTokens :=
      (Nat.mul_le_mul_right _ (live_le_claimants w p)).trans (hafford p)
    simp only [chunkCharge, hidle p, List.map_nil, List.sum_nil, remainingBudget, hmix, if_true]
    omega
  · simp only [hidle p] at hr
    cases hr

theorem windows_start (hlocated : Located cfg w) (hidle : Idle w) (hafford : Affordable cfg w)
    (hwidth : 1 < cfg.queryWidth) (budgets : Fin n → Nat) (p : Fin n) :
    Windows cfg ⟨w, budgets, w.futureDecodeSlots cfg⟩ p
      (cfg.maxBatchTokens / cfg.decodeBudget) := by
  have hbudget : 0 < cfg.decodeBudget := Nat.add_pos_left (queryWidth_pos cfg) _
  have hfit : (w.claimants cfg p).card ≤ cfg.maxBatchTokens / cfg.decodeBudget :=
    (Nat.le_div_iff_mul_le hbudget).mpr (hafford p)
  -- a candidate of a started prompt has the output its record has
  have hcandidates : ((w.startedPrefills p).map fun c => c.requestId).filter
        (fun r => 1 < (w.requests r).remainingOutputTokens) =
      ((w.startedPrefills p).filter fun c => c.remainingOutputTokens > 1).map
        fun c => c.requestId := by
    rw [List.filter_map]
    refine congrArg _ (List.filter_congr fun c hc => ?_)
    have hfits : c.Fits (w.requests c.requestId) := (hlocated.at_started hc).progress.1
    simp only [Function.comp_apply, hfits.remaining, gt_iff_lt]
    rfl
  have hcard : (w.claimants cfg p).card ≤ w.liveDecodeCount p +
      ((w.startedPrefills p).filter fun c => c.remainingOutputTokens > 1).length := by
    refine (List.toFinset_card_le _).trans (Nat.le_of_eq ?_)
    rw [List.length_append, length_decodeStates, hidle p, List.nil_append, windowed,
      if_pos hwidth, hcandidates, List.length_map]
  have hslots : w.futureDecodeSlots cfg p = some (cfg.maxBatchTokens / cfg.decodeBudget -
      w.liveDecodeCount p -
      ((w.startedPrefills p).filter fun c => c.remainingOutputTokens > 1).length) := if_pos hwidth
  refine ⟨_, hslots, ?_⟩
  dsimp only
  omega

theorem within_of_forming {s : Forming P acc n} (hlocated : Located cfg w) (hidle : Idle w)
    (hafford : Affordable cfg w) (hmix : cfg.mixesPrefillWithDecode = true)
    (h : ReflTransGen (FormStep cfg) ⟨w, w.remainingBudget cfg, w.futureDecodeSlots cfg⟩ s) :
    Within cfg s ∧ Affordable cfg s.worker := by
  have hpath : Located cfg s.worker ∧ Within cfg s ∧
      (1 < cfg.queryWidth → ∀ p, Windows cfg s p (cfg.maxBatchTokens / cfg.decodeBudget)) := by
    induction h with
    | refl =>
      exact ⟨hlocated, within_start hidle hafford hmix _,
        fun hwidth p => windows_start hlocated hidle hafford hwidth _ p⟩
    | tail _ hstep ih =>
      obtain ⟨hat, hwithin, hwindows⟩ := ih
      exact ⟨hstep.located hat, hwithin.step hstep hat,
        fun hwidth p => hstep.windows hat hwidth (hwindows hwidth) p⟩
  obtain ⟨-, hwithin, hwindows⟩ := hpath
  refine ⟨hwithin, ?_⟩
  by_cases hwidth : 1 < cfg.queryWidth
  · exact affordable_of_windows (hwindows hwidth)
  · exact hwithin.affordable_of_single hwidth

/-! ## The other steps -/

theorem Affordable.recede (hafford : Affordable cfg w) (h : Located cfg w) (h' : Located cfg w')
    (hclaims : ∀ p r, Claims cfg w' p r → Claims cfg w p r) : Affordable cfg w' := fun p =>
  (Nat.mul_le_mul_right _ (card_claimants_le h h' (hclaims p))).trans (hafford p)

theorem ChunkedPrefillWorker.Making.claims {config : BoundedFutureKvAdmissionConfig}
    {stepTokens : Nat}
    (h : Making config stepTokens w w') (hlocated : Located cfg w) (hidle : Idle w)
    (hclaims : Claims cfg w' p r) : Claims cfg w p r := by
  have hidle' := (h.located hlocated hidle).2
  have hadmits : r ∈ (w'.store.partitions p).prefillAdmits →
      r ∈ (w.store.partitions p).prefillAdmits := fun hr => by
    rw [hidle' p] at hr
    cases hr
  cases h with
  | prepare q =>
    have hphase : (w.issue (.prepareNextDecode q config.pageSize stepTokens)).store.phaseOf r =
        w.store.phaseOf r := phaseOf_apply hlocated.tracked
      (show StoreOp.Issuable w.store (.prepareNextDecode q config.pageSize stepTokens) from trivial)
    exact hclaims.recede (fun hr => hphase.symm.trans hr) hadmits id (Nat.le_refl _)
  | retract q victim live =>
    have hop : StoreOp.Issuable w.store (.release victim q) := by
      rw [StoreOp.Issuable, hlocated.resident_of_live live]
      rfl
    have hphase : ∀ t, (StoreOp.apply w.store (.release victim q)).phaseOf t =
        if t = victim then .absent else w.store.phaseOf t := fun t =>
      phaseOf_apply hlocated.tracked hop
    obtain ⟨c, f, record, -, -, -, -, -, -, hrecord, hw⟩ :=
      requeueRetracted_spec (w.issue (.release victim q)) q victim config.retractionPolicy
    rw [hw] at hclaims hadmits
    refine hclaims.recede (fun hr => ?_) hadmits id (Nat.le_of_eq ?_)
    · replace hr := (hphase r).symm.trans hr
      split at hr
      · cases hr
      · exact hr
    · by_cases hr : r = victim
      · subst hr
        refine (congrArg RequestRecord.remainingOutputTokens (Function.update_self ..)).trans ?_
        rw [hrecord]
        rfl
      · exact congrArg RequestRecord.remainingOutputTokens (Function.update_of_ne hr ..)
  | ratio x => exact hclaims

theorem affordable_of_making {config : BoundedFutureKvAdmissionConfig} {stepTokens : Nat}
    (h : ReflTransGen (Making config stepTokens) w w') (hlocated : Located cfg w) (hidle : Idle w)
    (hafford : Affordable cfg w) : Affordable cfg w' := by
  induction h with
  | refl => exact hafford
  | tail hpath hstep ih =>
    obtain ⟨hat, hfree⟩ := located_of_making hpath hlocated hidle
    exact ih.recede hat (hstep.located hat hfree).1 fun p r hr => hstep.claims hat hfree hr

theorem Completing.claims {q : Fin n} (h : Completing cfg q w w') (hlocated : Located cfg w)
    (hclaims : Claims cfg w' p r) : Claims cfg w p r := by
  cases h with
  | decoded step =>
    have hstep := hlocated.decodeStep step
    refine hclaims.recede (fun hr => (hstep.phase r).symm.trans hr) (fun hr => hstep.admits p ▸ hr)
      (fun hr => ?_) ?_
    · rw [hstep.frame] at hr
      exact hr
    · rcases hstep.credited r with hsame | ⟨-, tokens, -, hretired⟩
      · rw [hsame]
      · obtain ⟨hdefinition, hemitted, -⟩ := DecodeCompletion.retired_spec (w.requests r) tokens
        simp only [RequestRecord.definition, RequestRecord.Definition.mk.injEq] at hdefinition
        obtain ⟨-, -, -, htarget, -⟩ := hdefinition
        rw [hretired]
        simp only [RequestRecord.remainingOutputTokens, htarget, hemitted]
        omega
  | @prefilled _ s completed completed' admitted step =>
    have hstep := hlocated.completePrefill admitted step
    have hwindowed : r ∈ w'.windowed cfg p → r ∈ w.windowed cfg p := fun hr => by
      rw [hstep.frame] at hr
      exact hr
    by_cases hr : r = s
    · subst hr
      rcases hstep.credited with ⟨hphase, hemitted⟩ | ⟨hphase, hemitted⟩
      · -- it is still being prefilled
        refine hclaims.recede (fun hresident => ?_) (fun hmem => hstep.admits p ▸ hmem) hwindowed
          (Nat.le_of_eq (remainingOutputTokens_congr hstep.definition hemitted))
        rw [hphase] at hresident
        cases hresident
      · -- it decodes, with one token less to emit
        have hleft : (w'.requests r).remainingOutputTokens =
            (w.requests r).remainingOutputTokens - 1 := by
          have hdefinition := hstep.definition
          simp only [RequestRecord.definition, RequestRecord.Definition.mk.injEq] at hdefinition
          obtain ⟨-, -, -, htarget, -⟩ := hdefinition
          simp only [RequestRecord.remainingOutputTokens, htarget, hemitted]
          omega
        rcases hclaims with ⟨hresident, hlive⟩ | ⟨hprefill, hmore⟩
        · rw [hphase] at hresident
          cases hresident
          exact .inr ⟨.inl admitted, by omega⟩
        · exact .inr ⟨hprefill.imp (fun hmem => hstep.admits p ▸ hmem) hwindowed, by omega⟩
    · obtain ⟨hphase, hrecord⟩ := hstep.other hr
      exact hclaims.recede (fun hresident => hphase.symm.trans hresident)
        (fun hmem => hstep.admits p ▸ hmem) hwindowed (by rw [hrecord])
  | cleared =>
    have hphase : (w.issue (.clearPrefillAdmits q)).store.phaseOf r = w.store.phaseOf r :=
      congrArg Entries.phase (entriesOf_clear hlocated.tracked r)
    refine hclaims.recede (fun hr => hphase.symm.trans hr) (fun hr => ?_) id (Nat.le_refl _)
    have hmem := (admits_clearPrefillAdmits w.store q p) ▸ hr
    split at hmem
    · cases hmem
    · exact hmem
  | @finished s resident complete free =>
    refine hclaims.recede (fun hr => ?_)
      (fun hr => (admits_releaseRetainingPrefix w.store s q p) ▸ hr) id (Nat.le_refl _)
    have hop := issuable_releaseRetainingPrefix resident
    have hphase : (StoreOp.apply w.store (.releaseRetainingPrefix s q)).phaseOf r =
        if r = s then .absent else w.store.phaseOf r := phaseOf_apply hlocated.tracked hop
    replace hr := hphase.symm.trans hr
    split at hr
    · cases hr
    · exact hr

theorem affordable_of_completing (h : ReflTransGen (fun w w' => ∃ p, Completing cfg p w w') w w')
    (hlocated : Located cfg w) (hafford : Affordable cfg w) :
    Located cfg w' ∧ Affordable cfg w' := by
  induction h with
  | refl => exact ⟨hlocated, hafford⟩
  | tail _ hturn ih =>
    obtain ⟨q, hturn⟩ := hturn
    have hnext := hturn.located ih.1
    exact ⟨hnext, ih.2.recede ih.1 hnext fun p s hs => hturn.claims ih.1 hs⟩

theorem Claims.of_enqueue {s : RequestId} (hstep : w.acceptMessage cfg s = .ok w')
    (h : Claims cfg w' p r) : Claims cfg w p r := by
  obtain ⟨q, c, sequence, balance, -, -, -, -, -, rfl⟩ := acceptMessage_spec hstep
  refine h.recede id id id (Nat.le_of_eq ?_)
  by_cases hr : r = s
  · subst hr
    show (Function.update w.requests r ((w.requests r).stampStage .pending)
        r).remainingOutputTokens =
      (w.requests r).remainingOutputTokens
    rw [Function.update_self]
    rfl
  · exact congrArg RequestRecord.remainingOutputTokens (Function.update_of_ne hr ..)

theorem Claims.of_release {s : RequestId} (hlocated : Located cfg w)
    (h : Claims cfg (w.releaseRequest s) p r) : Claims cfg w p r := by
  have hsubset := (releaseRequest_frame w s).2 p
  rcases releaseRequest_cases w s with ⟨q, -, hw⟩ | ⟨-, episodes, -, hw⟩
  · rw [hw] at h
    exact h.recede id id id (Nat.le_refl _)
  · rw [hw] at h hsubset
    have hphase : (StoreOp.apply w.store (.releaseExternal s)).phaseOf r =
        if r = s then .absent else w.store.phaseOf r :=
      phaseOf_apply hlocated.tracked
          (show StoreOp.Issuable w.store (.releaseExternal s) from trivial)
    refine h.recede (fun hr => ?_) (fun hr => hsubset hr) (fun hr => ?_) (Nat.le_refl _)
    · replace hr := hphase.symm.trans hr
      split at hr
      · cases hr
      · exact hr
    · obtain ⟨hwidth, c, hc, rfl⟩ := mem_windowed.mp hr
      exact mem_windowed.mpr ⟨hwidth, c, (List.mem_filter.mp hc).1, rfl⟩

/-! ## Runs -/

/-- A formed batch of a mixing engine: what it schedules is within the cap, and the claimants
stay affordable. -/
structure FormedWithin (cfg : ChunkedPrefillConfig n)
    (w : ChunkedPrefillWorker P acc n) : Prop where
  afford : Affordable cfg w
  spent : ∀ p, w.liveDecodeCount p * cfg.decodeBudget + chunkCharge cfg w p ≤ cfg.maxBatchTokens
  positive : ∀ p, ∀ r ∈ (w.store.partitions p).prefillAdmits, 0 < w.chunkTokensOf r

theorem formedWithin_of_formBatch (hlocated : Located cfg w) (hidle : Idle w)
    (hafford : Affordable cfg w) (hmix : cfg.mixesPrefillWithDecode = true) {hasBatch : Bool}
    (hform : w.formBatch cfg = .ok (w', hasBatch)) : FormedWithin cfg w' := by
  obtain ⟨prepared, scheduled, hformed⟩ := formBatch_path hform
  have hprepared : Located cfg prepared ∧ Idle prepared ∧ Affordable cfg prepared := by
    have hplanned : Located cfg { w with batchPlan := fun _ => true } :=
      hlocated.of_eq rfl rfl rfl rfl rfl
    rcases hformed.before with rfl | ⟨config, retracted, -, -, hprepare⟩
    · exact ⟨hplanned, hidle, hafford⟩
    · have hpath := prepareDecode_path hprepare
      obtain ⟨hat, hfree⟩ := located_of_making hpath hplanned hidle
      exact ⟨hat, hfree, affordable_of_making hpath hplanned hidle hafford⟩
  obtain ⟨hat, hfree, hclaims⟩ := hprepared
  obtain ⟨retracted, hprefills⟩ := hformed.prefills
  obtain ⟨budgets, slots, hpath⟩ := schedulePrefills_path hat hfree hprefills
  obtain ⟨hwithin, hscheduled⟩ := within_of_forming hat hfree hclaims hmix hpath
  have hscheduled : FormedWithin cfg scheduled :=
    ⟨hscheduled, fun p => (Nat.le_add_right _ _).trans (hwithin.spent p), hwithin.positive⟩
  obtain ⟨planned, ready, hplanned, hready, rfl⟩ := hformed.after
  -- a mixing engine makes no room after the prefills
  obtain rfl : ready = planned := by
    rcases hready with hsame | ⟨-, config, retracted', -, hseparate, -⟩
    · exact hsame
    · rw [hmix] at hseparate
      cases hseparate
  rw [hplanned]
  unfold resetRatioWhenIdle
  split
  · split
    · exact ⟨hscheduled.afford, hscheduled.spent, hscheduled.positive⟩
    · exact ⟨hscheduled.afford, hscheduled.spent, hscheduled.positive⟩
  · exact ⟨hscheduled.afford, hscheduled.spent, hscheduled.positive⟩

theorem Affordable.step {op : WorkerOp} (h : Settled cfg w) (hafford : Affordable cfg w)
    (hmix : cfg.mixesPrefillWithDecode = true) (hop : op.Enabled w)
    (hstep : op.step cfg w = .ok w') : Affordable cfg w' := by
  have hsettled := h.step hop hstep
  cases op with
  | enqueue r =>
    exact hafford.recede h.located hsettled.located fun p s hs => Claims.of_enqueue hstep hs
  | formBatch =>
    obtain ⟨formed, hasBatch, hform, rfl⟩ := WorkerOp.step_formBatch hstep
    exact (formedWithin_of_formBatch h.located (h.idle hop) hafford hmix hform).afford
  | completeIteration =>
    obtain ⟨completed, events, hcomplete, rfl⟩ := WorkerOp.step_completeIteration hstep
    obtain ⟨hpath, -, -⟩ := completeIteration_path h.located hcomplete
    exact (affordable_of_completing hpath h.located hafford).2
  | release r =>
    obtain rfl := Except.ok.inj hstep
    exact hafford.recede h.located hsettled.located fun p s hs =>
      Claims.of_release h.located hs

omit [PendingOrderPolicy P] in
theorem affordable_new (cfg : ChunkedPrefillConfig n) (budget : PrefixCacheBudget)
    (requests : Requests) (policies : Fin n → P) (balance : LoadBalance) :
    Affordable cfg
      (ChunkedPrefillWorker.new cfg budget requests policies balance :
        ChunkedPrefillWorker P acc n) := by
  intro p
  have hnone : (ChunkedPrefillWorker.new cfg budget requests policies balance :
      ChunkedPrefillWorker P acc n).claimants cfg p = ∅ := by
    unfold claimants windowed
    split <;> rfl
  rw [hnone, Finset.card_empty, Nat.zero_mul]
  exact Nat.zero_le _

/-! ## The rows of a batch -/

theorem queryTokensAt_le (completion : DecodeCompletion) (residentKv : Nat) :
    completion.queryTokensAt residentKv ≤ completion.queryTokensPerRequest := by
  cases completion with
  | singleToken => exact Nat.le_refl _
  | speculative draftTokens maxModelLen accepts hpos => exact Nat.min_le_left _ _

omit [PendingOrderPolicy P] in
/-- A batch spends no more than its decodes' windows and its chunks' charge. -/
theorem batchTokens_le (w : ChunkedPrefillWorker P acc n) (p : Fin n) :
    batchTokens cfg w p ≤ w.liveDecodeCount p * cfg.decodeBudget + chunkCharge cfg w p := by
  have hmembers : ∀ members : List (RequestId × Nat),
      (members.map fun e => cfg.decodeCompletion.queryTokensAt e.2).sum ≤
        members.length * cfg.queryWidth := fun members => by
    have hsum := List.sum_le_card_nsmul
      (members.map fun e => cfg.decodeCompletion.queryTokensAt e.2) cfg.queryWidth fun x hx => by
        obtain ⟨e, -, rfl⟩ := List.mem_map.mp hx
        exact queryTokensAt_le _ _
    simpa using hsum
  have hlength : (if w.batchPlan p then (w.store.partitions p).decodeMembers else []).length ≤
      w.liveDecodeCount p := by
    split
    · simp [ChunkedPrefillWorker.liveDecodeCount, KvCacheStore.liveDecodeCount,
        ResidentPartitionState.liveDecodeCount, ResidentPartitionState.decodeMembers]
    · exact Nat.zero_le _
  have hcharge : chunkCharge cfg w p =
      ((w.store.partitions p).prefillAdmits.map w.chunkTokensOf).sum +
        (w.store.partitions p).prefillAdmits.length * cfg.draftingSlots := by
    rw [chunkCharge, List.sum_map_add]
    simp
  unfold batchTokens
  dsimp only
  rw [hcharge, ChunkedPrefillConfig.decodeBudget, Nat.mul_add, Nat.add_mul]
  have hrows := (hmembers
      (if w.batchPlan p then (w.store.partitions p).decodeMembers else [])).trans
    (Nat.mul_le_mul_right _ hlength)
  have hslots := Nat.mul_le_mul_right cfg.draftingSlots hlength
  omega

/-! ## No subtraction underflows -/

/-- The panic of an underflow. -/
abbrev overflow : String := "attempt to subtract with overflow"

theorem spend_ne_overflow {budget tokens : Nat} (h : tokens ≤ budget) :
    spend budget tokens ≠ .error overflow := by
  rw [spend_eq_ok_iff.mpr (Nat.add_sub_cancel' h).symm]
  exact nofun

theorem required_ne_overflow {α : Type} {knob : Option α} {message : String}
    (h : message ≠ overflow) : required knob message ≠ .error overflow := by
  cases knob with
  | none => exact fun heq => h (Except.error.inj heq)
  | some a => exact nofun

theorem ne_overflow_of_request {message : String} (h : message.toList.head? = some 'r') :
    message ≠ overflow := by
  intro heq
  rw [heq] at h
  exact absurd h (by decide)

theorem toString_request : toString "request " = "request " := rfl

theorem recordPrefixCacheHitTokens_ne_overflow (record : RequestRecord) (hit : Nat) :
    record.recordPrefixCacheHitTokens hit ≠ .error overflow :=
  bind_ne_error (ensure_ne_error (ne_overflow_of_request (by simp [toString_request]))) fun _ _ =>
    bind_ne_error (ensure_ne_error
        (ne_overflow_of_request (by simp [toString_request]))) fun _ _ => nofun

theorem beginReprocessedPrefill_ne_overflow (record : RequestRecord) (hit : Nat) :
    record.beginReprocessedPrefill hit ≠ .error overflow :=
  bind_ne_error (ensure_ne_error
      (ne_overflow_of_request (by simp [toString_request]))) fun _ _ => nofun

omit [PendingOrderPolicy P] in
theorem scheduleStarted_ne_overflow (p : Fin n) (rest : List AdmissionCandidate)
    (w : ChunkedPrefillWorker P acc n) (budget : Nat) :
    scheduleStarted cfg p rest w budget ≠ .error overflow := by
  induction rest generalizing w budget with
  | nil => exact ok_ne_error _ _
  | cons candidate rest ih =>
    simp only [scheduleStarted]
    refine bind_ne_error (required_ne_overflow (by decide)) fun resolved _ => ?_
    have hchunk := nextChunkTokens_le resolved (budget - cfg.draftingSlots) cfg.chunkEndAlignment
      cfg.maxBatchTokens
    split
    · exact bind_ne_error (ih w budget) fun _ _ => ok_ne_error _ _
    · refine bind_ne_error (spend_ne_overflow (by omega)) fun left _ => ?_
      exact bind_ne_error (ih _ left) fun _ _ => ok_ne_error _ _

theorem admitHead_ne_overflow (w : ChunkedPrefillWorker P acc n) (p : Fin n) (a : Admission) :
    w.admitHead p a ≠ .error overflow := by
  simp only [admitHead]
  refine bind_ne_error ?_ fun _ _ =>
    bind_ne_error (ensure_ne_error (by decide)) fun _ _ => ok_ne_error _ _
  refine bind_ne_error ?_ fun _ _ => ok_ne_error _ _
  split
  · exact beginReprocessedPrefill_ne_overflow _ _
  · exact recordPrefixCacheHitTokens_ne_overflow _ _

theorem admitFresh_ne_overflow (p : Fin n) (fuel : Nat) (w : ChunkedPrefillWorker P acc n)
    (budget : Nat) (slots : Option Nat) :
    admitFresh cfg p fuel w budget slots ≠ .error overflow := by
  induction fuel generalizing w budget slots with
  | zero => exact ok_ne_error _ _
  | succ fuel ih =>
    simp only [admitFresh]
    split
    · next hroom =>
      refine bind_ne_error (spend_ne_overflow (Nat.le_of_lt hroom)) fun chunkBudget hspent => ?_
      have hbudget := spend_eq_ok_iff.mp hspent
      split
      · exact ok_ne_error _ _
      · next a hgate =>
        obtain ⟨-, -, -, -, -, hchunk, hwindow⟩ := gateHead_spec hgate
        refine bind_ne_error ?_ fun slots' _ => bind_ne_error (admitHead_ne_overflow _ p a)
          fun admitted _ => bind_ne_error (spend_ne_overflow (by omega)) fun left _ => ih _ _ _
        unfold claimWindow
        split
        · exact ok_ne_error _ _
        · next windows =>
          split
          · next hdecodes =>
            have hsome : windows ≠ 0 := fun hzero => hwindow ⟨hdecodes, by rw [hzero]⟩
            exact bind_ne_error (spend_ne_overflow (by omega)) fun _ _ => ok_ne_error _ _
          · exact ok_ne_error _ _
    · exact ok_ne_error _ _

omit [PendingOrderPolicy P] in
theorem selectRetraction_ne_overflow (w : ChunkedPrefillWorker P acc n) (p : Fin n)
    (policy : DecodeRetractionPolicy) : w.selectRetraction p policy ≠ .error overflow := by
  have hlast : ∀ victim : Option RequestId, required victim
      "decode shortfall requires a retraction candidate" ≠ .error overflow := fun victim =>
    required_ne_overflow (by decide)
  cases policy with
  | length => exact hlast _
  | fcfs =>
    refine bind_ne_error (bind_ne_error (foldlM_ne_error (fun victim request => ?_) _ _)
      fun _ _ => nofun) fun victim _ => hlast victim
    exact bind_ne_error (required_ne_overflow (by decide)) fun _ _ => nofun

theorem prepareDecode_ne_overflow (w : ChunkedPrefillWorker P acc n)
    (config : BoundedFutureKvAdmissionConfig) (stepTokens : Nat) :
    w.prepareDecode config stepTokens ≠ .error overflow := by
  have hfits : ∀ p fuel (state : ChunkedPrefillWorker P acc n × Bool),
      retractUntilFits config stepTokens p fuel state ≠ .error overflow := by
    intro p fuel
    induction fuel with
    | zero => exact fun _ => ok_ne_error _ _
    | succ fuel ih =>
      intro state
      obtain ⟨w, retracted⟩ := state
      simp only [retractUntilFits]
      split
      · split
        · refine bind_ne_error ?_ fun evicted _ => ih _
          exact bind_ne_error (ensure_ne_error (by decide)) fun _ _ =>
            bind_ne_error (selectRetraction_ne_overflow _ _ _) fun _ _ => ok_ne_error _ _
        · exact ok_ne_error _ _
      · exact ok_ne_error _ _
  exact bind_ne_error (foldlM_ne_error (fun state p => hfits p _ state) _ _) fun _ _ =>
    ok_ne_error _ _

theorem formBatch_ne_overflow (w : ChunkedPrefillWorker P acc n) :
    w.formBatch cfg ≠ .error overflow := by
  simp only [formBatch]
  refine bind_ne_error ?_ fun prepared _ => bind_ne_error ?_ fun scheduled _ =>
    bind_ne_error ?_ fun _ _ => ok_ne_error _ _
  · unfold prepareBeforeAdmission
    split
    · split
      · exact prepareDecode_ne_overflow _ _ _
      · exact ok_ne_error _ _
    · exact ok_ne_error _ _
  · refine bind_ne_error (foldlM_ne_error (fun state p => ?_) _ _) fun state _ => ?_
    · exact bind_ne_error (scheduleStarted_ne_overflow _ _ _ _) fun _ _ => ok_ne_error _ _
    · obtain ⟨scheduled, budgets⟩ := state
      dsimp only
      split
      · exact ok_ne_error _ _
      · exact foldlM_ne_error (fun w p => admitFresh_ne_overflow _ _ _ _ _) _ _
  · unfold prepareDecodeOnly
    split
    · split
      · exact bind_ne_error (prepareDecode_ne_overflow _ _ _) fun _ _ => ok_ne_error _ _
      · exact ok_ne_error _ _
    · exact ok_ne_error _ _

/-! ## The cap -/

/-- Every batch that a mixing engine forms in a run spends at most its cap on each partition:
no subtraction of its budgets underflows, and every scheduled chunk is positive. -/
theorem mix_token_budget (h : Reached cfg w) (hmix : cfg.mixesPrefillWithDecode = true)
    (hready : WorkerOp.formBatch.Enabled w) :
    w.formBatch cfg ≠ .error overflow ∧ ∀ w' hasBatch, w.formBatch cfg = .ok (w', hasBatch) → ∀ p,
        batchTokens cfg w' p ≤ cfg.maxBatchTokens ∧
        ∀ r ∈ (w'.store.partitions p).prefillAdmits, 0 < w'.chunkTokensOf r := by
  obtain ⟨hsettled, hafford⟩ := h.invariant
    (fun budget requests policies balance _ _ =>
        affordable_new cfg budget requests policies balance)
    fun w op w' hsettled hafford hop hstep => hafford.step hsettled hmix hop hstep
  refine ⟨formBatch_ne_overflow w, fun w' hasBatch hform p => ?_⟩
  have hformed := formedWithin_of_formBatch hsettled.located (hsettled.idle hready) hafford hmix
    hform
  exact ⟨(batchTokens_le w' p).trans (hformed.spent p), hformed.positive p⟩

/-- A speculating engine with a cap of ten tokens, three for each decode. -/
def tenTokenCap : ChunkedPrefillConfig 1 where
  maxBatchTokens := 10
  batchPolicy := .mix
  kvAdmission := .fullFootprint
  chunkEndAlignment := none
  decodeCompletion := .speculative 1 100 (fun _ _ _ => true) Nat.one_pos
  draftingSlots := 1
  maxBatchTokens_pos := by decide
  partitions_pos := Nat.one_pos
  onePartition := ChunkedPrefillConfig.onePartition_fullFootprint
  quantum_pos := ChunkedPrefillConfig.quantum_pos_none

/-- Prompts of twelve tokens with four to emit. -/
def twelveTokenPrompts : Requests := fun r => RequestRecord.fromRequest r 0 12 4 .standalone

theorem mix_token_budget_two :
    ∃ w : ChunkedPrefillWorker PendingOrder (KvAccounting.tokensForTest 100 (by decide)) 1,
      w.formBatch tenTokenCap ≠ .error overflow ∧
      ∀ w' hasBatch, w.formBatch tenTokenCap = .ok (w', hasBatch) → ∀ p,
        batchTokens tenTokenCap w' p ≤ 10 ∧
        ∀ r ∈ (w'.store.partitions p).prefillAdmits, 0 < w'.chunkTokensOf r := by
  have hchecked : ∃ w : ChunkedPrefillWorker PendingOrder
      (KvAccounting.tokensForTest 100 (by decide)) 1,
      Run.tryRun (WorkerOp.step tenTokenCap)
        (ChunkedPrefillWorker.new tenTokenCap .disabled twelveTokenPrompts (fun _ => .new .fifo)
          .single)
        [.enqueue 1, .enqueue 2, .formBatch, .completeIteration, .formBatch,
          .completeIteration] = .ok w ∧ decide (w.computing = false) = true :=
    exists_ok_of_check (by decide +kernel)
  obtain ⟨w, hrun, hready⟩ := hchecked
  have hreached : Reached tenTokenCap w :=
    ⟨.disabled, twelveTokenPrompts, fun _ => .new .fifo, .single, _, fun _ => rfl, fun _ => rfl,
      by decide +kernel, hrun⟩
  exact ⟨w, mix_token_budget hreached rfl (of_decide_eq_true hready)⟩

end ServingSim
