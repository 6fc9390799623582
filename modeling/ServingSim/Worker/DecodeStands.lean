import ServingSim.Worker.PrefillStands
import ServingSim.Worker.PullDecode

/-
  What a decode worker knows about a request.

  `DecodeView` is the account of one request: the worker waits to pull it, is pulling it,
  has its KV but no room for it, or decodes it on a partition. `DecodeStands` says that
  the worker's tables are those of a view of all requests, that what is landed and in
  transit keeps the pull budget, and that the KV of a decode is its context and one token
  for each one it emitted after the first.
-/

namespace ServingSim

open Custody

/-- Where a request is, as one decode worker sees it. -/
inductive DecodeView (m n : Nat) where
  | elsewhere
  /-- Held at a prefill worker and not submitted yet. -/
  | queued (prefillWorker : Fin m)
  | pulling (prefillWorker : Fin m)
  /-- The KV is here, in no partition yet. -/
  | landed
  | decoding (partition : Fin n)
  deriving DecidableEq, Repr

namespace DecodeView

variable {m n : Nat}

/-- The phase the store has a request in. -/
def phase : DecodeView m n → Phase n
  | decoding p => .resident p
  | elsewhere | queued _ | pulling _ | landed => .absent

/-- The prefill worker that still holds the request. -/
def source : DecodeView m n → Option (Fin m)
  | queued i | pulling i => some i
  | elsewhere | landed | decoding _ => none

end DecodeView

namespace RequestRecord

variable (record : RequestRecord)

theorem targetOutputTokens_recordToken :
    record.recordToken.targetOutputTokens = record.targetOutputTokens :=
  congrArg Definition.targetOutputTokens record.definition_recordToken

theorem remainingOutputTokens_recordToken :
    record.recordToken.remainingOutputTokens = record.remainingOutputTokens - 1 := by
  rw [remainingOutputTokens, targetOutputTokens_recordToken, outputTokensEmitted_recordToken,
    remainingOutputTokens]
  omega

theorem isComplete_recordToken :
    record.recordToken.isComplete = true ↔ record.remainingOutputTokens ≤ 1 := by
  rw [isComplete, targetOutputTokens_recordToken, outputTokensEmitted_recordToken,
    remainingOutputTokens, decide_eq_true_eq]
  omega

end RequestRecord

theorem update_of_view {σ : Type} {view : RequestId → σ} {r e : RequestId} {v v' s : σ}
    (hr : view r = v) (he : view e = v') (hne : v' ≠ v) : Function.update view r s e = v' := by
  rw [Function.update_of_ne, he]
  rintro rfl
  exact hne (he.symm.trans hr)

namespace PullPipeline

variable {m n : Nat} (pipeline : PullPipeline m)

/-- Token counts of what is landed and in transit. -/
def backlog : List Nat :=
  pipeline.pendingDecodes.map Prod.snd ++ pipeline.inFlight.toList.map fun pull => pull.tokens

theorem pullBacklogTokens_eq : pipeline.pullBacklogTokens = pipeline.backlog.sum := by
  rw [pullBacklogTokens, pipeline.pendingDecodeTokens_eq, backlog, List.sum_append]
  cases pipeline.inFlight <;> simp

/-- The backlog fits the budget, or is one request alone. -/
def WithinBudget (budget : Nat) : Prop :=
  pipeline.pullBacklogTokens ≤ budget ∨ pipeline.pullBacklogTokens ∈ pipeline.backlog

/-- The pipeline's tables are those of the view. -/
structure PullStands (trace : RequestId → RequestRecord) (budget : Nat)
    (view : RequestId → DecodeView m n) : Prop where
  queued : Lists (pipeline.pendingPulls.map Prod.fst) fun r => ∃ i, view r = .queued i
  asked : ∀ e ∈ pipeline.pendingPulls, view e.1 = .queued e.2.prefillWorker ∧
    e.2.tokens = (trace e.1).contextTokens
  pulling : Lists (pipeline.inFlight.toList.map fun pull => pull.request)
    fun r => ∃ i, view r = .pulling i
  pulled : ∀ pull ∈ pipeline.inFlight, view pull.request = .pulling pull.prefillWorker ∧
    pull.tokens = (trace pull.request).contextTokens
  landed : Lists (pipeline.pendingDecodes.map Prod.fst) fun r => view r = .landed
  kept : ∀ e ∈ pipeline.pendingDecodes, e.2 = (trace e.1).contextTokens
  budget : pipeline.WithinBudget budget

namespace PullStands

variable {trace : RequestId → RequestRecord} {budget : Nat} {pipeline : PullPipeline m}
  {view : RequestId → DecodeView m n} {r : RequestId} {i : Fin m}

theorem new (trace : RequestId → RequestRecord) (budget : Nat) :
    (PullPipeline.new m).PullStands trace budget fun _ => (.elsewhere : DecodeView m n) where
  queued := .nil fun r hr => by obtain ⟨i, hi⟩ := hr; cases hi
  asked := fun e he => by cases he
  pulling := .nil fun r hr => by obtain ⟨i, hi⟩ := hr; cases hi
  pulled := fun e he => by cases he
  landed := .nil fun r hr => by cases hr
  kept := fun e he => by cases he
  budget := .inl (Nat.zero_le _)

theorem handoff (h : pipeline.PullStands trace budget view) (hr : view r = .elsewhere)
    {transfer : TransferPlan m} (hsource : transfer.prefillWorker = i)
    (htokens : transfer.tokens = (trace r).contextTokens) :
    { pipeline with pendingPulls := pipeline.pendingPulls ++ [(r, transfer)] }.PullStands trace
      budget (Function.update view r (.queued i)) where
  queued := by
    refine (h.queued.enter (R := fun v => ∃ i, v = DecodeView.queued i) ?_ ⟨i, rfl⟩).perm ?_
    · rw [hr]
      simp
    · rw [List.map_append]
      exact List.perm_append_singleton _ _
  asked := fun e he => by
    rcases List.mem_append.mp he with he | he
    · obtain ⟨hview, htokens⟩ := h.asked e he
      exact ⟨update_of_view hr hview (by simp), htokens⟩
    · cases List.mem_singleton.mp he
      rw [Function.update_self]
      exact ⟨congrArg _ hsource.symm, htokens⟩
  pulling := h.pulling.stay (R := fun v => ∃ i, v = DecodeView.pulling i) (by rw [hr]; simp)
  pulled := fun pull hp => by
    obtain ⟨hview, htokens⟩ := h.pulled pull hp
    exact ⟨update_of_view hr hview (by simp), htokens⟩
  landed := h.landed.stay (R := (· = DecodeView.landed)) (by rw [hr]; simp)
  kept := h.kept
  budget := h.budget

theorem land {pull : InFlightPull m} (h : pipeline.PullStands trace budget view)
    (hpull : pipeline.inFlight = some pull) :
    { pipeline.land pull.request pull.tokens with inFlight := none }.PullStands trace budget
      (Function.update view pull.request .landed) where
  queued := by
    refine h.queued.stay (R := fun v => ∃ i, v = DecodeView.queued i) ?_
    rw [(h.pulled pull hpull).1]
    simp
  asked := fun e he => by
    obtain ⟨hview, htokens⟩ := h.asked e he
    exact ⟨update_of_view (h.pulled pull hpull).1 hview (by simp), htokens⟩
  pulling := by
    have hpulling := h.pulling
    rw [hpull] at hpulling
    exact hpulling.leave (R := fun v => ∃ i, v = DecodeView.pulling i) (by simp)
  pulled := fun pull hp => by cases hp
  landed := by
    refine (h.landed.enter (R := (· = DecodeView.landed)) ?_ rfl).perm ?_
    · rw [(h.pulled pull hpull).1]
      simp
    · rw [PullPipeline.land, List.map_append]
      exact List.perm_append_singleton _ _
  kept := fun e he => by
    rcases List.mem_append.mp he with he | he
    · exact h.kept e he
    · cases List.mem_singleton.mp he
      exact (h.pulled pull hpull).2
  budget := by
    have hbudget := h.budget
    simp only [WithinBudget, pullBacklogTokens, backlog, hpull, PullPipeline.land, Option.map_some,
      Option.getD_some, Option.map_none, Option.getD_none, Option.toList_some, Option.toList_none,
      List.map_cons, List.map_nil, List.map_append, List.append_nil, Nat.add_zero] at hbudget ⊢
    exact hbudget

theorem submit {transfer : TransferPlan m} {rest : List (RequestId × TransferPlan m)}
    (h : pipeline.PullStands trace budget view) (hidle : pipeline.inFlight = none)
    (hpending : pipeline.pendingPulls = (r, transfer) :: rest)
    (hadmits : pipeline.Admits budget transfer.tokens) (pullEnd : Time) :
    { pipeline with
      pendingPulls := rest
      inFlight := some ⟨r, pullEnd, transfer.prefillWorker, transfer.tokens⟩ }.PullStands trace
      budget (Function.update view r (.pulling transfer.prefillWorker)) := by
  have hasked := h.asked (r, transfer) (by rw [hpending]; exact List.mem_cons_self)
  have hqueued := h.queued
  rw [hpending] at hqueued
  have hpulling := h.pulling
  rw [hidle] at hpulling
  refine ⟨hqueued.leave (R := fun v => ∃ i, v = DecodeView.queued i) (by simp), fun e he => ?_,
    hpulling.enter (R := fun v => ∃ i, v = DecodeView.pulling i) ?_ ⟨_, rfl⟩, fun pull hp => ?_,
    h.landed.stay (R := (· = DecodeView.landed)) ?_, h.kept, ?_⟩
  · obtain ⟨hview, htokens⟩ := h.asked e (by rw [hpending]; exact List.mem_cons_of_mem _ he)
    have hne : e.1 ≠ r := by
      rintro rfl
      exact (List.nodup_cons.mp hqueued.nodup).1 (List.mem_map.mpr ⟨e, he, rfl⟩)
    exact ⟨by rw [Function.update_of_ne hne, hview], htokens⟩
  · rw [hasked.1]
    simp
  · cases hp
    exact ⟨Function.update_self .., hasked.2⟩
  · rw [hasked.1]
    simp
  · rcases hadmits with hfits | ⟨hempty, -⟩
    · left
      simp only [pullBacklogTokens, hidle, Option.map_none, Option.getD_none, Nat.add_zero,
        Option.map_some, Option.getD_some] at hfits ⊢
      exact hfits
    · right
      simp only [pullBacklogTokens, hidle, Option.map_none, Option.getD_none, Nat.add_zero,
        Option.map_some, Option.getD_some, backlog, Option.toList_some, List.map_cons,
        List.map_nil] at hempty ⊢
      rw [hempty, Nat.zero_add]
      exact List.mem_append_right _ List.mem_cons_self

theorem popLanded {tokens : Nat} {rest : List (RequestId × Nat)}
    (h : pipeline.PullStands trace budget view)
    (hpending : pipeline.pendingDecodes = (r, tokens) :: rest) (p : Fin n) :
    pipeline.popLanded.PullStands trace budget (Function.update view r (.decoding p)) := by
  have hlanded := h.landed
  rw [hpending] at hlanded
  have hr : view r = .landed := hlanded.head
  have hrest : pipeline.popLanded.pendingDecodes = rest := congrArg List.tail hpending
  refine ⟨h.queued.stay (R := fun v => ∃ i, v = DecodeView.queued i) (by rw [hr]; simp),
    fun e he => ?_, h.pulling.stay (R := fun v => ∃ i, v = DecodeView.pulling i) (by rw [hr]; simp),
    fun pull hp => ?_, ?_, fun e he => ?_, ?_⟩
  · obtain ⟨hview, htokens⟩ := h.asked e he
    exact ⟨update_of_view hr hview (by simp), htokens⟩
  · obtain ⟨hview, htokens⟩ := h.pulled pull hp
    exact ⟨update_of_view hr hview (by simp), htokens⟩
  · rw [hrest]
    exact hlanded.leave (R := (· = DecodeView.landed)) (by simp)
  · refine h.kept e ?_
    rw [hpending]
    rw [hrest] at he
    exact List.mem_cons_of_mem _ he
  · -- taking one entry out leaves the sum below the budget, or leaves the one large entry
    have hmem : pipeline.backlog = tokens :: pipeline.popLanded.backlog := by
      rw [backlog, backlog, hrest, hpending]
      rfl
    have hle : pipeline.pullBacklogTokens = tokens + pipeline.popLanded.pullBacklogTokens := by
      rw [pullBacklogTokens_eq, pullBacklogTokens_eq, hmem, List.sum_cons]
    rcases h.budget with hbudget | hbudget
    · left
      omega
    · rw [hmem, List.mem_cons] at hbudget
      rcases hbudget with hbudget | hbudget
      · left
        omega
      · -- the large entry is still there, so what left was empty
        have hsum := List.single_le_sum (fun _ _ => Nat.zero_le _) _ hbudget
        rw [← pullBacklogTokens_eq] at hsum
        have hsame : pipeline.popLanded.pullBacklogTokens = pipeline.pullBacklogTokens := by omega
        exact .inr (hsame ▸ hbudget)

end PullStands

end PullPipeline

namespace PullDecodeWorker

variable {acc : KvAccounting} {m k n : Nat}

/-- A decode holds its context and the tokens emitted after the first one, and has the
rest of its output to go. -/
def DecodesAs (trace records : RequestId → RequestRecord) (kv : KvCacheStore acc n) (p : Fin n)
    (r : RequestId) : Prop :=
  ∃ state, kv.decodeOf p r = some state ∧
    state.currentKv + 1 = (trace r).contextTokens + (records r).outputTokensEmitted ∧
    state.remainingDecode = (records r).remainingOutputTokens ∧
    0 < (records r).remainingOutputTokens

/-- The worker's tables are those of the view. -/
structure DecodeStands (trace records : RequestId → RequestRecord) (budget : Nat)
    (w : PullDecodeWorker acc m n) (view : RequestId → DecodeView m n) : Prop where
  pulls : w.pulls.PullStands trace budget view
  tracked : w.kv.Tracked
  phase : ∀ r, w.kv.phaseOf r = (view r).phase
  decoding : ∀ r p, view r = .decoding p → DecodesAs trace records w.kv p r
  balance : w.balance.needsLoad = false

namespace DecodeStands

variable {trace records : RequestId → RequestRecord} {budget : Nat}
  {w : PullDecodeWorker acc m n} {view : RequestId → DecodeView m n}

theorem new (trace records : RequestId → RequestRecord) (budget : Nat) {balance : LoadBalance}
    (hbalance : balance.needsLoad = false) :
    DecodeStands trace records budget (.new m n balance : PullDecodeWorker acc m n)
      fun _ => .elsewhere where
  pulls := .new trace budget
  tracked := KvCacheStore.tracked_new _
  phase := fun r => rfl
  decoding := fun r p hr => by cases hr
  balance := hbalance

theorem congr_records (h : DecodeStands trace records budget w view)
    {records' : RequestId → RequestRecord}
    (hrecords : ∀ r p, view r = .decoding p → records' r = records r) :
    DecodeStands trace records' budget w view :=
  { h with
    decoding := fun r p hr => by
      rw [DecodesAs, hrecords r p hr]
      exact h.decoding r p hr }

theorem movePull (h : DecodeStands trace records budget w view) {r : RequestId}
    {s : DecodeView m n} (hr : ∀ p, view r ≠ .decoding p) (hs : ∀ p, s ≠ .decoding p)
    {pulls : PullPipeline m} (hpulls : pulls.PullStands trace budget (Function.update view r s)) :
    DecodeStands trace records budget { w with pulls := pulls } (Function.update view r s) := by
  have habsent : ∀ v : DecodeView m n, (∀ p, v ≠ .decoding p) → v.phase = .absent := by
    intro v hv
    cases v with
    | decoding p => exact absurd rfl (hv p)
    | _ => rfl
  refine ⟨hpulls, h.tracked, fun q => ?_, fun q p hq => ?_, h.balance⟩
  · by_cases hqr : q = r
    · subst hqr
      rw [Function.update_self, h.phase, habsent _ hr, habsent _ hs]
    · rw [Function.update_of_ne hqr, h.phase]
  · by_cases hqr : q = r
    · subst hqr
      rw [Function.update_self] at hq
      exact absurd hq (hs p)
    · rw [Function.update_of_ne hqr] at hq
      exact h.decoding q p hq

/-! ## Messages -/

theorem handoff (cfg : PdDecodeConfig acc k n) (idx : Fin k)
    (h : DecodeStands trace records budget w view) (world : World) {r : RequestId}
    (hr : view r = .elsewhere) (sendGid : Nat) (i : Fin m) :
    DecodeStands trace records budget
      (w.enqueue cfg idx world (.handoff r sendGid (trace r).contextTokens i))
      (Function.update view r (.queued i)) :=
  h.movePull (fun p => by rw [hr]; simp) (fun p => by simp) (h.pulls.handoff hr rfl rfl)

end DecodeStands

/-! ## Pulls -/

/-- What a worker's pulls did: the requests that landed, each with the worker that still
holds it, and what was submitted. -/
structure PullMoves (view view' : RequestId → DecodeView m n)
    (landed : List (RequestId × Fin m)) : Prop where
  nodup : (landed.map Prod.fst).Nodup
  named : ∀ e ∈ landed, (view e.1).source = some e.2 ∧ view' e.1 = .landed
  others : ∀ r, r ∉ landed.map Prod.fst →
    view' r = view r ∨ ∃ i, view r = .queued i ∧ view' r = .pulling i

namespace PullMoves

variable {view view' view'' : RequestId → DecodeView m n}
    {landed landed' : List (RequestId × Fin m)}

theorem refl (view : RequestId → DecodeView m n) : PullMoves view view [] where
  nodup := List.nodup_nil
  named := fun e he => by cases he
  others := fun r _ => .inl rfl

theorem lands {r : RequestId} {i : Fin m} (hr : view r = .pulling i) :
    PullMoves view (Function.update view r .landed) [(r, i)] where
  nodup := List.nodup_singleton _
  named := fun e he => by
    cases List.mem_singleton.mp he
    exact ⟨by rw [hr]; rfl, Function.update_self ..⟩
  others := fun s hs => by
    rw [List.map_singleton, List.mem_singleton] at hs
    exact .inl (Function.update_of_ne hs ..)

theorem submits {r : RequestId} {i : Fin m} (hr : view r = .queued i) :
    PullMoves view (Function.update view r (.pulling i)) [] where
  nodup := List.nodup_nil
  named := fun e he => by cases he
  others := fun s _ => by
    by_cases hs : s = r
    · subst hs
      exact .inr ⟨i, hr, Function.update_self ..⟩
    · exact .inl (Function.update_of_ne hs ..)

theorem trans (h : PullMoves view view' landed) (h' : PullMoves view' view'' landed') :
    PullMoves view view'' (landed ++ landed') where
  nodup := by
    rw [List.map_append, List.nodup_append']
    refine ⟨h.nodup, h'.nodup, fun r hr hr' => ?_⟩
    -- what has landed is not pulled again
    obtain ⟨e, he, rfl⟩ := List.mem_map.mp hr
    obtain ⟨e', he', heq⟩ := List.mem_map.mp hr'
    have hsource := (h'.named e' he').1
    rw [heq, (h.named e he).2] at hsource
    cases hsource
  named := fun e he => by
    rcases List.mem_append.mp he with he | he
    · obtain ⟨hsource, hlanded⟩ := h.named e he
      refine ⟨hsource, ?_⟩
      by_cases hagain : e.1 ∈ landed'.map Prod.fst
      · obtain ⟨e', he', heq⟩ := List.mem_map.mp hagain
        rw [← heq]
        exact (h'.named e' he').2
      · rcases h'.others e.1 hagain with hsame | ⟨i, hi, -⟩
        · rw [hsame, hlanded]
        · rw [hlanded] at hi
          cases hi
    · obtain ⟨hsource, hlanded⟩ := h'.named e he
      refine ⟨?_, hlanded⟩
      by_cases hbefore : e.1 ∈ landed.map Prod.fst
      · obtain ⟨e', he', heq⟩ := List.mem_map.mp hbefore
        rw [← heq, (h.named e' he').2] at hsource
        cases hsource
      · rcases h.others e.1 hbefore with hsame | ⟨i, hi, hi'⟩
        · rwa [hsame] at hsource
        · rw [hi'] at hsource
          rw [hi]
          exact hsource
  others := fun r hr => by
    rw [List.map_append, List.mem_append, not_or] at hr
    rcases h.others r hr.1 with hsame | ⟨i, hi, hi'⟩
    · rw [← hsame]
      exact h'.others r hr.2
    · rcases h'.others r hr.2 with hsame | ⟨i', hi'', -⟩
      · exact .inr ⟨i, hi, hsame.trans hi'⟩
      · rw [hi'] at hi''
        cases hi''

end PullMoves

/-- The event of a landed pull. -/
def landedEvent (idx : Fin k) (e : RequestId × Fin m) : PdDecodeEvent m k :=
  .pullComplete idx e.1 e.2

namespace DecodeStands

variable {trace records : RequestId → RequestRecord} {budget : Nat}
  {w : PullDecodeWorker acc m n} {view : RequestId → DecodeView m n}

theorem landDue_spec (idx : Fin k) (h : DecodeStands trace records budget w view) (now : Time) :
    ∃ (pulls : PullPipeline m) (landed : List (RequestId × Fin m))
      (view' : RequestId → DecodeView m n),
      w.landDue idx now = ({ w with pulls := pulls }, landed.map (landedEvent idx)) ∧
      DecodeStands trace records budget { w with pulls := pulls } view' ∧
      PullMoves view view' landed ∧ pulls.pendingPulls = w.pulls.pendingPulls := by
  unfold landDue
  cases hflight : w.pulls.inFlight with
  | none => exact ⟨w.pulls, [], view, rfl, h, .refl view, rfl⟩
  | some pull =>
    dsimp only
    split
    · exact ⟨w.pulls, [], view, rfl, h, .refl view, rfl⟩
    · have hview := (h.pulls.pulled pull hflight).1
      exact ⟨_, [(pull.request, pull.prefillWorker)], _, rfl,
        h.movePull (fun p => by rw [hview]; simp) (fun p => by simp) (h.pulls.land hflight),
        .lands hview, rfl⟩

theorem submitHead_spec (cfg : PdDecodeConfig acc k n)
    (h : DecodeStands trace records cfg.pullBudgetTokens w view) (now : Time)
    (cluster : GpuCluster) :
    (w.submitHead cfg now cluster = none ∧
        (w.pulls.inFlight = none → w.pulls.pendingPulls ≠ [] → w.pulls.pendingDecodes ≠ [])) ∨
      ∃ (pulls : PullPipeline m) (cluster' : GpuCluster) (view' : RequestId → DecodeView m n),
        w.submitHead cfg now cluster = some ({ w with pulls := pulls }, cluster') ∧
        DecodeStands trace records cfg.pullBudgetTokens { w with pulls := pulls } view' ∧
        PullMoves view view' [] ∧
        pulls.pendingPulls.length + 1 = w.pulls.pendingPulls.length := by
  unfold submitHead
  cases hflight : w.pulls.inFlight with
  | some pull => exact .inl ⟨rfl, fun hn => by cases hn⟩
  | none =>
    cases hpending : w.pulls.pendingPulls with
    | nil => exact .inl ⟨rfl, fun _ hne => absurd rfl hne⟩
    | cons e rest =>
      obtain ⟨r, transfer⟩ := e
      dsimp only
      split
      · rename_i hadmits
        have hview := (h.pulls.asked (r, transfer) (by rw [hpending]; exact List.mem_cons_self)).1
        exact .inr ⟨_, _, _, rfl, h.movePull (fun p => by rw [hview]; simp) (fun p => by simp)
            (h.pulls.submit hflight hpending hadmits _),
          .submits hview, by rw [List.length_cons]⟩
      · rename_i hfull
        -- an empty backlog admits any pull
        refine .inl ⟨rfl, fun _ _ hnone => hfull ?_⟩
        have hempty : w.pulls.pullBacklogTokens = 0 := by
          rw [PullPipeline.pullBacklogTokens_eq, PullPipeline.backlog, hnone, hflight]
          rfl
        rw [PullPipeline.Admits, hempty]
        omega

theorem advanceLoop_spec (cfg : PdDecodeConfig acc k n) (idx : Fin k) (now : Time) (fuel : Nat)
    (h : DecodeStands trace records cfg.pullBudgetTokens w view) (cluster : GpuCluster)
    (hfuel : w.pulls.pendingPulls.length < fuel) :
    ∃ (pulls : PullPipeline m) (cluster' : GpuCluster) (landed : List (RequestId × Fin m))
      (view' : RequestId → DecodeView m n),
      advanceLoop cfg idx now fuel w cluster =
        ({ w with pulls := pulls }, cluster', landed.map (landedEvent idx)) ∧
      DecodeStands trace records cfg.pullBudgetTokens { w with pulls := pulls } view' ∧
      PullMoves view view' landed ∧
      (pulls.inFlight = none → pulls.pendingPulls ≠ [] → pulls.pendingDecodes ≠ []) := by
  induction fuel generalizing w view cluster with
  | zero => exact absurd hfuel (Nat.not_lt_zero _)
  | succ fuel ih =>
    obtain ⟨pulls₁, landed₁, view₁, hland, h₁, hmoves₁, hsame⟩ := h.landDue_spec idx now
    rw [advanceLoop, hland]
    dsimp only
    rcases h₁.submitHead_spec cfg now cluster with ⟨hnone, hstalled⟩ | ⟨pulls₂, cluster₂, view₂,
      hsubmit, h₂, hmoves₂, hlength⟩
    · rw [hnone]
      exact ⟨pulls₁, cluster, landed₁, view₁, rfl, h₁, hmoves₁, hstalled⟩
    · rw [hsubmit]
      dsimp only at hlength ⊢
      obtain ⟨pulls₃, cluster₃, landed₃, view₃, hloop, h₃, hmoves₃, hstalled⟩ :=
        ih h₂ cluster₂ (by dsimp only; rw [hsame] at hlength; omega)
      rw [hloop]
      refine ⟨pulls₃, cluster₃, landed₁ ++ landed₃, view₃, ?_, h₃,
        hmoves₁.trans (hmoves₂.trans hmoves₃), hstalled⟩
      rw [List.map_append]

end DecodeStands

/-- The records after one more token of each request of a list. -/
structure NextTokens (world world' : World) (P : RequestId → Prop) : Prop where
  cluster : world'.cluster = world.cluster
  arrived : world'.arrived = world.arrived
  others : ∀ r, ¬ P r → world'.requests r = world.requests r
  emitted : ∀ r, P r → world'.requests r = (world.requests r).recordToken

theorem NextTokens.refl (world : World) {P : RequestId → Prop} (h : ∀ r, ¬ P r) :
    NextTokens world world P :=
  ⟨rfl, rfl, fun _ _ => rfl, fun r hr => absurd hr (h r)⟩

theorem foldl_emitToken {members : List RequestId} (hnodup : members.Nodup) (world : World)
    (completed : List RequestId) :
    ∃ world', members.foldl emitToken (world, completed) = (world', completed ++
          members.filter fun r => (world.requests r).recordToken.isComplete) ∧
      NextTokens world world' (· ∈ members) := by
  induction members generalizing world completed with
  | nil => exact ⟨world, by simp, .refl world fun r hr => by cases hr⟩
  | cons r members ih =>
    obtain ⟨hr, hnodup⟩ := List.nodup_cons.mp hnodup
    set emitted := world.modifyRequest r fun _ => (world.requests r).recordToken with hemitted
    obtain ⟨world', hloop, hnext⟩ := ih hnodup emitted
      (if (world.requests r).recordToken.isComplete then completed ++ [r] else completed)
    have hrest : ∀ s ∈ members, emitted.requests s = world.requests s := fun s hs =>
      world.modifyRequest_of_ne (fun heq : s = r => hr (heq ▸ hs)) _
    refine ⟨world', ?_, hnext.cluster, hnext.arrived, fun s hs => ?_, fun s hs => ?_⟩
    · have hfilter : (members.filter fun s => (emitted.requests s).recordToken.isComplete) =
          members.filter fun s => (world.requests s).recordToken.isComplete :=
        List.filter_congr fun s hs => by rw [hrest s hs]
      refine hloop.trans ?_
      rw [hfilter, List.filter_cons]
      split <;> simp
    · rw [List.mem_cons, not_or] at hs
      rw [hnext.others s hs.2]
      exact world.modifyRequest_of_ne hs.1 _
    · by_cases hsr : s = r
      · subst hsr
        rw [hnext.others s hr, hemitted, World.modifyRequest_self]
      · have hs := (List.mem_cons.mp hs).resolve_left hsr
        rw [hnext.emitted s hs, hrest s hs]

theorem foldl_release {p : Fin n} {requests : List RequestId} (hnodup : requests.Nodup)
    {kv : KvCacheStore acc n} (htracked : kv.Tracked)
    (hphase : ∀ r ∈ requests, kv.phaseOf r = .resident p) :
    (requests.foldl (fun kv r => kv.release r p) kv).Tracked ∧
      (∀ r, (requests.foldl (fun kv r => kv.release r p) kv).phaseOf r =
        if r ∈ requests then .absent else kv.phaseOf r) ∧
      ∀ r, r ∉ requests → ∀ q,
        (requests.foldl (fun kv r => kv.release r p) kv).decodeOf q r = kv.decodeOf q r := by
  induction requests generalizing kv with
  | nil => exact ⟨htracked, fun r => by simp, fun r _ q => rfl⟩
  | cons r requests ih =>
    obtain ⟨hr, hnodup⟩ := List.nodup_cons.mp hnodup
    have hop : (StoreOp.release r p).Issuable kv := by
      rw [StoreOp.Issuable, hphase r List.mem_cons_self]
      rfl
    have hphase' : ∀ s, (kv.release r p).phaseOf s = if s = r then .absent else kv.phaseOf s :=
      fun s => KvCacheStore.phaseOf_apply htracked hop
    obtain ⟨htracked', hmoved, hsame⟩ := ih hnodup (KvCacheStore.tracked_apply htracked hop)
      fun s hs => by
        have hne : s ≠ r := fun heq => hr (heq ▸ hs)
        exact (hphase' s).trans ((if_neg hne).trans (hphase s (List.mem_cons_of_mem _ hs)))
    refine ⟨htracked', fun s => ?_, fun s hs q => ?_⟩
    · rw [List.foldl_cons]
      refine (hmoved s).trans ?_
      by_cases hs : s = r
      · subst hs
        simp only [hr, if_false, List.mem_cons, true_or, if_true]
        exact (hphase' s).trans (if_pos rfl)
      · have hkept := (hphase' s).trans (if_neg hs)
        simp only [List.mem_cons, hs, false_or]
        split
        · rfl
        · exact hkept
    · rw [List.mem_cons, not_or] at hs
      rw [List.foldl_cons]
      exact (hsame s hs.2 q).trans (kv.decodeOf_release_of_ne q hs.1 p)

/-- Where a request is after one more token. -/
def emittedView (records : RequestId → RequestRecord) (P : Fin n → Prop) [DecidablePred P]
    (view : RequestId → DecodeView m n) (r : RequestId) : DecodeView m n :=
  match view r with
  | .decoding p =>
    if P p ∧ (records r).recordToken.isComplete then .elsewhere else .decoding p
  | other => other

section emittedView

variable {records : RequestId → RequestRecord} {P : Fin n → Prop} [DecidablePred P]
  {view : RequestId → DecodeView m n} {r : RequestId}

theorem emittedView_decoding {p : Fin n} (hr : view r = .decoding p) :
    emittedView records P view r =
      if P p ∧ (records r).recordToken.isComplete then .elsewhere else .decoding p := by
  rw [emittedView, hr]

theorem emittedView_of_not_decoding (hr : ∀ p, view r ≠ .decoding p) :
    emittedView records P view r = view r := by
  unfold emittedView
  split
  · rename_i p hp
    exact absurd hp (hr p)
  · rfl

theorem emittedView_eq_iff {v : DecodeView m n} (hv : ∀ p, v ≠ .decoding p)
    (helse : v ≠ .elsewhere) : emittedView records P view r = v ↔ view r = v := by
  by_cases hr : ∃ p, view r = .decoding p
  · obtain ⟨p, hp⟩ := hr
    rw [emittedView_decoding hp, hp]
    split
    · exact ⟨fun heq => absurd heq.symm helse, fun heq => absurd heq.symm (hv p)⟩
    · rfl
  · rw [emittedView_of_not_decoding (not_exists.mp hr)]

theorem decoding_of_emittedView {p : Fin n} (h : emittedView records P view r = .decoding p) :
    view r = .decoding p ∧ ¬ (P p ∧ (records r).recordToken.isComplete = true) := by
  by_cases hr : ∃ q, view r = .decoding q
  · obtain ⟨q, hq⟩ := hr
    rw [emittedView_decoding hq] at h
    split at h
    · cases h
    · rename_i hlive
      cases h
      exact ⟨hq, hlive⟩
  · rw [emittedView_of_not_decoding (not_exists.mp hr)] at h
    exact absurd ⟨p, h⟩ hr

end emittedView

namespace DecodeStands

variable {trace records : RequestId → RequestRecord} {budget : Nat}
  {w : PullDecodeWorker acc m n} {view : RequestId → DecodeView m n}

theorem mem_decodeMembers (h : DecodeStands trace records budget w view) (p : Fin n)
    (r : RequestId) :
    r ∈ (w.kv.partitions p).decodeMembers.map Prod.fst ↔ view r = .decoding p := by
  rw [ResidentPartitionState.decodeMembers, ResidentPartitionState.iterDecoding, List.map_map]
  simp only [List.mem_map, List.mem_filter, decide_eq_true_eq, Function.comp_apply]
  constructor
  · rintro ⟨e, ⟨he, -⟩, rfl⟩
    have hresident : w.kv.Resident p e.1 := List.mem_map_of_mem he
    rw [(h.tracked e.1).resident, h.phase] at hresident
    cases hv : view e.1 <;> rw [hv] at hresident <;> simp_all [DecodeView.phase]
  · intro hr
    obtain ⟨state, hstate, -, hremaining, hlive⟩ := h.decoding r p hr
    refine ⟨(r, state), ⟨(SlotList.get?_eq_some_iff _ _ _).mp hstate, ?_⟩, rfl⟩
    rw [hremaining]
    exact hlive

theorem nodup_decodeMembers (w : PullDecodeWorker acc m n) (p : Fin n) :
    ((w.kv.partitions p).decodeMembers.map Prod.fst).Nodup := by
  rw [ResidentPartitionState.decodeMembers, ResidentPartitionState.iterDecoding, List.map_map]
  exact (w.kv.partitions p).decodes.keys_nodup.sublist (List.filter_sublist.map _)

theorem completePartition_spec (idx : Fin k) (p : Fin n) {kv : KvCacheStore acc n} {world : World}
    (h : DecodeStands trace world.requests budget { w with kv := kv } view)
    (events : List (PdDecodeEvent m k)) :
    EndsWith (Overfill acc.capacityUnits) (completePartition idx (kv, world, events) p) ∨
    ∃ (kv' : KvCacheStore acc n) (world' : World) (completed : List RequestId),
      completePartition idx (kv, world, events) p =
        .ok (kv', world', events ++ completed.map (.requestComplete idx)) ∧
      DecodeStands trace world'.requests budget { w with kv := kv' }
        (emittedView world.requests (· = p) view) ∧
      NextTokens world world' (fun r => view r = .decoding p) ∧
      Lists completed
        fun r => view r = .decoding p ∧ (world.requests r).recordToken.isComplete = true := by
  set members := (kv.partitions p).decodeMembers.map Prod.fst with hmembers
  have hlists : Lists members fun r => view r = .decoding p :=
    ⟨nodup_decodeMembers { w with kv := kv } p, h.mem_decodeMembers p⟩
  obtain ⟨world', hemit, hnext⟩ := foldl_emitToken hlists.nodup world []
  have hcompleted := hlists.filter fun r => (world.requests r).recordToken.isComplete
  rw [List.nil_append] at hemit
  set completed := members.filter fun r => (world.requests r).recordToken.isComplete with hfilter
  rw [completePartition]
  simp only [bind, Except.bind]
  rw [← hmembers, hemit]
  rcases kv.tryAdvance_ok_or p 1 with hfail | hadvance
  · exact .inl (hfail.bind _)
  rw [hadvance]
  refine .inr ?_
  -- the partition grows as a whole, then what is complete leaves
  set grown := kv.advance (.wholePartition p) 1 with hgrown
  have hop : (StoreOp.advance (.wholePartition p) 1).Issuable kv := trivial
  have hgrownPhase : ∀ r, grown.phaseOf r = (view r).phase := fun r =>
    (KvCacheStore.phaseOf_apply h.tracked hop).trans (h.phase r)
  have hgrownTracked : grown.Tracked := KvCacheStore.tracked_apply h.tracked hop
  obtain ⟨htracked, hphase, hsame⟩ := foldl_release hcompleted.nodup hgrownTracked (p := p)
    fun r hr => by
      rw [hgrownPhase, ((hcompleted.mem_iff r).mp hr).1]
      rfl
  have hnext' : NextTokens world world' (fun r => view r = .decoding p) :=
    ⟨hnext.cluster, hnext.arrived, fun r hr => hnext.others r fun hm =>
        hr ((hlists.mem_iff r).mp hm),
      fun r hr => hnext.emitted r ((hlists.mem_iff r).mpr hr)⟩
  refine ⟨completed.foldl (fun kv r => kv.release r p) grown, world', completed, rfl,
    ⟨?_, htracked, fun r => ?_, fun r q hr => ?_, h.balance⟩, hnext', hcompleted⟩
  · -- the pipeline sees no decode
    refine ⟨h.pulls.queued.congr fun r => exists_congr fun i =>
        (emittedView_eq_iff (by simp) (by simp)).symm, fun e he => ?_,
      h.pulls.pulling.congr fun r => exists_congr fun i =>
        (emittedView_eq_iff (by simp) (by simp)).symm, fun pull hp => ?_,
      h.pulls.landed.congr fun r => (emittedView_eq_iff (by simp) (by simp)).symm, h.pulls.kept,
      h.pulls.budget⟩
    · obtain ⟨hview, htokens⟩ := h.pulls.asked e he
      exact ⟨(emittedView_eq_iff (by simp) (by simp)).mpr hview, htokens⟩
    · obtain ⟨hview, htokens⟩ := h.pulls.pulled pull hp
      exact ⟨(emittedView_eq_iff (by simp) (by simp)).mpr hview, htokens⟩
  · refine (hphase r).trans ?_
    have hmem := hcompleted.mem_iff r
    rw [hgrownPhase]
    by_cases hr : ∃ q, view r = .decoding q
    · obtain ⟨q, hq⟩ := hr
      rw [hq] at hmem
      simp only [DecodeView.decoding.injEq] at hmem
      rw [emittedView_decoding hq]
      by_cases hdone : q = p ∧ (world.requests r).recordToken.isComplete = true
      · rw [if_pos (hmem.mpr hdone), if_pos hdone]
        rfl
      · rw [if_neg fun hm => hdone (hmem.mp hm), if_neg hdone, hq]
    · rw [emittedView_of_not_decoding (not_exists.mp hr), if_neg fun hm => hr ⟨p, (hmem.mp hm).1⟩]
  · obtain ⟨hview, hlive⟩ := decoding_of_emittedView hr
    obtain ⟨state, hstate, hcurrent, hremaining, hpos⟩ := h.decoding r q hview
    have hkept : r ∉ completed := fun hm => by
      obtain ⟨hp, hdone⟩ := (hcompleted.mem_iff r).mp hm
      rw [hview] at hp
      exact hlive ⟨DecodeView.decoding.inj hp, hdone⟩
    have hdecode : (completed.foldl (fun kv r => kv.release r p) grown).decodeOf q r =
        some (if p = q then state.advanceBy 1 else state) := by
      have hsimple : (AdvanceScope.wholePartition p).Simple := trivial
      rw [hsame r hkept q, hgrown, kv.decodeOf_advance hsimple 1 q r, hstate]
      rfl
    by_cases hq : p = q
    · subst hq
      have hrecord := hnext'.emitted r hview
      have htoken : ¬ (world.requests r).recordToken.isComplete = true := fun hdone =>
        hlive ⟨rfl, hdone⟩
      obtain ⟨hkv, hleft⟩ := state.advanceBy_spec 1
      refine ⟨state.advanceBy 1, by rw [hdecode, if_pos rfl], ?_, ?_, ?_⟩
      · rw [hrecord, hkv, RequestRecord.outputTokensEmitted_recordToken, hremaining]
        omega
      · rw [hrecord, hleft, hremaining, RequestRecord.remainingOutputTokens_recordToken]
      · rw [hrecord, RequestRecord.remainingOutputTokens_recordToken]
        rw [RequestRecord.isComplete_recordToken] at htoken
        omega
    · refine ⟨state, by rw [hdecode, if_neg hq], ?_⟩
      rw [hnext'.others r fun hd => hq (DecodeView.decoding.inj (hd.symm.trans hview))]
      exact ⟨hcurrent, hremaining, hpos⟩

theorem foldl_completePartition (idx : Fin k) {l : List (Fin n)} (hl : l.Nodup)
    {kv : KvCacheStore acc n} {world : World}
    (h : DecodeStands trace world.requests budget { w with kv := kv } view)
    (events : List (PdDecodeEvent m k)) :
    EndsWith (Overfill acc.capacityUnits) (l.foldlM (completePartition idx) (kv, world, events)) ∨
    ∃ (kv' : KvCacheStore acc n) (world' : World) (completed : List RequestId),
      l.foldlM (completePartition idx) (kv, world, events) =
        .ok (kv', world', events ++ completed.map (.requestComplete idx)) ∧
      DecodeStands trace world'.requests budget { w with kv := kv' }
        (emittedView world.requests (· ∈ l) view) ∧
      NextTokens world world' (fun r => ∃ p ∈ l, view r = .decoding p) ∧
      Lists completed fun r => (∃ p ∈ l, view r = .decoding p) ∧
        (world.requests r).recordToken.isComplete = true := by
  induction l generalizing kv world view events with
  | nil =>
    have hview : emittedView world.requests (· ∈ ([] : List (Fin n))) view = view := by
      funext r
      by_cases hr : ∃ p, view r = .decoding p
      · obtain ⟨p, hp⟩ := hr
        rw [emittedView_decoding hp, if_neg (by simp), hp]
      · exact emittedView_of_not_decoding (not_exists.mp hr)
    exact .inr ⟨kv, world, [], by simp [pure, Except.pure], by rw [hview]; exact h,
        .refl world fun r hr => by simp at hr,
      .nil fun r hr => by simp at hr⟩
  | cons p l ih =>
    obtain ⟨hp, hl⟩ := List.nodup_cons.mp hl
    rw [List.foldlM_cons]
    rcases h.completePartition_spec idx p events with hfail | ⟨kv₁, world₁, completed₁, hstep, h₁,
      hnext₁, hlists₁⟩
    · exact .inl (hfail.bind _)
    rw [hstep]
    rcases ih hl h₁ (events ++ completed₁.map (.requestComplete idx)) with hfail | ⟨kv₂, world₂,
      completed₂, hloop, h₂, hnext₂, hlists₂⟩
    · exact .inl hfail
    refine .inr ?_
    -- the rest of the partitions sees the requests of `p` no more
    have hrest : ∀ r, (∃ q ∈ l, emittedView world.requests (· = p) view r = .decoding q) ↔
        ∃ q ∈ l, view r = .decoding q := by
      intro r
      refine exists_congr fun q => and_congr_right fun hq => ?_
      have hne : q ≠ p := fun heq => hp (heq ▸ hq)
      refine ⟨fun hr => (decoding_of_emittedView hr).1, fun hr => ?_⟩
      rw [emittedView_decoding hr, if_neg fun hd => hne hd.1]
    have hsame : ∀ r, (∃ q ∈ l, view r = .decoding q) → world₁.requests r = world.requests r := by
      rintro r ⟨q, hq, hr⟩
      refine hnext₁.others r fun hd => hp ?_
      rw [hr] at hd
      exact DecodeView.decoding.inj hd ▸ hq
    have hview : emittedView world₁.requests (· ∈ l) (emittedView world.requests (· = p) view) =
        emittedView world.requests (· ∈ p :: l) view := by
      funext r
      by_cases hr : ∃ q, view r = .decoding q
      · obtain ⟨q, hq⟩ := hr
        have hfirst : emittedView world.requests (· = p) view r = _ := emittedView_decoding hq
        rw [emittedView_decoding hq]
        by_cases hdone : q = p ∧ (world.requests r).recordToken.isComplete = true
        · rw [if_pos hdone] at hfirst
          rw [if_pos ⟨by rw [hdone.1]; exact List.mem_cons_self, hdone.2⟩]
          rw [emittedView_of_not_decoding (fun q' => by rw [hfirst]; simp), hfirst]
        · rw [if_neg hdone] at hfirst
          rw [emittedView_decoding hfirst]
          by_cases hql : q ∈ l
          · rw [hsame r ⟨q, hql, hq⟩]
            simp [hql]
          · have hnot : ¬ (q ∈ p :: l ∧ (world.requests r).recordToken.isComplete = true) := by
              rintro ⟨hmem, hcomplete⟩
              exact hdone ⟨(List.mem_cons.mp hmem).resolve_right hql, hcomplete⟩
            rw [if_neg fun hd => hql hd.1, if_neg hnot]
      · have hnone := not_exists.mp hr
        have hfirst : emittedView world.requests (· = p) view r = view r :=
          emittedView_of_not_decoding hnone
        rw [emittedView_of_not_decoding hnone, emittedView_of_not_decoding fun q hq =>
          hnone q (hfirst ▸ hq), hfirst]
    refine ⟨kv₂, world₂, completed₁ ++ completed₂, ?_, hview ▸ h₂,
      ⟨hnext₂.cluster.trans hnext₁.cluster, hnext₂.arrived.trans hnext₁.arrived, fun r hr => ?_,
        fun r hr => ?_⟩, ?_⟩
    · refine (hloop : _ = _).trans ?_
      rw [List.append_assoc, List.map_append]
    · simp only [List.mem_cons, exists_eq_or_imp, not_or] at hr
      rw [hnext₂.others r fun hd => hr.2 ((hrest r).mp hd), hnext₁.others r hr.1]
    · simp only [List.mem_cons, exists_eq_or_imp] at hr
      rcases hr with hr | hr
      · rw [hnext₂.others r, hnext₁.emitted r hr]
        rw [hrest, hr]
        rintro ⟨q, hq, hqp⟩
        exact hp (DecodeView.decoding.inj hqp ▸ hq)
      · rw [hnext₂.emitted r ((hrest r).mpr hr), hsame r hr]
    · refine (hlists₁.append hlists₂ fun r hr hr' => ?_).congr fun r => ?_
      · obtain ⟨q, hq, hqr⟩ := (hrest r).mp hr'.1
        rw [hr.1] at hqr
        exact hp (DecodeView.decoding.inj hqr ▸ hq)
      · simp only [List.mem_cons, exists_eq_or_imp, hrest]
        rw [or_and_right]
        refine or_congr_right (and_congr_right fun hr => ?_)
        rw [hsame r hr]

theorem complete (idx : Fin k) {world : World}
    (h : DecodeStands trace world.requests budget w view) :
    EndsWith (Overfill acc.capacityUnits) (w.completeIteration idx world) ∨
    ∃ (kv' : KvCacheStore acc n) (world' : World) (completed : List RequestId),
      w.completeIteration idx world = .ok ({ w with kv := kv', computeEnd := none }, world',
        completed.map (.requestComplete idx)) ∧
      DecodeStands trace world'.requests budget { w with kv := kv', computeEnd := none }
        (emittedView world.requests (fun _ => True) view) ∧
      NextTokens world world' (fun r => ∃ p, view r = .decoding p) ∧
      Lists completed fun r => (∃ p, view r = .decoding p) ∧
        (world.requests r).recordToken.isComplete = true := by
  rw [completeIteration]
  rcases h.foldl_completePartition idx (List.nodup_finRange n) [] with hfail | ⟨kv', world',
    completed, hloop, h', hnext, hlists⟩
  · exact .inl (hfail.bind _)
  rw [hloop]
  simp only [List.mem_finRange, true_and] at hnext hlists
  have hview : emittedView world.requests (· ∈ List.finRange n) view =
      emittedView world.requests (fun _ => True) view := by
    funext r
    simp only [emittedView, List.mem_finRange]
  rw [hview] at h'
  exact .inr ⟨kv', world', completed, rfl,
    ⟨h'.pulls, h'.tracked, h'.phase, h'.decoding, h'.balance⟩, hnext, hlists⟩

/-! ## The start of an iteration -/

theorem anyLiveDecode_iff (h : DecodeStands trace records budget w view) :
    w.anyLiveDecode = true ↔ ∃ r p, view r = .decoding p := by
  have hlive : ∀ p, (w.kv.partitions p).hasLiveDecode = true ↔ ∃ r, view r = .decoding p := by
    intro p
    have hmem := h.mem_decodeMembers p
    rw [ResidentPartitionState.decodeMembers, List.map_map] at hmem
    rw [ResidentPartitionState.hasLiveDecode, Bool.not_eq_true',
        List.isEmpty_eq_false_iff_exists_mem]
    constructor
    · rintro ⟨e, he⟩
      exact ⟨e.1, (hmem e.1).mp (List.mem_map.mpr ⟨e, he, rfl⟩)⟩
    · rintro ⟨r, hr⟩
      obtain ⟨e, he, -⟩ := List.mem_map.mp ((hmem r).mpr hr)
      exact ⟨e, he⟩
  simp only [anyLiveDecode, List.any_eq_true, List.mem_finRange, true_and, hlive]
  exact exists_comm

theorem choose_ok (hn : 0 < n) {balance : LoadBalance} (h : balance.needsLoad = false) :
    ∃ (balance' : LoadBalance) (p : Fin n), balance.choose hn = .ok (balance', p) ∧
      balance'.needsLoad = false := by
  cases balance with
  | single => exact ⟨_, _, rfl, rfl⟩
  | roundRobin next => exact ⟨_, _, rfl, rfl⟩
  | leastLoaded next => cases h

theorem enterPartition {world : World} (h : DecodeStands trace world.requests budget w view)
    {r : RequestId} {tokens : Nat} {rest : List (RequestId × Nat)}
    (hpending : w.pulls.pendingDecodes = (r, tokens) :: rest)
    (hemitted : (world.requests r).outputTokensEmitted = 1)
    (hlive : 0 < (world.requests r).remainingOutputTokens) {balance : LoadBalance}
    (hbalance : balance.needsLoad = false) (p : Fin n) (footprint : KvFootprint) :
    DecodeStands trace world.requests budget { w with
        balance := balance
        pulls := w.pulls.popLanded
        kv := (w.kv.reserve r p footprint).commitResident r p tokens
          (world.requests r).remainingOutputTokens }
      (Function.update view r (.decoding p)) := by
  have hview : view r = .landed := by
    have hlanded := h.pulls.landed
    rw [hpending] at hlanded
    exact hlanded.head
  have htokens : tokens = (trace r).contextTokens :=
    h.pulls.kept (r, tokens) (by rw [hpending]; exact List.mem_cons_self)
  have habsent : w.kv.phaseOf r = .absent := by
    rw [h.phase, hview]
    rfl
  set reserved := w.kv.reserve r p footprint with hreserved
  have hreserve : (StoreOp.reserve r p footprint).Issuable w.kv := habsent
  have htracked : reserved.Tracked := KvCacheStore.tracked_apply h.tracked hreserve
  have hphase : ∀ s, reserved.phaseOf s = if s = r then .promised p else w.kv.phaseOf s := fun s =>
    KvCacheStore.phaseOf_apply h.tracked hreserve
  have hpromised : reserved.phaseOf r = .promised p := (hphase r).trans (if_pos rfl)
  have hcommit : (StoreOp.commitResident r p tokens
      (world.requests r).remainingOutputTokens).Issuable reserved := .inl hpromised
  have hdecodes : ∀ q s, reserved.decodeOf q s = w.kv.decodeOf q s := fun q s => by
    rw [KvCacheStore.decodeOf, hreserved, KvCacheStore.partitions_reserve, KvCacheStore.decodeOf]
  refine ⟨h.pulls.popLanded hpending p, KvCacheStore.tracked_apply htracked hcommit, fun s => ?_,
    fun s q hs => ?_, hbalance⟩
  · refine (KvCacheStore.phaseOf_apply htracked hcommit).trans ?_
    rw [StoreOp.phaseAfter]
    by_cases hs : s = r
    · subst hs
      rw [if_pos rfl, Function.update_self]
      rfl
    · rw [if_neg hs, hphase, if_neg hs, Function.update_of_ne hs, h.phase]
  · by_cases hsr : s = r
    · subst hsr
      rw [Function.update_self] at hs
      cases hs
      -- a promised request has no decode slot yet, so the slot is its own
      have hnew : s ∉ (reserved.partitions p).decodes.keys := fun hm => by
        have hresident := ((htracked s).resident p).mp hm
        rw [hpromised] at hresident
        cases hresident
      obtain ⟨state, hslots, hkv, hleft⟩ := (reserved.partitions p).slots_beginDecode s tokens
        (world.requests s).remainingOutputTokens (reserved.promptTokensOf s tokens) hnew
      refine ⟨state, ?_, ?_, hleft, hlive⟩
      · rw [KvCacheStore.decodeOf, KvCacheStore.commitResident, KvCacheStore.modifyPartition_self,
          SlotList.get?_eq_some_iff, KvCacheStore.partitions_modifyLedger, hslots]
        exact List.mem_append_right _ (List.mem_singleton.mpr rfl)
      · rw [hkv, htokens, hemitted]
    · rw [Function.update_of_ne hsr] at hs
      obtain ⟨state, hstate, hrest⟩ := h.decoding s q hs
      refine ⟨state, ?_, hrest⟩
      rw [← hstate, ← hdecodes]
      exact reserved.decodeOf_commitResident_of_ne q hsr p _ _

theorem tryCommitResident_ok (h : DecodeStands trace records budget w view) {r : RequestId}
    (hview : view r = .landed) (p : Fin n) (footprint : KvFootprint) (tokens remaining : Nat) :
    (w.kv.reserve r p footprint).tryCommitResident r p tokens remaining =
      .ok ((w.kv.reserve r p footprint).commitResident r p tokens remaining) := by
  have hnew : r ∉ ((w.kv.reserve r p footprint).partitions p).decodes.keys := fun hm => by
    rw [KvCacheStore.partitions_reserve] at hm
    have hresident := ((h.tracked r).resident p).mp hm
    rw [h.phase, hview] at hresident
    cases hresident
  rw [KvCacheStore.tryCommitResident, ensure_eq_ok_iff.mpr hnew]
  rfl

theorem admitLanded_spec (cfg : PdDecodeConfig acc k n) {world : World}
    (h : DecodeStands trace world.requests budget w view)
    (hrecord : ∀ r, view r = .landed → (world.requests r).outputTokensEmitted = 1 ∧
      0 < (world.requests r).remainingOutputTokens) :
    ∃ (w' : PullDecodeWorker acc m n) (view' : RequestId → DecodeView m n),
      w.admitLanded cfg world = .ok w' ∧
      DecodeStands trace world.requests budget w' view' ∧ w'.computeEnd = w.computeEnd ∧
      (view' = view ∧ w'.pulls = w.pulls ∨
        ∃ r p, view r = .landed ∧ view' = Function.update view r (.decoding p)) := by
  unfold admitLanded
  cases hpending : w.pulls.pendingDecodes with
  | nil => exact ⟨w, view, rfl, h, rfl, .inl ⟨rfl, rfl⟩⟩
  | cons e rest =>
    obtain ⟨r, tokens⟩ := e
    have hlanded := h.pulls.landed
    rw [hpending] at hlanded
    have hview : view r = .landed := hlanded.head
    obtain ⟨hemitted, hlive⟩ := hrecord r hview
    obtain ⟨balance, p, hchoose, hbalance⟩ := choose_ok cfg.partitions_pos h.balance
    dsimp only
    rw [hchoose]
    simp only [bind, Except.bind, h.tryCommitResident_ok hview]
    split
    · exact ⟨_, _, rfl, h.enterPartition hpending hemitted hlive hbalance p _, rfl,
        .inr ⟨r, p, hview, rfl⟩⟩
    · exact ⟨_, view, rfl, ⟨h.pulls, h.tracked, h.phase, h.decoding, hbalance⟩, rfl,
        .inl ⟨rfl, rfl⟩⟩

theorem start (cfg : PdDecodeConfig acc k n) (idx : Fin k) (world : World)
    (h : DecodeStands trace world.requests budget w view)
    (hrecord : ∀ r, view r = .landed → (world.requests r).outputTokensEmitted = 1 ∧
      0 < (world.requests r).remainingOutputTokens) (now : Time) :
    ∃ (w' : PullDecodeWorker acc m n) (view' : RequestId → DecodeView m n),
      w.startBatch cfg idx world now = .ok w' ∧
      DecodeStands trace world.requests budget w' view' ∧
      (view' = view ∨ ∃ r p, view r = .landed ∧ view' = Function.update view r (.decoding p)) ∧
      (w'.computeEnd = none → w'.pulls = w.pulls ∧ ∀ r p, view' r ≠ .decoding p) := by
  obtain ⟨w', view', hadmits, h', hend, hmoved⟩ := h.admitLanded_spec cfg hrecord
  rw [startBatch, formBatch, hadmits]
  simp only [bind, Except.bind, pure, Except.pure]
  have hmoved' : view' = view ∨ ∃ r p, view r = .landed ∧ view' = Function.update view r
      (.decoding p) := hmoved.imp_left And.left
  split
  · exact ⟨_, view', rfl, ⟨h'.pulls, h'.tracked, h'.phase, h'.decoding, h'.balance⟩, hmoved',
      fun hn => by cases hn⟩
  · rename_i hformed
    rw [Bool.or_eq_true, not_or, h'.anyLiveDecode_iff] at hformed
    have hnone : ∀ r p, view' r ≠ .decoding p := fun r p hr => hformed.2 ⟨r, p, hr⟩
    refine ⟨w', view', rfl, h', hmoved', fun _ => ⟨?_, hnone⟩⟩
    rcases hmoved with ⟨-, hpulls⟩ | ⟨r, p, -, hview⟩
    · exact hpulls
    · exact absurd (by rw [hview, Function.update_self]) (hnone r p)

end DecodeStands

end PullDecodeWorker

end ServingSim
