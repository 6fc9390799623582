import ServingSim.Admission.PrefillBooks
import ServingSim.Kv.FullFootprint
import ServingSim.Lib.Custody
import ServingSim.Worker.PrefillHandoff

/-
  What a prefill worker knows about a request.

  The worker spreads a request over its pending set, its store and the prefill list of
  the running iteration. `PrefillView` is the account: the request is elsewhere, waits,
  is prefilled, or is held for the decode side. `PrefillStands` says that the worker's
  tables are those of a view of all requests, and that what is being prefilled and what
  is held fits the capacity together.

  Every operation is described by what it does to the view, and none of them fails where
  its caller's half of the protocol is kept: a request arrives once, and is let go only
  while it is held.
-/

namespace ServingSim

open Custody PendingOrderPolicy

/-! ## Draining, request by request -/

namespace KvCacheStore

variable {acc : KvAccounting} {n : Nat}

theorem prefillAdmits_drainReady (store : KvCacheStore acc n) (p : Fin n) :
    (store.drainReady.partitions p).prefillAdmits = (store.partitions p).prefillAdmits ++
      (store.ledger.drainPromised.2.filter fun e => e.1 = p).map Prod.snd := by
  have hloop : ∀ (drained : List (Fin n × RequestId)) (start : KvCacheStore acc n),
      ((drained.foldl (fun store e =>
          store.modifyPartition e.1 fun state => state.addPrefillAdmit e.2)
        start).partitions p).prefillAdmits = (start.partitions p).prefillAdmits ++
          (drained.filter fun e => e.1 = p).map Prod.snd := by
    intro drained
    induction drained with
    | nil =>
      intro start
      exact (List.append_nil _).symm
    | cons e drained ih =>
      intro start
      rw [List.foldl_cons, ih]
      by_cases he : e.1 = p
      · subst he
        simp [ResidentPartitionState.addPrefillAdmit]
      · rw [modifyPartition_of_ne _ _ (Ne.symm he)]
        simp [he]
  exact hloop _ _

theorem lists_drainReady {store : KvCacheStore acc n} (h : store.Tracked) {p : Fin n}
    (hidle : (store.partitions p).prefillAdmits = []) :
    Lists (store.drainReady.partitions p).prefillAdmits
      fun r => store.phaseOf r = .promised p := by
  rw [prefillAdmits_drainReady, hidle, List.nil_append]
  have hperm : ((store.ledger.drainPromised.2.filter fun e => e.1 = p).map Prod.snd).Perm
      ((store.ledger.promised.entries.filter fun e => e.2.1 = p).map Sigma.fst) := by
    refine ((store.ledger.drainPromised_perm.filter _).map _).trans (.of_eq ?_)
    rw [List.filter_map, List.map_map]
    rfl
  refine Lists.perm ⟨?_, fun r => ?_⟩ hperm
  · have hkeys : (store.ledger.promised.entries.map Sigma.fst).Nodup :=
      store.ledger.promised.nodupKeys
    exact hkeys.sublist (List.filter_sublist.map _)
  · have hpromised := (h r).promised
    have hlookup : (∃ v, store.ledger.promised.lookup r = some v ∧ v.1 = p) ↔
        store.phaseOf r = .promised p := by
      simp only [RequestLedger.viewOf, RequestLedger.promisedEntry, Option.map_map] at hpromised
      rw [← Option.map_eq_some_iff (f := Prod.fst)]
      refine (Eq.congr_left hpromised).trans ?_
      cases store.phaseOf r <;> simp [Phase.promisedOn]
    rw [← hlookup]
    simp only [List.mem_map, List.mem_filter, decide_eq_true_eq, Sigma.exists, exists_and_right,
      exists_eq_right]
    constructor
    · rintro ⟨v, hv, rfl⟩
      exact ⟨v, AList.mem_lookup_iff.mpr hv, rfl⟩
    · rintro ⟨v, hv, rfl⟩
      exact ⟨v, AList.mem_lookup_iff.mp hv, rfl⟩

theorem statesOf_eq_nil {store : KvCacheStore acc n} {p : Fin n}
    (h : ∀ r, ¬ store.Resident p r) : store.statesOf p = [] := by
  have hkeys : (store.partitions p).decodes.keys = [] := List.eq_nil_iff_forall_not_mem.mpr h
  rw [SlotList.keys, List.map_eq_nil_iff] at hkeys
  rw [statesOf, ResidentPartitionState.states, hkeys, List.map_nil]

end KvCacheStore

theorem KvCacheStore.room_quiet {acc : KvAccounting} {n : Nat} {work : AdmittedWork}
    {kv : KvCacheStore acc n} (h : Room (unorderedNeed acc) work kv) {op : StoreOp n}
    (hop : op.Issuable kv) (hfollow : op.FollowsWork work) (hreserves : op.reservation = none) :
    Room (unorderedNeed acc) work (op.apply kv) :=
  room_apply h hop hfollow (fun q p f hf => by rw [hreserves] at hf; cases hf)
    (fun q p f hf => by rw [hreserves] at hf; cases hf) (keepsNeed_unordered kv op)

/-! ## Views -/

/-- Where a request is, as one prefill worker sees it. -/
inductive PrefillView where
  | elsewhere
  | waiting
  | prefilling
  /-- Prefilled, and kept until the decode side has pulled it. -/
  | held
  deriving DecidableEq, Repr

/-- The phase the store has a request in. -/
def PrefillView.phase : PrefillView → Phase 1
  | elsewhere | waiting => .absent
  | prefilling => .drained prefillPartition
  | held => .held prefillPartition

/-- Tokens of a request's context once its prompt is prefilled. -/
def RequestRecord.contextTokens (record : RequestRecord) : Nat :=
  record.promptTokens + record.session.declaredPrefixTokens

theorem RequestRecord.recordPrefixCacheHitTokens_eq {record : RequestRecord} {hit : Nat}
    (hdeclared : hit ≤ record.session.declaredPrefixTokens)
    (hfirst : record.prefixCacheHitTokens = none) :
    record.recordPrefixCacheHitTokens hit =
      .ok { record with prefixCacheHitTokens := some hit } := by
  rw [recordPrefixCacheHitTokens, ensure_eq_ok_iff.mpr hdeclared, ensure_eq_ok_iff.mpr hfirst]
  rfl

/-- The context of some request is past a `u32`. -/
def LongContext (trace : RequestId → RequestRecord) (message : String) : Prop :=
  ∃ r, ContextOverflow (trace r).contextTokens message

/-- A prefill worker holds the context of a request and decodes nothing. -/
def prefillWork (trace : RequestId → RequestRecord) : AdmittedWork where
  contextTokens := fun r => (trace r).contextTokens
  outputTokens := fun _ => 0

namespace PdPrefillWorker

variable {P : Type} [PendingOrderPolicy P] {acc : KvAccounting} {m : Nat}

/-- The worker's tables are those of the view. -/
structure PrefillStands (trace : RequestId → RequestRecord) (w : PdPrefillWorker P acc)
    (view : RequestId → PrefillView) : Prop where
  room : KvCacheStore.Room (KvCacheStore.unorderedNeed acc) (prefillWork trace) w.kv
  phase : ∀ r, w.kv.phaseOf r = (view r).phase
  waiting : Lists ((candidates w.policy).map fun c => c.requestId) fun r => view r = .waiting
  asked : ∀ c ∈ candidates w.policy, c.sessionInput = (trace c.requestId).session ∧
    c.freshPromptTokens = (trace c.requestId).promptTokens
  prefilling : Lists (w.kv.partitions 0).prefillAdmits fun r => view r = .prefilling
  context : ∀ r, view r = .prefilling → ∃ context, w.kv.ledger.prefillContext r = some context ∧
    context.postPrefillContextTokens = (trace r).contextTokens
  /-- Only a running iteration prefills. -/
  idle : w.computeEnd = none → (w.kv.partitions 0).prefillAdmits = []

namespace PrefillStands

variable {trace : RequestId → RequestRecord} {w : PdPrefillWorker P acc}
  {view : RequestId → PrefillView}

theorem new (trace : RequestId → RequestRecord) (policy : P) (budget : PrefixCacheBudget)
    (hpolicy : candidates policy = []) :
    PrefillStands trace (.new policy budget : PdPrefillWorker P acc) fun _ => .elsewhere where
  room := KvCacheStore.room_new _ _ budget
  phase := fun r => rfl
  waiting := by
    rw [PdPrefillWorker.new, hpolicy]
    exact .nil fun r hr => by cases hr
  asked := fun c hc => by
    rw [PdPrefillWorker.new, hpolicy] at hc
    cases hc
  prefilling := .nil fun r hr => by cases hr
  context := fun r hr => by cases hr
  idle := fun _ => rfl

theorem not_resident (h : PrefillStands trace w view) (r : RequestId) : ¬ w.kv.Resident 0 r := by
  rw [(h.room.tracked r).resident, h.phase]
  cases view r <;> simp [PrefillView.phase]

/-! ## Messages -/

theorem accept (h : PrefillStands trace w view) (world : World) {r : RequestId}
    (hr : view r = .elsewhere) (hrecord : (world.requests r).definition = (trace r).definition) :
    EndsWith (LongContext trace) (w.acceptMessage world (.request r)) ∨
    ∃ w', w.acceptMessage world (.request r) = .ok (w', world) ∧
      PrefillStands trace w' (Function.update view r .waiting) ∧
      w'.computeEnd = w.computeEnd := by
  have hnew : contains w.policy r = false := by
    rw [contains, List.any_eq_false]
    intro c hc heq
    rw [decide_eq_true_eq] at heq
    have hw := (h.waiting.mem_iff r).mp (heq ▸ List.mem_map_of_mem hc)
    rw [hr] at hw
    cases hw
  have hsession : (world.requests r).session = (trace r).session :=
    congrArg RequestRecord.Definition.session hrecord
  have hprompt : (world.requests r).promptTokens = (trace r).promptTokens :=
    congrArg RequestRecord.Definition.promptTokens hrecord
  rw [acceptMessage, ensure_eq_ok_iff.mpr hnew]
  simp only [bind, Except.bind]
  rcases w.kv.tryResidentPrefixTokens_ok_or (world.requests r).promptTokens
    (world.requests r).session with hfail | hresident
  · rw [hprompt, hsession] at hfail ⊢
    exact .inl ((hfail.bind _).mono fun message hlong => ⟨r, hlong⟩)
  rw [hresident]
  set frozen := w.enqueueSequence.freeze r (world.requests r).promptTokens 0
    (world.requests r).session
    ((world.requests r).session.sessionStartOr (world.requests r).arrivalTime)
    (w.kv.residentPrefixTokens (world.requests r).promptTokens (world.requests r).session)
    with hfrozen
  have hperm := push_perm w.policy frozen.2
  refine .inr ⟨{ w with enqueueSequence := frozen.1, policy := push w.policy frozen.2 }, rfl, ?_,
    rfl⟩
  refine ⟨h.room, fun s => ?_, ?_, fun c hc => ?_, ?_, fun s hs => ?_, h.idle⟩
  · by_cases hs : s = r
    · subst hs
      rw [Function.update_self, h.phase, hr]
      rfl
    · rw [Function.update_of_ne hs, h.phase]
  · refine (h.waiting.enter (R := (· = PrefillView.waiting)) ?_ rfl).perm (hperm.map _)
    rw [hr]
    intro hw
    cases hw
  · rcases List.mem_cons.mp (hperm.mem_iff.mp hc) with rfl | hc
    · exact ⟨hsession, hprompt⟩
    · exact h.asked c hc
  · refine h.prefilling.stay (R := (· = PrefillView.prefilling)) ?_
    rw [hr]
    simp
  · by_cases hsr : s = r
    · subst hsr
      rw [Function.update_self] at hs
      cases hs
    · rw [Function.update_of_ne hsr] at hs
      exact h.context s hs

theorem letGo (h : PrefillStands trace w view) {r : RequestId} (hr : view r = .held)
    (world : World) :
    ∃ w', w.acceptMessage world (.releaseKv r) = .ok (w', world) ∧
      PrefillStands trace w' (Function.update view r .elsewhere) ∧
      w'.computeEnd = w.computeEnd ∧ w'.policy = w.policy := by
  have hop : (StoreOp.completeHandoff (n := 1) r).Issuable w.kv := by
    left
    rw [h.phase, hr]
    rfl
  refine ⟨_, rfl, ⟨KvCacheStore.room_quiet h.room hop trivial rfl, fun s => ?_, ?_, h.asked, ?_,
      fun s hs => ?_,
    fun hidle => ?_⟩, rfl, rfl⟩
  · refine (KvCacheStore.phaseOf_apply h.room.tracked hop).trans ?_
    by_cases hs : s = r
    · subst hs
      rw [StoreOp.phaseAfter, if_pos rfl, Function.update_self]
      rfl
    · rw [StoreOp.phaseAfter, if_neg hs, Function.update_of_ne hs, h.phase]
  · refine h.waiting.stay (R := (· = PrefillView.waiting)) ?_
    rw [hr]
    simp
  · rw [KvCacheStore.partitions_completeHandoff]
    refine h.prefilling.stay (R := (· = PrefillView.prefilling)) ?_
    rw [hr]
    simp
  · by_cases hsr : s = r
    · subst hsr
      rw [Function.update_self] at hs
      cases hs
    · rw [Function.update_of_ne hsr] at hs
      obtain ⟨context, hcontext, hpost⟩ := h.context s hs
      have hsubject : (StoreOp.completeHandoff r : StoreOp 1).subject ≠ some s := fun heq =>
        hsr (Option.some.inj heq).symm
      have hview := w.kv.view_apply_of_ne hsubject (by simp)
      exact ⟨context, (congrArg RequestView.context hview).trans hcontext, hpost⟩
  · rw [KvCacheStore.partitions_completeHandoff]
    exact h.idle hidle

end PrefillStands

/-! ## The end of an iteration -/

/-- What becomes of a request once it is prefilled: one that wanted a single token is
finished. -/
def finishedView (trace : RequestId → RequestRecord) (view : RequestId → PrefillView)
    (r : RequestId) : PrefillView :=
  if view r = .prefilling then if (trace r).targetOutputTokens ≤ 1 then .elsewhere else .held
  else view r

/-- What is reported of it. -/
def finishedEvent (cfg : PdPrefillConfig acc m) (idx : Fin m) (trace : RequestId → RequestRecord)
    (r : RequestId) : PdPrefillEvent m :=
  if (trace r).targetOutputTokens ≤ 1 then .requestComplete idx r
  else .prefillDone idx r (cfg.sendGroupId idx) (trace r).contextTokens

/-- The records after the first tokens of a list of requests. -/
structure FirstTokens (world world' : World) (requests : List RequestId) : Prop where
  cluster : world'.cluster = world.cluster
  arrived : world'.arrived = world.arrived
  others : ∀ r, r ∉ requests → world'.requests r = world.requests r
  definition : ∀ r, (world'.requests r).definition = (world.requests r).definition
  emitted : ∀ r ∈ requests, (world'.requests r).outputTokensEmitted = 1

theorem foldlM_finishPrefill {trace : RequestId → RequestRecord} {kv : KvCacheStore acc 1}
    {requests : List RequestId} (world : World)
    (hcontext : ∀ r ∈ requests, ∃ context, kv.ledger.prefillContext r = some context ∧
      context.postPrefillContextTokens = (trace r).contextTokens)
    (hrecord : ∀ r ∈ requests, (world.requests r).definition = (trace r).definition) :
    ∃ world', requests.foldlM (finishPrefill kv) (world, []) = .ok (world', requests.map fun r =>
          (r, (trace r).contextTokens, decide ((trace r).targetOutputTokens ≤ 1))) ∧
      FirstTokens world world' requests := by
  have hstep : ∀ visited r rest (state : World × List (RequestId × Nat × Bool)),
      requests = visited ++ r :: rest →
      (FirstTokens world state.1 visited ∧ state.2 = visited.map fun r =>
        (r, (trace r).contextTokens, decide ((trace r).targetOutputTokens ≤ 1))) →
      ∃ state', finishPrefill kv state r = .ok state' ∧
        FirstTokens world state'.1 (visited ++ [r]) ∧ state'.2 = (visited ++ [r]).map fun r =>
          (r, (trace r).contextTokens, decide ((trace r).targetOutputTokens ≤ 1)) := by
    intro visited r rest state hl ⟨hfirst, htransitions⟩
    have hmem : r ∈ requests := by simp [hl]
    obtain ⟨context, hlookup, hpost⟩ := hcontext r hmem
    set record := { state.1.requests r with
      prefillTokensProcessed := context.prefillTokensToCompute }.recordFirstToken with hrec
    have hdefinition : record.definition = (state.1.requests r).definition := rfl
    have htarget : record.targetOutputTokens = (trace r).targetOutputTokens :=
      congrArg RequestRecord.Definition.targetOutputTokens
        (hdefinition.trans ((hfirst.definition r).trans (hrecord r hmem)))
    refine ⟨(state.1.modifyRequest r fun _ => record, state.2 ++
        [(r, context.postPrefillContextTokens, record.isComplete)]), ?_,
      ⟨hfirst.cluster, hfirst.arrived, fun s hs => ?_, fun s => ?_, fun s hs => ?_⟩, ?_⟩
    · rw [finishPrefill, hlookup]
      rfl
    · rw [List.mem_append, List.mem_singleton, not_or] at hs
      rw [World.modifyRequest_of_ne _ hs.2]
      exact hfirst.others s hs.1
    · by_cases hsr : s = r
      · subst hsr
        rw [World.modifyRequest_self, hdefinition]
        exact hfirst.definition s
      · rw [World.modifyRequest_of_ne _ hsr]
        exact hfirst.definition s
    · by_cases hsr : s = r
      · subst hsr
        rw [World.modifyRequest_self]
        rfl
      · rw [World.modifyRequest_of_ne _ hsr]
        rw [List.mem_append, List.mem_singleton] at hs
        exact hfirst.emitted s (hs.resolve_right hsr)
    · have hcomplete : record.isComplete = decide ((trace r).targetOutputTokens ≤ 1) := by
        rw [← htarget]
        rfl
      rw [htransitions, List.map_append, hpost, hcomplete]
      rfl
  obtain ⟨⟨world', transitions⟩, hloop, hfirst, rfl⟩ := foldlM_ok_of_visited hstep
    (b := (world, [])) ⟨⟨rfl, rfl, fun _ _ => rfl, fun _ => rfl,
      fun _ hr => absurd hr List.not_mem_nil⟩, rfl⟩
  exact ⟨world', hloop, hfirst⟩

theorem foldl_applyTransition (cfg : PdPrefillConfig acc m) (idx : Fin m)
    {trace : RequestId → RequestRecord} {requests : List RequestId} (hnodup : requests.Nodup)
    {kv : KvCacheStore acc 1} (events : List (PdPrefillEvent m))
    (hroom : KvCacheStore.Room (KvCacheStore.unorderedNeed acc) (prefillWork trace) kv)
    (hphase : ∀ r ∈ requests, kv.phaseOf r = .drained 0) :
    ∃ kv', (requests.map fun r => (r, (trace r).contextTokens,
          decide ((trace r).targetOutputTokens ≤ 1))).foldl (applyTransition cfg idx)
        (kv, events) = (kv', events ++ requests.map (finishedEvent cfg idx trace)) ∧
      KvCacheStore.Room (KvCacheStore.unorderedNeed acc) (prefillWork trace) kv' ∧
      ∀ r, kv'.phaseOf r = if r ∈ requests then
        if (trace r).targetOutputTokens ≤ 1 then .absent else .held 0 else kv.phaseOf r := by
  induction requests generalizing kv events with
  | nil => exact ⟨kv, by simp, hroom, fun r => by simp⟩
  | cons r requests ih =>
    obtain ⟨hr, hnodup⟩ := List.nodup_cons.mp hnodup
    have hdrained := hphase r List.mem_cons_self
    -- either outcome is one operation of the store
    obtain ⟨op, hstep, hop, hfollow, hreserves, hafter⟩ : ∃ op : StoreOp 1,
        applyTransition cfg idx (kv, events)
            (r, (trace r).contextTokens, decide ((trace r).targetOutputTokens ≤ 1)) =
          (op.apply kv, events ++ [finishedEvent cfg idx trace r]) ∧
        op.Issuable kv ∧ op.FollowsWork (prefillWork trace) ∧ op.reservation = none ∧
        ∀ s phase, op.phaseAfter s phase = if s = r then
          if (trace r).targetOutputTokens ≤ 1 then .absent else .held 0 else phase := by
      by_cases htarget : (trace r).targetOutputTokens ≤ 1
      · refine ⟨.releaseRetainingPrefix r 0, ?_, ?_, trivial, rfl, fun s phase => ?_⟩
        · simp [applyTransition, finishedEvent, htarget, StoreOp.apply]
        · rw [StoreOp.Issuable, hdrained]
          rfl
        · rw [StoreOp.phaseAfter, if_pos htarget]
      · refine ⟨.hold 0 r (trace r).contextTokens, ?_, hdrained, rfl, rfl, fun s phase => ?_⟩
        · simp [applyTransition, finishedEvent, htarget, StoreOp.apply]
        · rw [StoreOp.phaseAfter, if_neg htarget]
    have hphase' : ∀ s, (op.apply kv).phaseOf s = if s = r then
        if (trace r).targetOutputTokens ≤ 1 then .absent else .held 0 else kv.phaseOf s :=
      fun s => (KvCacheStore.phaseOf_apply hroom.tracked hop).trans (hafter s _)
    have hroom₁ : KvCacheStore.Room (KvCacheStore.unorderedNeed acc) (prefillWork trace)
        (op.apply kv) := KvCacheStore.room_quiet hroom hop hfollow hreserves
    obtain ⟨kv', hloop, hroom', hmoved⟩ := ih hnodup
      (events ++ [finishedEvent cfg idx trace r]) hroom₁ fun s hs => by
        have hne : s ≠ r := fun heq => hr (heq ▸ hs)
        rw [hphase', if_neg hne]
        exact hphase s (List.mem_cons_of_mem _ hs)
    refine ⟨kv', ?_, hroom', fun s => ?_⟩
    · rw [List.map_cons, List.foldl_cons, hstep, hloop, List.append_assoc]
      rfl
    · rw [hmoved, hphase']
      by_cases hs : s = r
      · subst hs
        simp [hr]
      · simp [hs]

namespace PrefillStands

variable {trace : RequestId → RequestRecord} {w : PdPrefillWorker P acc}
  {view : RequestId → PrefillView} {world : World}

theorem complete (cfg : PdPrefillConfig acc m) (idx : Fin m) (h : PrefillStands trace w view)
    (world : World)
    (hrecord : ∀ r, view r = .prefilling → (world.requests r).definition = (trace r).definition) :
    ∃ w' world', w.completeIteration cfg idx world = .ok (w', world',
        (w.kv.partitions 0).prefillAdmits.map (finishedEvent cfg idx trace)) ∧
      PrefillStands trace w' (finishedView trace view) ∧ w'.computeEnd = none ∧
      FirstTokens world world' (w.kv.partitions 0).prefillAdmits := by
  set requests := (w.kv.partitions 0).prefillAdmits with hrequests
  have hview : ∀ r ∈ requests, view r = .prefilling := fun r => (h.prefilling.mem_iff r).mp
  obtain ⟨world', hloop, hfirst⟩ := foldlM_finishPrefill world
    (fun r hr => h.context r (hview r hr)) fun r hr => hrecord r (hview r hr)
  obtain ⟨kv', htransitions, hroom, hphase⟩ := foldl_applyTransition cfg idx
    h.prefilling.nodup [] h.room fun r hr => by
      rw [h.phase, hview r hr]
      rfl
  have hclear : (StoreOp.clearPrefillAdmits (0 : Fin 1)).Issuable kv' := trivial
  have hroom' := KvCacheStore.room_quiet hroom hclear trivial rfl
  have hphase' : ∀ r, (kv'.clearPrefillAdmits 0).phaseOf r = kv'.phaseOf r := fun r =>
    KvCacheStore.phaseOf_apply hroom.tracked hclear
  have hcleared : ((kv'.clearPrefillAdmits 0).partitions 0).prefillAdmits = [] := by
    rw [KvCacheStore.clearPrefillAdmits, KvCacheStore.modifyPartition_self]
    rfl
  refine ⟨{ w with kv := kv'.clearPrefillAdmits 0, computeEnd := none }, world', ?_,
    ⟨hroom', fun r => ?_, ?_, h.asked, ?_, fun r hr => ?_, fun _ => hcleared⟩, rfl, hfirst⟩
  · rw [completeIteration, ← hrequests, hloop]
    simp only [bind, Except.bind]
    rw [htransitions]
    rfl
  · have hmem := h.prefilling.mem_iff r
    rw [hphase', hphase, finishedView]
    by_cases hr : view r = .prefilling
    · rw [if_pos hr, if_pos (hmem.mpr hr)]
      split <;> rfl
    · rw [if_neg hr, if_neg fun hm => hr (hmem.mp hm), h.phase]
  · refine h.waiting.congr fun r => ?_
    rw [finishedView]
    split <;> simp_all
    split <;> simp
  · rw [hcleared]
    refine .nil fun r hr => ?_
    rw [finishedView] at hr
    split at hr
    · split at hr <;> cases hr
    · exact absurd hr ‹_›
  · rw [finishedView] at hr
    split at hr
    · split at hr <;> cases hr
    · exact absurd hr ‹_›

/-! ## The start of an iteration -/

theorem issuable_drainReady (kv : KvCacheStore acc 1) :
    (StoreOp.drainReady : StoreOp 1).Issuable kv := trivial

theorem drain (h : PrefillStands trace w view) (hidle : w.computeEnd = none)
    {kv : KvCacheStore acc 1} {view' : RequestId → PrefillView}
    (hroom : KvCacheStore.Room (KvCacheStore.unorderedNeed acc) (prefillWork trace) kv)
    (hadmits : (kv.partitions 0).prefillAdmits = (w.kv.partitions 0).prefillAdmits)
    (hphase : ∀ r, kv.phaseOf r = if view' r = .prefilling then .promised 0 else (view' r).phase)
    {policy : P} (hwaiting : Lists ((candidates policy).map fun c => c.requestId)
      fun r => view' r = .waiting)
    (hasked : ∀ c ∈ candidates policy, c ∈ candidates w.policy)
    (hcontext : ∀ r, view' r = .prefilling → ∃ context, kv.ledger.prefillContext r = some context ∧
        context.postPrefillContextTokens = (trace r).contextTokens)
    (computeEnd : Option Time) (iteration : Nat)
    (hstarted : computeEnd = none → (kv.drainReady.partitions 0).prefillAdmits = []) :
    PrefillStands trace { w with
      kv := kv.drainReady, policy := policy, computeEnd := computeEnd, iteration := iteration }
      view' where
  room := KvCacheStore.room_quiet hroom (issuable_drainReady kv) trivial rfl
  phase := fun r => by
    refine (KvCacheStore.phaseOf_apply hroom.tracked (issuable_drainReady kv)).trans ?_
    rw [hphase]
    cases view' r <;> rfl
  waiting := hwaiting
  asked := fun c hc => h.asked c (hasked c hc)
  prefilling := by
    refine (KvCacheStore.lists_drainReady hroom.tracked (hadmits.trans (h.idle hidle))).congr
      fun r => ?_
    rw [hphase]
    cases view' r <;> simp [PrefillView.phase]
  context := fun r hr => by
    obtain ⟨context, hlookup, hpost⟩ := hcontext r hr
    refine ⟨context, ?_, hpost⟩
    rw [KvCacheStore.ledger_drainReady]
    exact hlookup
  idle := hstarted

theorem admitHead_spec (h : PrefillStands trace w view)
    (hrecord : ∀ r, view r = .waiting → (world.requests r).definition = (trace r).definition ∧
      (world.requests r).prefixCacheHitTokens = none) :
    EndsWith (LongContext trace) (w.admitHead world) ∨ w.admitHead world = .ok (w, world) ∨
      ∃ (c : AdmissionCandidate) (resolved : ResolvedPrefillContext) (record : RequestRecord),
        peek w.policy = some c ∧
        resolved.postPrefillContextTokens = (trace c.requestId).contextTokens ∧
        w.kv.fits 0 (KvCacheStore.footprint acc (trace c.requestId).contextTokens 0) = true ∧
        record.definition = (world.requests c.requestId).definition ∧
        record.outputTokensEmitted = (world.requests c.requestId).outputTokensEmitted ∧
        w.admitHead world = .ok ({ w with
            policy := pop w.policy
            kv := w.kv.reservePrefillContext c.requestId 0 resolved
              (KvCacheStore.footprint acc (trace c.requestId).contextTokens 0) },
          world.modifyRequest c.requestId fun _ => record) := by
  unfold admitHead
  cases hpeek : peek w.policy with
  | none => exact .inr (.inl rfl)
  | some c =>
    have hc : c ∈ candidates w.policy := mem_of_peek hpeek
    have hwaiting : view c.requestId = .waiting := (h.waiting.mem_iff _).mp (List.mem_map_of_mem hc)
    obtain ⟨hdefinition, hhit⟩ := hrecord _ hwaiting
    obtain ⟨hsession, hprompt⟩ := h.asked c hc
    set resolved := w.kv.previewPrefillContext 0 c.freshPromptTokens c.sessionInput with hresolved
    have hpost : resolved.postPrefillContextTokens = (trace c.requestId).contextTokens :=
      calc resolved.postPrefillContextTokens
          = c.freshPromptTokens + c.sessionInput.declaredPrefixTokens := rfl
        _ = (trace c.requestId).contextTokens := by
          rw [hsession, hprompt]
          rfl
    have hdeclared : resolved.residentPrefixTokens ≤
        (world.requests c.requestId).session.declaredPrefixTokens := by
      have hsame : (world.requests c.requestId).session = (trace c.requestId).session :=
        congrArg RequestRecord.Definition.session hdefinition
      rw [hsame, ← hsession]
      exact previewPrefillContext_resident ..
    dsimp only
    rcases w.kv.tryPreviewPrefillContext_ok_or 0 c.freshPromptTokens c.sessionInput with
      hfail | hpreview
    · rw [hsession, hprompt] at hfail ⊢
      exact .inl ((hfail.bind _).mono fun message hlong => ⟨c.requestId, hlong⟩)
    have hreserve := w.kv.tryReservePrefillContext_ok c.requestId 0 c.freshPromptTokens
      c.sessionInput (KvCacheStore.footprint acc (trace c.requestId).contextTokens 0)
    rw [hpreview]
    simp only [bind, Except.bind]
    rw [← hresolved] at hreserve ⊢
    rw [hpost]
    refine .inr ?_
    split
    · rename_i hfits
      refine .inr ⟨c, resolved, { (world.requests c.requestId).markAdmitted with
        prefixCacheHitTokens := some resolved.residentPrefixTokens }, rfl, hpost, hfits, rfl, rfl,
        ?_⟩
      -- a request still waiting has no hit recorded yet, so the assignment is the first
      have hadmitted : (world.requests c.requestId).markAdmitted.recordPrefixCacheHitTokens
          resolved.residentPrefixTokens = .ok { (world.requests c.requestId).markAdmitted with
            prefixCacheHitTokens := some resolved.residentPrefixTokens } :=
        RequestRecord.recordPrefixCacheHitTokens_eq hdeclared hhit
      rw [admitPrefill, hreserve]
      simp only [bind, Except.bind]
      rw [hadmitted]
      rfl
    · exact .inl rfl

theorem leavesRoom (h : PrefillStands trace w view) (hidle : w.computeEnd = none)
    {r : RequestId} {resolved : ResolvedPrefillContext} {footprint : KvFootprint}
    (hfits : w.kv.fits 0 footprint = true) :
    KvCacheStore.LeavesRoom (KvCacheStore.unorderedNeed acc) (prefillWork trace) w.kv
      (.reservePrefillContext r 0 resolved footprint) := by
  intro q p f hf
  obtain ⟨rfl, rfl, rfl⟩ := hf
  refine ⟨0, ?_, ?_⟩
  · rw [KvCacheStore.statesOf_eq_nil h.not_resident]
    exact (KvCacheStore.unorderedNeed acc).nil
  · have hdrained : w.kv.drainedUnits (prefillWork trace) 0 = 0 := by
      rw [KvCacheStore.drainedUnits, KvCacheStore.phaseTotal]
      refine KeyedTotal.total_eq_zero fun s _ _ => ?_
      have hs : view s ≠ .prefilling := h.prefilling.eq_nil_iff.mp (h.idle hidle) s
      rw [h.phase]
      cases hv : view s <;> simp_all [PrefillView.phase, drainedIn]
    simp only [KvCacheStore.fits, decide_eq_true_eq] at hfits
    omega

theorem start (cfg : PdPrefillConfig acc m) (idx : Fin m) (h : PrefillStands trace w view)
    (world : World) (hidle : w.computeEnd = none)
    (hrecord : ∀ r, view r = .waiting → (world.requests r).definition = (trace r).definition ∧
      (world.requests r).prefixCacheHitTokens = none) (now : Time) :
    EndsWith (LongContext trace) (w.startBatch cfg idx world now) ∨
    ∃ w' world', w.startBatch cfg idx world now = .ok (w', world') ∧
      (PrefillStands trace w' view ∧ world' = world ∨ ∃ r record, view r = .waiting ∧
          PrefillStands trace w' (Function.update view r .prefilling) ∧
          record.definition = (world.requests r).definition ∧
          record.outputTokensEmitted = (world.requests r).outputTokensEmitted ∧
          world' = world.modifyRequest r fun _ => record) := by
  have hnone : ∀ r, view r ≠ .prefilling := h.prefilling.eq_nil_iff.mp (h.idle hidle)
  rcases h.admitHead_spec hrecord with hfail | hhead | ⟨c, resolved, record, hpeek, hpost, hfits,
    hdefinition, hemitted, hhead⟩
  · exact .inl ((hfail.bind _).bind _)
  · -- nothing is promised, so the drain lists nothing
    have hphase : ∀ r, w.kv.phaseOf r =
        if view r = .prefilling then .promised 0 else (view r).phase := fun r => by
      rw [if_neg (hnone r), h.phase]
    have hdrain := h.drain hidle h.room rfl hphase h.waiting (fun c hc => hc) h.context
    have hadmits : (w.kv.drainReady.partitions 0).prefillAdmits = [] :=
      (hdrain (some 0) 0 (fun hn => by cases hn)).prefilling.eq_nil_iff.mpr hnone
    refine .inr ⟨{ w with kv := w.kv.drainReady }, world, ?_,
      .inl ⟨hdrain _ _ (fun _ => hadmits), rfl⟩⟩
    rw [startBatch, formBatch, hhead]
    simp only [bind, Except.bind, pure, Except.pure, hadmits, List.isEmpty_nil, Bool.not_true,
      Bool.false_eq_true, if_false]
  · have hwaiting : view c.requestId = .waiting :=
      (h.waiting.mem_iff _).mp (List.mem_map_of_mem (mem_of_peek hpeek))
    set r := c.requestId with hr
    set view' := Function.update view r .prefilling with hview'
    set footprint := KvCacheStore.footprint acc (trace r).contextTokens 0 with hfootprint
    set op : StoreOp 1 := .reservePrefillContext r 0 resolved footprint with hop
    have hissuable : op.Issuable w.kv := by
      rw [hop, StoreOp.Issuable, h.phase, hwaiting]
      rfl
    -- the reservation follows the request's own work, so the room is kept
    have hroom := KvCacheStore.room_apply h.room hissuable
        (hpost : op.FollowsWork (prefillWork trace))
      (fun q p f hf => by obtain ⟨rfl, rfl, rfl⟩ := hf; rfl) (h.leavesRoom hidle hfits)
      (KvCacheStore.keepsNeed_unordered w.kv op)
    have hphase : ∀ s, (op.apply w.kv).phaseOf s =
        if view' s = .prefilling then .promised 0 else (view' s).phase := by
      intro s
      rw [KvCacheStore.phaseOf_apply h.room.tracked hissuable, hop, StoreOp.phaseAfter, hview']
      by_cases hs : s = r
      · simp [hs]
      · rw [if_neg hs, Function.update_of_ne hs, if_neg (hnone s), h.phase]
    have hperm := pop_perm w.policy c hpeek
    have hdrain := h.drain hidle hroom
      (congrArg (fun partitions => (partitions 0).prefillAdmits)
        (w.kv.partitions_reservePrefillContext r 0 resolved footprint))
      hphase ((h.waiting.perm (hperm.map _).symm).leave (R := (· = PrefillView.waiting))
        (s := .prefilling) (by simp)) (fun d hd => hperm.mem_iff.mpr (List.mem_cons_of_mem _ hd))
      fun s hs => ?_
    · refine .inr ⟨_, world.modifyRequest r fun _ => record, ?_,
        .inr ⟨r, record, hwaiting, hdrain (some (now + cfg.evaluateIteration idx
          (op.apply w.kv).drainReady (world.modifyRequest r fun _ => record).requests
          (w.iteration + 1) now)) (w.iteration + 1) (fun hn => by cases hn),
          hdefinition, hemitted, rfl⟩⟩
      have hmem : r ∈ ((op.apply w.kv).drainReady.partitions 0).prefillAdmits := ((hdrain (some 0) 0
          (fun hn => by cases hn)).prefilling.mem_iff r).mpr (by rw [hview', Function.update_self])
      have hformed : (((w.kv.reservePrefillContext r 0 resolved
          footprint).drainReady.partitions 0).prefillAdmits).isEmpty = false :=
        List.isEmpty_eq_false_iff.mpr (List.ne_nil_of_mem hmem)
      rw [startBatch, formBatch, hhead]
      simp only [bind, Except.bind, pure, Except.pure, hformed, Bool.not_false, if_true]
      rfl
    -- the only request prefilling is the one just reserved
    · have hsr : s = r := by
        by_contra hne
        rw [hview', Function.update_of_ne hne] at hs
        exact hnone s hs
      subst hsr
      refine ⟨(w.kv.takePrefix 0 resolved).2, ?_, ?_⟩
      · have hview := w.kv.view_reservePrefillContext r r 0 resolved footprint
        rw [if_pos rfl] at hview
        exact congrArg RequestView.context hview
      · rw [KvCacheStore.postPrefillContextTokens_takePrefix, hpost]

end PrefillStands

end PdPrefillWorker

end ServingSim
