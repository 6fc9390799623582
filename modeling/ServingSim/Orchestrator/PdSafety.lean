import ServingSim.Orchestrator.PdRuns

/-
  What holds of a prefill/decode-disaggregated deployment after every run.

  The statements read the code's own tables: the pending sets, the prefill batches, the
  pull queues, the partitions and the completions reported. `PdRun.At` says at which place
  of the handoff protocol the tables have a request; `Reached` is any order of arrivals
  and visited times, each request arriving at most once, under either sweep.

  What is proved:
    1. `never_fails` — no operation of a run fails, but on a context past a `u32` or a decode
       step that overfills a partition.
    2. `custody` — every request is at exactly one place, and no table names it twice.
    3. `moves_along_protocol` — from there on a request only goes along the protocol.
    4. `kv_custody` — at most one worker's store has a request; a prefill worker holds it
       exactly until the decode worker it was handed to has pulled it.
    5. `tokens_accounted` — what a request has emitted is in its decode's KV and
       remaining output, and at completion it is the output it asked for.
    6. `pull_backlog_bounded`, `prefill_memory_bounded` — the bounds on memory.
    7. `asleep_completed` — once no worker has a wakeup, every request is complete.
-/

namespace ServingSim

open Custody PendingOrderPolicy

/-! ## Where the KV of a request is -/

namespace PrefillView

variable {view : PrefillView}

theorem phase_eq_held : view.phase = .held 0 ↔ view = .held := by
  cases view <;> simp [phase]

theorem phase_eq_drained : view.phase = .drained 0 ↔ view = .prefilling := by
  cases view <;> simp [phase]

end PrefillView

theorem DecodeView.phase_eq_resident {m n : Nat} {view : DecodeView m n} {p : Fin n} :
    view.phase = .resident p ↔ view = .decoding p := by
  cases view <;> simp [phase]

theorem DecodeView.phase_ne_absent {m n : Nat} {view : DecodeView m n} :
    view.phase ≠ .absent ↔ ∃ p, view = .decoding p := by
  cases view <;> simp [phase]

namespace PdPlace

variable {m k n : Nat} {place : PdPlace m k n} {i : Fin m} {j : Fin k}

/-- The prefill worker whose store has the request. -/
def prefillKeeper : PdPlace m k n → Option (Fin m)
  | prefilling i | announced i | queued i _ | pulling i _ => some i
  | landed holder _ | decoding holder _ _ | done holder => holder
  | absent | waiting _ => none

/-- The decode worker whose store has the request. -/
def decodeKeeper : PdPlace m k n → Option (Fin k)
  | decoding _ j _ => some j
  | absent | waiting _ | prefilling _ | announced _ | queued _ _ | pulling _ _ | landed _ _
  | done _ => none

theorem prefillKeeper_of_phase (h : (place.prefillView i).phase ≠ .absent) :
    place.prefillKeeper = some i := by
  cases place with
  | absent => exact absurd rfl h
  | _ =>
    simp only [prefillView] at h
    split at h <;> simp_all [PrefillView.phase, prefillKeeper]

theorem decodeKeeper_of_phase (h : (place.decodeView j).phase ≠ .absent) :
    place.decodeKeeper = some j := by
  cases place <;> simp only [decodeView] at h <;> first
    | exact absurd rfl h
    | (split at h <;> simp_all [DecodeView.phase, decodeKeeper])

theorem prefillView_eq_held (hannounced : ∀ i, place ≠ .announced i) (hack : place.ack = none) :
    place.prefillView i = .held ↔ ∃ j, place = .queued i j ∨ place = .pulling i j := by
  cases place <;> simp_all [prefillView, ack]
  all_goals
    split <;> simp

theorem exists_holder_iff {f : Option (Fin m) → PdPlace m k n}
    (hf : ∀ holder, (f holder).ack = holder)
    (hack : place.ack = none) : (∃ holder, place = f holder) ↔ place = f none := by
  refine ⟨fun ⟨holder, hp⟩ => ?_, fun hp => ⟨none, hp⟩⟩
  rw [hp, hf] at hack
  rw [hp, hack]

theorem decodeView_eq_decoding_acknowledged (hack : place.ack = none) {p : Fin n} :
    place.decodeView j = .decoding p ↔ place = .decoding none j p :=
  decodeView_eq_decoding.trans (exists_holder_iff (fun _ => rfl) hack)

end PdPlace

/-! ## Workers without a wakeup -/

theorem PdPrefillWorker.nextWakeup_eq_none {P : Type} [PendingOrderPolicy P] {acc : KvAccounting}
    {w : PdPrefillWorker P acc} {now : Time} (hnow : now < noWakeupTime)
    (hend : w.computeEnd ≠ some noWakeupTime)
    (h : (w.nextWakeup now).getD noWakeupTime = noWakeupTime) : w.nextWakeup now = none := by
  by_contra hne
  obtain ⟨wakeup, hwakeup⟩ := Option.ne_none_iff_exists'.mp hne
  rw [hwakeup, Option.getD_some] at h
  subst h
  unfold nextWakeup at hwakeup
  split at hwakeup
  · split at hwakeup
    · cases hwakeup
      exact absurd hnow (lt_irrefl _)
    · cases hwakeup
  · rename_i hrunning
    exact hend (hrunning.trans hwakeup)

theorem PullDecodeWorker.nextWakeup_eq_none {acc : KvAccounting} {m n : Nat}
    {w : PullDecodeWorker acc m n} {now : Time} (hnow : now < noWakeupTime)
    (hend : w.computeEnd ≠ some noWakeupTime)
    (hpull : ∀ pull ∈ w.pulls.inFlight, pull.pullEnd ≠ noWakeupTime)
    (h : (w.nextWakeup now).getD noWakeupTime = noWakeupTime) : w.nextWakeup now = none := by
  by_contra hne
  obtain ⟨wakeup, hwakeup⟩ := Option.ne_none_iff_exists'.mp hne
  rw [hwakeup, Option.getD_some] at h
  subst h
  unfold nextWakeup at hwakeup
  -- the wakeup is one of these three, or the earlier of two of them
  cases hflight : w.pulls.inFlight with
  | none =>
    cases hrunning : w.computeEnd with
    | none => cases hpending : w.pulls.pendingDecodes.isEmpty <;> simp_all
    | some computeEnd => simp_all
  | some pull =>
    have hlater : pull.pullEnd ≠ noWakeupTime := hpull pull hflight
    cases hrunning : w.computeEnd with
    | none =>
      cases hpending : w.pulls.pendingDecodes.isEmpty with
      | true => simp_all
      | false =>
        simp only [hflight, hrunning, hpending, Option.map_some, Bool.false_eq_true, if_false,
          Option.some_inj] at hwakeup
        rcases min_choice pull.pullEnd now with hmin | hmin
        · exact hlater (hmin.symm.trans hwakeup)
        · exact hnow.ne (hmin.symm.trans hwakeup)
    | some computeEnd =>
      simp only [hflight, hrunning, Option.map_some, Option.some_inj] at hwakeup
      rcases min_choice pull.pullEnd computeEnd with hmin | hmin
      · exact hlater (hmin.symm.trans hwakeup)
      · exact hend (by rw [hrunning, ← hmin, hwakeup])

namespace PdRun

variable {P : Type} [PendingOrderPolicy P] {prefillAcc decodeAcc : KvAccounting} {m k n : Nat}
  {cfg : PdConfig prefillAcc decodeAcc m k n} {sweep : Sweep}
  {run run' : PdRun P prefillAcc decodeAcc m k n}

/-! ## Reading the tables -/

/-- The tables a request can be in between two operations. -/
inductive Table (m k n : Nat) where
  | pending (i : Fin m)
  | prefillBatch (i : Fin m)
  | pendingPulls (j : Fin k)
  | inFlight (j : Fin k)
  | pendingDecodes (j : Fin k)
  | decodes (j : Fin k) (p : Fin n)
  | completed
  deriving DecidableEq, Repr

def prefillWorker (run : PdRun P prefillAcc decodeAcc m k n) (i : Fin m) :
    PdPrefillWorker P prefillAcc :=
  run.flow.prefillPool.pool.workers i

def decodeWorker (run : PdRun P prefillAcc decodeAcc m k n) (j : Fin k) :
    PullDecodeWorker decodeAcc m n :=
  run.flow.decodePool.pool.workers j

/-- The requests a table names. -/
def table (run : PdRun P prefillAcc decodeAcc m k n) : Table m k n → List RequestId
  | .pending i => (candidates (run.prefillWorker i).policy).map fun c => c.requestId
  | .prefillBatch i => ((run.prefillWorker i).kv.partitions prefillPartition).prefillAdmits
  | .pendingPulls j => (run.decodeWorker j).pulls.pendingPulls.map Prod.fst
  | .inFlight j => (run.decodeWorker j).pulls.inFlight.toList.map fun pull => pull.request
  | .pendingDecodes j => (run.decodeWorker j).pulls.pendingDecodes.map Prod.fst
  | .decodes j p => ((run.decodeWorker j).kv.partitions p).decodeMembers.map Prod.fst
  | .completed => run.completed

/-- The tables have the request at this place. Between two operations none is announced
and not handed over, or landed and not acknowledged. -/
def At (run : PdRun P prefillAcc decodeAcc m k n) (r : RequestId) : PdPlace m k n → Prop
  | .absent => r ∉ run.flow.world.arrived
  | .waiting i => r ∈ run.table (.pending i)
  | .prefilling i => r ∈ run.table (.prefillBatch i)
  | .announced _ => False
  | .queued i j => ∃ e ∈ (run.decodeWorker j).pulls.pendingPulls, e.1 = r ∧ e.2.prefillWorker = i
  | .pulling i j => ∃ pull ∈ (run.decodeWorker j).pulls.inFlight,
    pull.request = r ∧ pull.prefillWorker = i
  | .landed none j => r ∈ run.table (.pendingDecodes j)
  | .decoding none j p => r ∈ run.table (.decodes j p)
  | .done none => r ∈ run.table .completed
  | .landed (some _) _ | .decoding (some _) _ _ | .done (some _) => False

/-- What a run of the driver can lead a new deployment to; its pending sets are empty. -/
def Reached (cfg : PdConfig prefillAcc decodeAcc m k n) (sweep : Sweep)
    (run : PdRun P prefillAcc decodeAcc m k n) : Prop :=
  ∃ (cluster : GpuCluster) (policies : Fin m → P) (ops : List PdOp),
    (∀ i, candidates (policies i) = []) ∧
    Run.TryAllowed (step cfg sweep) Arrives (.new cfg cluster policies) ops ∧
    tryRun cfg sweep (.new cfg cluster policies) ops = .ok run

section places

variable {visits : Time → Prop} {place : RequestId → PdPlace m k n}

theorem Reached.sound (h : Reached cfg sweep run) :
    ∃ place, Sound cfg (fun _ => True) run place := by
  obtain ⟨cluster, policies, ops, hpolicies, hallowed, hrun⟩ := h
  have hnew : Sound cfg (fun _ => True) (.new cfg cluster policies) _ :=
    sound_new cfg (t := 0) trivial cluster hpolicies
  rcases tryRun_ok hnew sweep hallowed fun o _ => by cases o <;> trivial with hfail |
    ⟨run', place, hrun', hsound, -⟩
  · exact (not_endsWith_ok (hrun ▸ hfail)).elim
  rw [hrun] at hrun'
  cases hrun'
  exact ⟨place, hsound⟩

theorem Sound.quiet (h : Sound cfg visits run place) (r : RequestId) :
    (∀ i, place r ≠ .announced i) ∧ (place r).ack = none := by
  refine ⟨fun i hr => ?_, Option.eq_none_iff_forall_ne_some.mpr fun i hr => ?_⟩
  · exact List.not_mem_nil ((h.sound.noted.announced.mem_iff r).mpr ⟨i, hr⟩)
  · exact List.not_mem_nil ((h.sound.noted.landed.mem_iff r).mpr (hr ▸ rfl))

theorem Sound.at_iff (h : Sound cfg visits run place) (r : RequestId) (p : PdPlace m k n) :
    run.At r p ↔ place r = p := by
  obtain ⟨hannounced, hack⟩ := h.quiet r
  cases p with
  | absent => exact (not_congr (h.sound.stands.arrived r)).trans not_not
  | waiting i =>
    exact ((h.sound.stands.prefill i).waiting.mem_iff r).trans PdPlace.prefillView_eq_waiting
  | prefilling i =>
    exact ((h.sound.stands.prefill i).prefilling.mem_iff r).trans PdPlace.prefillView_eq_prefilling
  | announced i => exact ⟨False.elim, hannounced i⟩
  | queued i j =>
    have hpulls := (h.sound.stands.decode j).pulls
    constructor
    · rintro ⟨e, he, rfl, rfl⟩
      exact PdPlace.decodeView_eq_queued.mp (hpulls.asked e he).1
    · intro hr
      have hview := PdPlace.decodeView_eq_queued.mpr hr
      obtain ⟨e, he, rfl⟩ := List.mem_map.mp ((hpulls.queued.mem_iff r).mpr ⟨i, hview⟩)
      have hsource := (hpulls.asked e he).1
      rw [hview] at hsource
      cases hsource
      exact ⟨e, he, rfl, rfl⟩
  | pulling i j =>
    have hpulls := (h.sound.stands.decode j).pulls
    constructor
    · rintro ⟨pull, hpull, rfl, rfl⟩
      exact PdPlace.decodeView_eq_pulling.mp (hpulls.pulled pull hpull).1
    · intro hr
      have hview := PdPlace.decodeView_eq_pulling.mpr hr
      obtain ⟨pull, hpull, rfl⟩ := List.mem_map.mp ((hpulls.pulling.mem_iff r).mpr ⟨i, hview⟩)
      rw [Option.mem_toList] at hpull
      have hsource := (hpulls.pulled pull hpull).1
      rw [hview] at hsource
      cases hsource
      exact ⟨pull, hpull, rfl, rfl⟩
  | landed holder j =>
    have hlanded := ((h.sound.stands.decode j).pulls.landed.mem_iff r).trans
      PdPlace.decodeView_eq_landed
    cases holder with
    | none => exact hlanded.trans (PdPlace.exists_holder_iff (fun _ => rfl) hack)
    | some i => exact ⟨False.elim, fun hr => by rw [hr] at hack; cases hack⟩
  | decoding holder j p =>
    have hdecoding := (h.sound.stands.decode j).mem_decodeMembers p r
    cases holder with
    | none => exact hdecoding.trans (PdPlace.decodeView_eq_decoding_acknowledged hack)
    | some i => exact ⟨False.elim, fun hr => by rw [hr] at hack; cases hack⟩
  | done holder =>
    have hfinished := h.sound.noted.finished.mem_iff r
    rw [List.filterMap_nil, List.append_nil] at hfinished
    cases holder with
    | none => exact hfinished.trans (PdPlace.exists_holder_iff (fun _ => rfl) hack)
    | some i => exact ⟨False.elim, fun hr => by rw [hr] at hack; cases hack⟩

theorem Sound.table_nodup (h : Sound cfg visits run place) (t : Table m k n) :
    (run.table t).Nodup := by
  cases t with
  | pending i => exact (h.sound.stands.prefill i).waiting.nodup
  | prefillBatch i => exact (h.sound.stands.prefill i).prefilling.nodup
  | pendingPulls j => exact (h.sound.stands.decode j).pulls.queued.nodup
  | inFlight j => exact (h.sound.stands.decode j).pulls.pulling.nodup
  | pendingDecodes j => exact (h.sound.stands.decode j).pulls.landed.nodup
  | decodes j p => exact PullDecodeWorker.DecodeStands.nodup_decodeMembers (run.decodeWorker j) p
  | completed => simpa [table] using h.sound.noted.finished.nodup

end places

/-! ## A small deployment -/

theorem fortyTokens_pos : 0 < 40 := by decide

/-- Forty tokens of KV. -/
abbrev fortyTokens : KvAccounting := KvAccounting.tokensForTest 40 fortyTokens_pos

theorem twoByTwo_fresh (r : RequestId) : (RequestRecord.fromRequest r 0 12 3 .standalone).Fresh ∧
      (RequestRecord.fromRequest r 0 12 3 .standalone).id = r := ⟨rfl, rfl⟩

/-- Two prefill and two decode workers, and prompts of twelve tokens with outputs of three. -/
def twoByTwo : PdConfig fortyTokens fortyTokens 2 2 1 where
  trace := fun r => .fromRequest r 0 12 3 .standalone
  prefill := { sendGroupId := fun i => i, evaluateIteration := fun _ _ _ _ _ => 5 }
  decode :=
    { receiveGroupId := fun j => 2 + j
      pullBudgetTokens := 20
      evaluateIteration := fun _ _ _ _ _ => 3
      partitions_pos := Nat.one_pos }
  prefillPlacement := .leastQueued
  decodePlacement := .roundRobin
  prefixCache := .disabled
  balance := .single
  trace_fresh := twoByTwo_fresh
  numPrefillWorkers_pos := Nat.two_pos
  numDecodeWorkers_pos := Nat.two_pos
  balance_blind := rfl

/-- One link a group, a nanosecond a byte. -/
def singleLinks : GpuCluster where
  groups := fun _ => ⟨1, 0, 0⟩
  cost := ⟨fun bytes _ => bytes, 1⟩

/-- The small deployment before it has received anything. -/
def newTwoByTwo : PdRun PendingOrder fortyTokens fortyTokens 2 2 1 :=
  .new twoByTwo singleLinks fun _ => .new .fifo

/-- Three requests arrive and are served. -/
def servedTwoByTwo : List PdOp :=
  [.arrive 1, .arrive 2, .arrive 3, .tick 0, .tick 5, .tick 10, .tick 18, .tick 21, .tick 24,
    .tick 34, .tick 35, .tick 38, .tick 41]

theorem reached_twoByTwo (ops : List PdOp)
    (check : PdRun PendingOrder fortyTokens fortyTokens 2 2 1 → Bool)
    (hallowed : Run.TryAllowed (step twoByTwo .due) Arrives newTwoByTwo ops)
    (hcheck : (tryRun twoByTwo .due newTwoByTwo ops).toOption.any check = true) :
    ∃ run, Reached twoByTwo .due run ∧ check run = true := by
  obtain ⟨run, hrun, hchecked⟩ := exists_ok_of_any hcheck
  exact ⟨run, ⟨singleLinks, fun _ => .new .fifo, ops, fun _ => rfl, hallowed, hrun⟩, hchecked⟩

/-! ## Safety -/

/-- Every request is at exactly one place, and no table names a request twice. -/
theorem custody (h : Reached cfg sweep run) :
    (∀ r, ∃! p, run.At r p) ∧ ∀ t, (run.table t).Nodup := by
  obtain ⟨place, hsound⟩ := h.sound
  refine ⟨fun r => ⟨place r, (hsound.at_iff r _).mpr rfl, fun p hp => ?_⟩, hsound.table_nodup⟩
  exact ((hsound.at_iff r p).mp hp).symm

/-- Two requests are pulled, the third is handed over and waits for its pull. -/
theorem custody_three : ∃ run : PdRun PendingOrder fortyTokens fortyTokens 2 2 1,
    (run.table (.inFlight 0) = [1] ∧ run.table (.inFlight 1) = [2] ∧
      run.table (.pendingPulls 0) = [3]) ∧
    (∀ r, ∃! p, run.At r p) ∧ ∀ t, (run.table t).Nodup := by
  obtain ⟨run, hreached, hchecked⟩ := reached_twoByTwo
    [.arrive 1, .arrive 2, .arrive 3, .tick 0, .tick 5, .tick 10]
    (fun run => decide (run.table (.inFlight 0) = [1] ∧ run.table (.inFlight 1) = [2] ∧
      run.table (.pendingPulls 0) = [3]))
    (by decide +kernel) (by decide +kernel)
  exact ⟨run, of_decide_eq_true hchecked, custody hreached⟩

/-- From any reachable deployment on, a request only goes along the handoff protocol. -/
theorem moves_along_protocol (h : Reached cfg sweep run) {ops : List PdOp}
    (hallowed : Run.TryAllowed (step cfg sweep) Arrives run ops)
    (hrun : tryRun cfg sweep run ops = .ok run') {r : RequestId} {p p' : PdPlace m k n}
    (hat : run.At r p) (hat' : run'.At r p') : Relation.ReflTransGen PdPlace.Step p p' := by
  obtain ⟨place, hsound⟩ := h.sound
  rcases tryRun_ok hsound sweep hallowed fun o _ => by cases o <;> trivial with hfail |
    ⟨run₁, place', hrun₁, hsound', hmoves⟩
  · exact (not_endsWith_ok (hrun ▸ hfail)).elim
  rw [hrun] at hrun₁
  cases hrun₁
  rw [← (hsound.at_iff r p).mp hat, ← (hsound'.at_iff r p').mp hat']
  exact hmoves r

/-- The request that waits for its pull is decoded by the worker it was handed to. -/
theorem moves_along_protocol_three : ∃ run run' : PdRun PendingOrder fortyTokens fortyTokens 2 2 1,
    run.At 3 (.queued 0 0) ∧ run'.At 3 (.decoding none 0 0) ∧
      Relation.ReflTransGen PdPlace.Step (PdPlace.queued (n := 1) (0 : Fin 2) (0 : Fin 2))
        (.decoding none 0 0) := by
  obtain ⟨run, hreached, hchecked⟩ := reached_twoByTwo
    [.arrive 1, .arrive 2, .arrive 3, .tick 0, .tick 5, .tick 10]
    (fun run => decide ((∃ e ∈ (run.decodeWorker 0).pulls.pendingPulls,
        e.1 = 3 ∧ e.2.prefillWorker = 0) ∧
      Run.TryAllowed (step twoByTwo .due) Arrives run [.tick 18, .tick 21, .tick 35, .tick 38] ∧
      (tryRun twoByTwo .due run [.tick 18, .tick 21, .tick 35, .tick 38]).toOption.any
        (fun run' => decide (3 ∈ run'.table (.decodes 0 0))) = true))
    (by decide +kernel) (by decide +kernel)
  obtain ⟨hat, hallowed, hend⟩ := of_decide_eq_true hchecked
  obtain ⟨run', hrun, hdecoding⟩ := exists_ok_of_any hend
  have hat' : 3 ∈ run'.table (.decodes 0 0) := of_decide_eq_true hdecoding
  exact ⟨run, run', hat, hat', moves_along_protocol hreached hallowed hrun hat hat'⟩

/-- Which worker's store has a request. -/
structure KvCustody (run : PdRun P prefillAcc decodeAcc m k n) : Prop where
  /-- A prefill worker holds what a decode worker has been handed and has not pulled. -/
  held_iff : ∀ i r, (run.prefillWorker i).kv.phaseOf r = .held 0 ↔
    ∃ j, run.At r (.queued i j) ∨ run.At r (.pulling i j)
  prefilling_iff : ∀ i r, (run.prefillWorker i).kv.phaseOf r = .drained 0 ↔ run.At r (.prefilling i)
  resident_iff : ∀ j p r, (run.decodeWorker j).kv.phaseOf r = .resident p ↔
    run.At r (.decoding none j p)
  /-- A decode worker's store has what is decoded there and nothing else. -/
  decode_iff : ∀ j r, (run.decodeWorker j).kv.phaseOf r ≠ .absent ↔
    ∃ p, run.At r (.decoding none j p)
  one_prefill : ∀ i i' r, (run.prefillWorker i).kv.phaseOf r ≠ .absent →
    (run.prefillWorker i').kv.phaseOf r ≠ .absent → i = i'
  one_decode : ∀ j j' r, (run.decodeWorker j).kv.phaseOf r ≠ .absent →
    (run.decodeWorker j').kv.phaseOf r ≠ .absent → j = j'
  never_both : ∀ i j r, (run.prefillWorker i).kv.phaseOf r ≠ .absent →
    (run.decodeWorker j).kv.phaseOf r = .absent

/-- At most one worker's store has a request: a prefill worker's until the pull has
landed, a decode worker's while it decodes. -/
theorem kv_custody (h : Reached cfg sweep run) : KvCustody run := by
  obtain ⟨place, hsound⟩ := h.sound
  have hprefill : ∀ i r, (run.prefillWorker i).kv.phaseOf r = ((place r).prefillView i).phase :=
    fun i r => (hsound.sound.stands.prefill i).phase r
  have hdecode : ∀ j r, (run.decodeWorker j).kv.phaseOf r = ((place r).decodeView j).phase :=
    fun j r => (hsound.sound.stands.decode j).phase r
  refine ⟨fun i r => ?_, fun i r => ?_, fun j p r => ?_, fun j r => ?_, fun i i' r => ?_,
    fun j j' r => ?_, fun i j r => ?_⟩
  · obtain ⟨hannounced, hack⟩ := hsound.quiet r
    simp only [hprefill, hsound.at_iff]
    rw [PrefillView.phase_eq_held, PdPlace.prefillView_eq_held hannounced hack]
  · simp only [hprefill, hsound.at_iff]
    rw [PrefillView.phase_eq_drained, PdPlace.prefillView_eq_prefilling]
  · simp only [hdecode, hsound.at_iff]
    rw [DecodeView.phase_eq_resident,
      PdPlace.decodeView_eq_decoding_acknowledged (hsound.quiet r).2]
  · simp only [hdecode, hsound.at_iff]
    rw [DecodeView.phase_ne_absent]
    exact exists_congr fun p =>
      PdPlace.decodeView_eq_decoding_acknowledged (hsound.quiet r).2
  · rw [hprefill, hprefill]
    intro hi hi'
    have hkeeper := PdPlace.prefillKeeper_of_phase hi
    rw [PdPlace.prefillKeeper_of_phase hi'] at hkeeper
    exact (Option.some_inj.mp hkeeper).symm
  · rw [hdecode, hdecode]
    intro hj hj'
    have hkeeper := PdPlace.decodeKeeper_of_phase hj
    rw [PdPlace.decodeKeeper_of_phase hj'] at hkeeper
    exact (Option.some_inj.mp hkeeper).symm
  · rw [hprefill, hdecode]
    intro hi
    by_contra hj
    have hack := (hsound.quiet r).2
    have hprefillKeeper := PdPlace.prefillKeeper_of_phase hi
    have hdecodeKeeper := PdPlace.decodeKeeper_of_phase hj
    cases hplace : place r <;> rw [hplace] at hack hprefillKeeper hdecodeKeeper <;>
      simp_all [PdPlace.ack, PdPlace.prefillKeeper, PdPlace.decodeKeeper]

theorem kv_custody_three : ∃ run : PdRun PendingOrder fortyTokens fortyTokens 2 2 1,
    ((run.prefillWorker 0).kv.phaseOf 3 = .held 0 ∧
        (run.decodeWorker 0).kv.phaseOf 1 = .resident 0) ∧
      KvCustody run := by
  obtain ⟨run, hreached, hchecked⟩ := reached_twoByTwo
    [.arrive 1, .arrive 2, .arrive 3, .tick 0, .tick 5, .tick 10, .tick 18]
    (fun run => decide ((run.prefillWorker 0).kv.phaseOf 3 = .held 0 ∧
      (run.decodeWorker 0).kv.phaseOf 1 = .resident 0))
    (by decide +kernel) (by decide +kernel)
  exact ⟨run, of_decide_eq_true hchecked, kv_custody hreached⟩

/-- How the tokens of the requests are accounted for. -/
structure TokensAccounted (cfg : PdConfig prefillAcc decodeAcc m k n)
    (run : PdRun P prefillAcc decodeAcc m k n) : Prop where
  /-- A first token and the rest of the output, never more. -/
  completed : ∀ r ∈ run.completed,
    (run.flow.world.requests r).outputTokensEmitted = max 1 (cfg.trace r).targetOutputTokens
  decoding : ∀ j p, ∀ e ∈ ((run.decodeWorker j).kv.partitions p).decodeStates,
    e.2.1 + 1 = (cfg.trace e.1).contextTokens + (run.flow.world.requests e.1).outputTokensEmitted ∧
    e.2.2 + (run.flow.world.requests e.1).outputTokensEmitted = (cfg.trace e.1).targetOutputTokens
  handed : ∀ r i j, run.At r (.queued i j) ∨ run.At r (.pulling i j) ∨ run.At r (.landed none j) →
    (run.flow.world.requests r).outputTokensEmitted = 1
  waiting : ∀ r i, run.At r (.waiting i) ∨ run.At r (.prefilling i) →
    (run.flow.world.requests r).outputTokensEmitted = 0

theorem tokens_accounted (h : Reached cfg sweep run) : TokensAccounted cfg run := by
  obtain ⟨place, hsound⟩ := h.sound
  have hprogress := hsound.sound.stands.progress
  have htarget := hsound.sound.stands.targetOutputTokens_eq
  refine ⟨fun r hr => ?_, fun j p e he => ?_, fun r i j hr => ?_, fun r i hr => ?_⟩
  · have hplace := (hsound.at_iff r (.done none)).mp hr
    have hdone := hprogress r
    rw [hplace] at hdone
    exact hdone.trans (by rw [htarget])
  · rw [ResidentPartitionState.decodeStates, ResidentPartitionState.iterDecoding] at he
    obtain ⟨⟨r, state⟩, he', rfl⟩ := List.mem_map.mp he
    have hmem := (List.mem_filter.mp he').1
    have hat : run.At r (.decoding none j p) := List.mem_map.mpr ⟨_, List.mem_map_of_mem he', rfl⟩
    have hplace := (hsound.at_iff r _).mp hat
    obtain ⟨state', hstate', hkv, hremaining, hlive⟩ :=
      (hsound.sound.stands.decode j).decoding r p (by rw [hplace, PdPlace.decodeView, if_pos rfl])
    have hstate : (run.decodeWorker j).kv.decodeOf p r = some state :=
      (SlotList.get?_eq_some_iff _ _ _).mpr hmem
    obtain rfl : state = state' := Option.some_inj.mp (hstate.symm.trans hstate')
    refine ⟨hkv, ?_⟩
    have hleft : state.remainingDecode + (run.flow.world.requests r).outputTokensEmitted =
        (run.flow.world.requests r).targetOutputTokens := by
      rw [hremaining]
      rw [RequestRecord.remainingOutputTokens] at hlive ⊢
      omega
    exact hleft.trans (htarget r)
  · rcases hr with hr | hr | hr
    all_goals
      have hplace := (hsound.at_iff r _).mp hr
      have hemitted := hprogress r
      rw [hplace] at hemitted
      exact hemitted.1
  · rcases hr with hr | hr
    · have hplace := (hsound.at_iff r _).mp hr
      have hemitted := hprogress r
      rw [hplace] at hemitted
      exact hemitted.1
    · have hplace := (hsound.at_iff r _).mp hr
      have hemitted := hprogress r
      rw [hplace] at hemitted
      exact hemitted

/-- A decode of twelve tokens has emitted two of its three tokens. -/
theorem tokens_accounted_three : ∃ run : PdRun PendingOrder fortyTokens fortyTokens 2 2 1,
    ((run.decodeWorker 0).kv.partitions 0).decodeStates = [(1, 13, 1)] ∧
      TokensAccounted twoByTwo run := by
  obtain ⟨run, hreached, hchecked⟩ := reached_twoByTwo
    [.arrive 1, .arrive 2, .arrive 3, .tick 0, .tick 5, .tick 10, .tick 18, .tick 21]
    (fun run => decide (((run.decodeWorker 0).kv.partitions 0).decodeStates = [(1, 13, 1)]))
    (by decide +kernel) (by decide +kernel)
  exact ⟨run, of_decide_eq_true hchecked, tokens_accounted hreached⟩

/-- What a decode worker has pulled or is pulling, and has not let in. -/
def pullBacklog (run : PdRun P prefillAcc decodeAcc m k n) (j : Fin k) : List RequestId :=
  run.table (.pendingDecodes j) ++ run.table (.inFlight j)

/-- The pull backlog is the context of the requests in it, and within the budget unless
one of them alone is larger. -/
theorem pull_backlog_bounded (h : Reached cfg sweep run) (j : Fin k) :
    (run.decodeWorker j).pulls.pullBacklogTokens =
        ((run.pullBacklog j).map fun r => (cfg.trace r).contextTokens).sum ∧
      ((run.decodeWorker j).pulls.pullBacklogTokens ≤ cfg.decode.pullBudgetTokens ∨
        ∃ r ∈ run.pullBacklog j,
          (run.decodeWorker j).pulls.pullBacklogTokens = (cfg.trace r).contextTokens) := by
  obtain ⟨place, hsound⟩ := h.sound
  have hpulls := (hsound.sound.stands.decode j).pulls
  have hbacklog : (run.decodeWorker j).pulls.backlog =
      (run.pullBacklog j).map fun r => (cfg.trace r).contextTokens := by
    rw [PullPipeline.backlog, pullBacklog, List.map_append]
    congr 1
    · rw [table, List.map_map]
      exact List.map_congr_left fun e he => hpulls.kept e he
    · rw [table, List.map_map]
      exact List.map_congr_left fun pull hpull =>
        (hpulls.pulled pull (Option.mem_toList.mp hpull)).2
  refine ⟨by rw [PullPipeline.pullBacklogTokens_eq, hbacklog], ?_⟩
  refine hpulls.budget.imp_right fun hmem => ?_
  obtain ⟨r, hr, htokens⟩ := List.mem_map.mp (hbacklog ▸ hmem)
  exact ⟨r, hr, htokens.symm⟩

theorem pull_backlog_bounded_three : ∃ run : PdRun PendingOrder fortyTokens fortyTokens 2 2 1,
    run.pullBacklog 0 = [1] ∧ (run.decodeWorker 0).pulls.pullBacklogTokens =
        ((run.pullBacklog 0).map fun r => (twoByTwo.trace r).contextTokens).sum ∧
      ((run.decodeWorker 0).pulls.pullBacklogTokens ≤ twoByTwo.decode.pullBudgetTokens ∨
        ∃ r ∈ run.pullBacklog 0,
          (run.decodeWorker 0).pulls.pullBacklogTokens = (twoByTwo.trace r).contextTokens) := by
  obtain ⟨run, hreached, hchecked⟩ := reached_twoByTwo
    [.arrive 1, .arrive 2, .arrive 3, .tick 0, .tick 5, .tick 10]
    (fun run => decide (run.pullBacklog 0 = [1])) (by decide +kernel) (by decide +kernel)
  exact ⟨run, of_decide_eq_true hchecked, pull_backlog_bounded hreached 0⟩

/-- What a prefill worker computes and what it holds fit its memory. -/
theorem prefill_memory_bounded (h : Reached cfg sweep run) (i : Fin m) :
    ((run.table (.prefillBatch i)).map fun r =>
        (KvCacheStore.footprint prefillAcc (cfg.trace r).contextTokens 0).reservedUnits).sum +
      (run.prefillWorker i).kv.ledger.partitionHeld 0 ≤ prefillAcc.capacityUnits := by
  obtain ⟨place, hsound⟩ := h.sound
  have hstands : PdPrefillWorker.PrefillStands cfg.trace (run.prefillWorker i)
    fun r => (place r).prefillView i := hsound.sound.stands.prefill i
  have hdrained : ∀ r ∈ run.table (.prefillBatch i),
      (run.prefillWorker i).kv.phaseOf r = .drained 0 := by
    intro r hr
    rw [hstands.phase r, (hstands.prefilling.mem_iff r).mp hr]
    rfl
  -- what is prefilled is charged where it is placed
  have hweight : ∀ r ∈ run.table (.prefillBatch i),
      (KvCacheStore.footprint prefillAcc (cfg.trace r).contextTokens 0).reservedUnits =
        KeyedTotal.weightAt (fun r _ => drainedIn (prefillWork cfg.trace) prefillAcc 0 r
          ((run.prefillWorker i).kv.phaseOf r)) r (run.prefillWorker i).kv.ledger.placement := by
    intro r hr
    have hplaced : (run.prefillWorker i).kv.ledger.placement.lookup r = some 0 := by
      have htracks := (hstands.room.tracked r).placement
      rw [hdrained r hr] at htracks
      exact htracks
    rw [KeyedTotal.weightAt_of_lookup hplaced, hdrained r hr, drainedIn, if_pos rfl]
    rfl
  obtain ⟨x, -, hroom⟩ := hstands.room.room 0
  have hpending := KvCacheStore.pendingUnits_eq hstands.room.tracked hstands.room.charged 0
  have hsum : ((run.table (.prefillBatch i)).map fun r =>
      (KvCacheStore.footprint prefillAcc (cfg.trace r).contextTokens 0).reservedUnits).sum ≤
        (run.prefillWorker i).kv.drainedUnits (prefillWork cfg.trace) 0 := by
    rw [List.map_congr_left hweight]
    exact KeyedTotal.sum_weightAt_le_total _ hstands.prefilling.nodup _
  omega

/-- One prompt is computed while another is held. -/
theorem prefill_memory_bounded_three : ∃ run : PdRun PendingOrder fortyTokens fortyTokens 2 2 1,
    (run.table (.prefillBatch 0) = [3] ∧ (run.prefillWorker 0).kv.ledger.partitionHeld 0 = 12) ∧
      ((run.table (.prefillBatch 0)).map fun r =>
          (KvCacheStore.footprint fortyTokens
            (twoByTwo.trace r).contextTokens 0).reservedUnits).sum +
        (run.prefillWorker 0).kv.ledger.partitionHeld 0 ≤ fortyTokens.capacityUnits := by
  obtain ⟨run, hreached, hchecked⟩ := reached_twoByTwo
    [.arrive 1, .arrive 2, .arrive 3, .tick 0, .tick 5]
    (fun run => decide (run.table (.prefillBatch 0) = [3] ∧
      (run.prefillWorker 0).kv.ledger.partitionHeld 0 = 12))
    (by decide +kernel) (by decide +kernel)
  exact ⟨run, of_decide_eq_true hchecked, prefill_memory_bounded hreached 0⟩

/-! ## No lost wakeup -/

/-- No worker has a wakeup. -/
def Asleep (run : PdRun P prefillAcc decodeAcc m k n) : Prop :=
  (∀ i, run.flow.prefillPool.pool.workerWakeupTimes i = noWakeupTime) ∧
    ∀ j, run.flow.decodePool.pool.workerWakeupTimes j = noWakeupTime

/-- No iteration and no pull ends at the sentinel time. -/
def EndsInTime (run : PdRun P prefillAcc decodeAcc m k n) : Prop :=
  (∀ i, (run.prefillWorker i).computeEnd ≠ some noWakeupTime) ∧
    ∀ j, (run.decodeWorker j).computeEnd ≠ some noWakeupTime ∧
      ∀ pull ∈ (run.decodeWorker j).pulls.inFlight, pull.pullEnd ≠ noWakeupTime

instance (run : PdRun P prefillAcc decodeAcc m k n) : Decidable run.Asleep :=
  inferInstanceAs (Decidable (_ ∧ _))

instance (run : PdRun P prefillAcc decodeAcc m k n) : Decidable run.EndsInTime :=
  inferInstanceAs (Decidable (_ ∧ ∀ _, _ ∧ _))

/-- Once no worker has a wakeup, every request that arrived is complete, and no worker's
store has one: no wakeup was lost and nothing waits for ever. -/
theorem asleep_completed {cluster : GpuCluster} {policies : Fin m → P}
    (hpolicies : ∀ i, candidates (policies i) = []) {ops : List PdOp}
    (hallowed : Run.TryAllowed (step cfg sweep) Arrives (.new cfg cluster policies) ops)
    (hvisits : ∀ o ∈ ops, o.Visits (· < noWakeupTime))
    (hrun : tryRun cfg sweep (.new cfg cluster policies) ops = .ok run)
    (hasleep : run.Asleep) (hends : run.EndsInTime) :
    (∀ r, r ∈ run.flow.world.arrived ↔ r ∈ run.completed) ∧
      (∀ i r, (run.prefillWorker i).kv.phaseOf r = .absent) ∧
      ∀ j r, (run.decodeWorker j).kv.phaseOf r = .absent := by
  have hnew : Sound cfg (· < noWakeupTime) (.new cfg cluster policies) _ :=
    sound_new cfg (t := 0) (by decide) cluster hpolicies
  rcases tryRun_ok hnew sweep hallowed hvisits with hfail | ⟨run', place, hrun', h, -⟩
  · exact (not_endsWith_ok (hrun ▸ hfail)).elim
  rw [hrun] at hrun'
  cases hrun'
  have hprefill : ∀ i r, place r ≠ .waiting i ∧ place r ≠ .prefilling i := by
    intro i r
    obtain ⟨now, hnow, hwants⟩ := h.prefillScheduled i (hasleep.1 i)
    have hquiet := PdPrefillWorker.nextWakeup_eq_none hnow (hends.1 i) hwants
    obtain ⟨hidle, hqueued, -⟩ := (PdPrefillWorker.nextWakeup_eq_none_iff now).mp hquiet
    have hstands := h.sound.stands.prefill i
    have hpending : (candidates (run.prefillWorker i).policy).map (fun c => c.requestId) = [] := by
      rw [List.eq_nil_of_length_eq_zero hqueued, List.map_nil]
    exact ⟨fun hr => hstands.waiting.eq_nil_iff.mp hpending r
      (PdPlace.prefillView_eq_waiting.mpr hr),
      fun hr => hstands.prefilling.eq_nil_iff.mp (hstands.idle hidle) r
        (PdPlace.prefillView_eq_prefilling.mpr hr)⟩
  have hdecode : ∀ j r, (place r).decodeView j = .elsewhere := by
    intro j r
    obtain ⟨now, hnow, hwants⟩ := h.decodeScheduled j (hasleep.2 j)
    have hquiet := PullDecodeWorker.nextWakeup_eq_none hnow (hends.2 j).1 (hends.2 j).2 hwants
    obtain ⟨hidle, hflight, hpending⟩ := (PullDecodeWorker.nextWakeup_eq_none_iff now).mp hquiet
    have hstands : PullDecodeWorker.DecodeStands cfg.trace run.flow.world.requests
      cfg.decode.pullBudgetTokens (run.decodeWorker j) fun r => (place r).decodeView j :=
      h.sound.stands.decode j
    obtain ⟨hlive, hpulls⟩ : (run.decodeWorker j).anyLiveDecode = false ∧ _ := (h.rested j).1 hidle
    -- nothing has landed, so what was handed over would have been submitted
    have hqueued : (run.decodeWorker j).pulls.pendingPulls = [] := by
      by_contra hne
      exact hpulls hflight hne hpending
    cases hview : (place r).decodeView j with
    | elsewhere => rfl
    | queued i =>
      refine absurd ⟨i, hview⟩ (hstands.pulls.queued.eq_nil_iff.mp ?_ r)
      exact congrArg (List.map Prod.fst) hqueued
    | pulling i =>
      refine absurd ⟨i, hview⟩ (hstands.pulls.pulling.eq_nil_iff.mp ?_ r)
      rw [hflight]
      rfl
    | landed =>
      refine absurd hview (hstands.pulls.landed.eq_nil_iff.mp ?_ r)
      rw [hpending]
      rfl
    | decoding p =>
      have hsome := hstands.anyLiveDecode_iff.mpr ⟨r, p, hview⟩
      rw [hlive] at hsome
      cases hsome
  have hplace : ∀ r, place r = .absent ∨ place r = .done none := by
    intro r
    obtain ⟨hannounced, hack⟩ := h.quiet r
    cases hr : place r with
    | absent => exact .inl rfl
    | waiting i => exact absurd hr (hprefill i r).1
    | prefilling i => exact absurd hr (hprefill i r).2
    | announced i => exact absurd hr (hannounced i)
    | queued i j | pulling i j | landed holder j | decoding holder j p =>
      have hview := hdecode j r
      rw [hr, PdPlace.decodeView, if_pos rfl] at hview
      cases hview
    | done holder =>
      rw [hr] at hack
      exact .inr (congrArg PdPlace.done hack)
  refine ⟨fun r => ?_, fun i r => ?_, fun j r => ?_⟩
  · rw [h.sound.stands.arrived r, show r ∈ run.completed ↔ place r = .done none from
      h.at_iff r (.done none)]
    rcases hplace r with hr | hr <;> simp [hr]
  · refine ((h.sound.stands.prefill i).phase r).trans ?_
    rcases hplace r with hr | hr <;> rw [hr] <;> rfl
  · refine ((h.sound.stands.decode j).phase r).trans ?_
    rw [hdecode j r]
    rfl

/-- Three requests are served and the deployment falls asleep. -/
theorem asleep_completed_three : ∃ run : PdRun PendingOrder fortyTokens fortyTokens 2 2 1,
    run.completed = [1, 2, 3] ∧ (∀ r, r ∈ run.flow.world.arrived ↔ r ∈ run.completed) ∧
      (∀ i r, (run.prefillWorker i).kv.phaseOf r = .absent) ∧
      ∀ j r, (run.decodeWorker j).kv.phaseOf r = .absent := by
  have hend : (tryRun twoByTwo .due newTwoByTwo servedTwoByTwo).toOption.any (fun run =>
      decide (run.completed = [1, 2, 3] ∧ run.Asleep ∧ run.EndsInTime)) = true := by
    decide +kernel
  obtain ⟨run, hrun, hchecked⟩ := exists_ok_of_any hend
  obtain ⟨hcompleted, hasleep, hends⟩ := of_decide_eq_true hchecked
  exact ⟨run, hcompleted, asleep_completed (fun _ => rfl) (by decide +kernel) (by decide +kernel)
    hrun hasleep hends⟩

end PdRun

end ServingSim
