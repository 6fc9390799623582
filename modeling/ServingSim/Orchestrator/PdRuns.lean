import ServingSim.Orchestrator.PdMoves

/-
  Runs of a prefill/decode-disaggregated deployment.

  A run is any order of arrivals and visited times, under either sweep. Each operation is
  taken apart into the moves of the deployment; what one operation keeps, every run keeps.
-/

namespace ServingSim

open Custody PendingOrderPolicy PdPrefillWorker PullDecodeWorker

/-! ## Wakeups -/

namespace WorkerPool

variable {m : Nat} {W Msg Event : Type} {driver : IterWorker m W Msg Event}
  {wants : W → Time → Option Time} {visits : Time → Prop} {pool : WorkerPool m W}

/-- A worker without a wakeup wanted none when it was last asked. -/
def Scheduled (visits : Time → Prop) (wants : W → Time → Option Time) (pool : WorkerPool m W) :
    Prop :=
  ∀ i, pool.workerWakeupTimes i = noWakeupTime →
    ∃ now, visits now ∧ (wants (pool.workers i) now).getD noWakeupTime = noWakeupTime

theorem wake_ne (wakeups : Fin m → Time) (i : Fin m) : wake wakeups i i ≠ noWakeupTime := by
  unfold wake
  split
  · rw [Function.update_self]
    decide
  · assumption

theorem wake_of_ne {wakeups : Fin m → Time} {i i' : Fin m} (h : i' ≠ i) :
    wake wakeups i i' = wakeups i' := by
  unfold wake
  split
  · exact Function.update_of_ne h ..
  · rfl

/-- Putting a message into a worker. -/
def sent (pool : WorkerPool m W) (i : Fin m) (w : W) : WorkerPool m W where
  workers := Function.update pool.workers i w
  workerWakeupTimes := wake pool.workerWakeupTimes i

/-- A worker's turn. -/
def ticked (pool : WorkerPool m W) (i : Fin m) (w : W) (wakeup : Option Time) : WorkerPool m W where
  workers := Function.update pool.workers i w
  workerWakeupTimes := Function.update pool.workerWakeupTimes i (wakeup.getD noWakeupTime)

theorem Scheduled.sent (h : pool.Scheduled visits wants) (i : Fin m) (w : W) :
    (pool.sent i w).Scheduled visits wants := by
  intro i' hi'
  by_cases hi : i' = i
  · subst hi
    exact absurd hi' (wake_ne pool.workerWakeupTimes i')
  · simp only [WorkerPool.sent, wake_of_ne hi, Function.update_of_ne hi] at hi' ⊢
    exact h i' hi'

theorem Scheduled.ticked (h : pool.Scheduled visits wants) (i : Fin m) (w : W) {now : Time}
    (hnow : visits now) : (pool.ticked i w (wants w now)).Scheduled visits wants := by
  intro i' hi'
  by_cases hi : i' = i
  · subst hi
    simp only [WorkerPool.ticked, Function.update_self] at hi' ⊢
    exact ⟨now, hnow, hi'⟩
  · simp only [WorkerPool.ticked, Function.update_of_ne hi] at hi' ⊢
    exact h i' hi'

/-- A sweep whose turns fail only with `B`, and what every other turn keeps. -/
theorem tickCollect_ok (driver : IterWorker m W Msg Event) (sweep : Sweep) (now : Time)
    {B : String → Prop} {I : List (Fin m) → WorkerPool m W → World → List Event → Prop}
    (hskip : ∀ visited i pool world events, I visited pool world events →
      sweep.ticks (pool.workerWakeupTimes i) now = false → I (visited ++ [i]) pool world events)
    (htick : ∀ visited i pool world events, I visited pool world events →
      EndsWith B (driver.tick i (pool.workers i) world now) ∨ ∃ w world' pushed wakeup,
        driver.tick i (pool.workers i) world now = .ok (w, world', pushed, wakeup) ∧
        I (visited ++ [i]) (pool.ticked i w wakeup) world' (events ++ pushed))
    {world : World} (h : I [] pool world []) :
    EndsWith B (tickCollect driver sweep now (pool, world)) ∨ ∃ pool' world' events,
      tickCollect driver sweep now (pool, world) = .ok (pool', world', events) ∧
      I (List.finRange m) pool' world' events := by
  rcases foldlM_ok_or_of_visited (B := B)
    (f := tickOne driver sweep now) (l := List.finRange m)
    (I := fun visited state => I visited state.1 state.2.1 state.2.2)
    (b := (pool, world, [])) (fun visited i rest state _ hstate => by
      obtain ⟨pool, world, events⟩ := state
      cases hdue : sweep.ticks (pool.workerWakeupTimes i) now with
      | false =>
        refine .inr ⟨(pool, world, events), ?_, hskip visited i pool world events hstate hdue⟩
        simp [tickOne, hdue]
        rfl
      | true =>
        simp only [tickOne, hdue, if_true]
        rcases htick visited i pool world events hstate with hfail | ⟨w, world', pushed, wakeup,
          htick, hI⟩
        · exact .inl (hfail.bind _)
        · refine .inr ⟨(pool.ticked i w wakeup, world', events ++ pushed), ?_, hI⟩
          simp [htick, bind, Except.bind]
          rfl) h with hfail | ⟨⟨pool', world', events⟩, hsweep, hI⟩
  · exact .inl hfail
  · exact .inr ⟨pool', world', events, hsweep, hI⟩

end WorkerPool

namespace DpPool

variable {m : Nat} {W Msg Event : Type} {driver : IterWorker m W Msg Event}
  {world world' : World} {msg : Msg}

theorem routeMsgTo_ok {pool : DpPool m W} {idx : Fin m} {w : W}
    (h : driver.enqueue idx (pool.pool.workers idx) world msg = .ok (w, world')) :
    routeMsgTo driver (pool, world) idx msg =
      .ok ({ pool with pool := pool.pool.sent idx w }, world') := by
  simp only [routeMsgTo, WorkerPool.send, h, bind, Except.bind]
  rfl

theorem admitMsg_ok (driver : IterWorker m W Msg Event) (pool : DpPool m W) {B : String → Prop}
    (h : ∀ idx, EndsWith B (driver.enqueue idx (pool.pool.workers idx) world msg) ∨
      ∃ w, driver.enqueue idx (pool.pool.workers idx) world msg = .ok (w, world')) :
    EndsWith B (admitMsg driver (pool, world) msg) ∨ ∃ (idx : Fin m) (w : W) (pool' : DpPool m W),
      driver.enqueue idx (pool.pool.workers idx) world msg = .ok (w, world') ∧
      admitMsg driver (pool, world) msg = .ok (pool', world') ∧
      pool'.pool = pool.pool.sent idx w := by
  have hchoose : (pool.chooseWorker driver).1.pool = pool.pool := by
    unfold chooseWorker
    split <;> rfl
  set chosen := (pool.chooseWorker driver).1 with hchosen
  set idx := (pool.chooseWorker driver).2 with hidx
  have hsent : admitMsg driver (pool, world) msg = routeMsgTo driver (chosen, world) idx msg := rfl
  rcases h idx with hfail | ⟨w, hw⟩
  · rw [hsent, routeMsgTo, WorkerPool.send, hchoose]
    exact .inl ((hfail.bind _).bind _)
  have hroute : routeMsgTo driver (chosen, world) idx msg =
      .ok ({ chosen with pool := chosen.pool.sent idx w }, world') :=
    routeMsgTo_ok (by rw [hchoose]; exact hw)
  exact .inr ⟨idx, w, _, hw, hsent.trans hroute, by rw [hchoose]⟩

end DpPool

namespace PdPrefillWorker

variable {P : Type} [PendingOrderPolicy P] {acc : KvAccounting} {w w' : PdPrefillWorker P acc}

theorem nextWakeup_eq_none_iff (now : Time) : w.nextWakeup now = none ↔
    w.computeEnd = none ∧ w.status.queuedRequests = 0 ∧ w.status.activeRequests = 0 := by
  unfold nextWakeup
  split
  · rename_i hidle
    simp only [hidle, true_and]
    split
    · simp_all
      omega
    · simp_all
  · rename_i computeEnd hend
    simp [hend]

end PdPrefillWorker

namespace PullDecodeWorker

variable {acc : KvAccounting} {m k n : Nat} {w w' : PullDecodeWorker acc m n}

theorem nextWakeup_eq_none_iff (now : Time) : w.nextWakeup now = none ↔
    w.computeEnd = none ∧ w.pulls.inFlight = none ∧ w.pulls.pendingDecodes = [] := by
  unfold nextWakeup
  cases hflight : w.pulls.inFlight <;> cases hend : w.computeEnd <;>
    cases hpending : w.pulls.pendingDecodes <;> simp

/-- What a tick leaves behind: an idle worker decodes nothing, and what it could not
submit waits for landed requests to go on. -/
def AtRest (w : PullDecodeWorker acc m n) : Prop :=
  w.computeEnd = none → w.anyLiveDecode = false ∧
    (w.pulls.inFlight = none → w.pulls.pendingPulls ≠ [] → w.pulls.pendingDecodes ≠ [])

/-- A worker at rest has a wakeup, or wants none. -/
def Rested (w : PullDecodeWorker acc m n) (wakeup : Time) : Prop :=
  w.AtRest ∧ (wakeup = noWakeupTime ∨ ∃ now, w.nextWakeup now ≠ none)

theorem AtRest.rested (h : w.AtRest) (now : Time) :
    w.Rested ((w.nextWakeup now).getD noWakeupTime) := by
  refine ⟨h, ?_⟩
  cases hwants : w.nextWakeup now with
  | none => exact .inl rfl
  | some wakeup => exact .inr ⟨now, by simp [hwants]⟩

theorem Rested.handoff {wakeups : Fin k → Time} {idx : Fin k}
    (h : wakeups idx = 0 ∨ w.Rested (wakeups idx)) (cfg : PdDecodeConfig acc k n)
    (world : World) (r : RequestId) (sendGid tokens : Nat) (i : Fin m) :
    WorkerPool.wake wakeups idx idx = 0 ∨
      (w.enqueue cfg idx world (.handoff r sendGid tokens i)).Rested
        (WorkerPool.wake wakeups idx idx) := by
  unfold WorkerPool.wake
  split
  · exact .inl (Function.update_self ..)
  · rename_i hne
    refine h.imp_right fun ⟨hrest, hawake⟩ => ?_
    obtain ⟨now, hnow⟩ := hawake.resolve_left hne
    refine ⟨fun hidle => ⟨(hrest hidle).1, fun hflight _ hnone => hnow ?_⟩, .inr ⟨now, hnow⟩⟩
    exact (nextWakeup_eq_none_iff now).mpr ⟨hidle, hflight, hnone⟩

end PullDecodeWorker

section runs

variable {P : Type} [PendingOrderPolicy P] {prefillAcc decodeAcc : KvAccounting} {m k n : Nat}
  {cfg : PdConfig prefillAcc decodeAcc m k n}

namespace PdSound

variable {prefill : Fin m → PdPrefillWorker P prefillAcc}
  {decode : Fin k → PullDecodeWorker decodeAcc m n} {world : World}
  {notices : List (PdNotice m)} {completed : List RequestId}
  {place : RequestId → PdPlace m k n} {visits : Time → Prop}

/-! ## One worker's tick -/

theorem prefillTick (h : PdSound cfg prefill decode world notices completed place) (i : Fin m)
    (now : Time) :
    EndsWith cfg.Panics ((prefill i).tick cfg.prefill i world now) ∨
    ∃ (w : PdPrefillWorker P prefillAcc) (world' : World) (events : List (PdPrefillEvent m))
      (place' : RequestId → PdPlace m k n),
      (prefill i).tick cfg.prefill i world now = .ok (w, world', events, w.nextWakeup now) ∧
      PdSound cfg (Function.update prefill i w) decode world'
        (notices ++ events.map PdPrefillEvent.notice) completed place' ∧
      PdPlace.Moves place place' := by
  obtain ⟨w₁, world₁, events, place₁, hdue, h₁, hmoves₁⟩ : ∃ (w₁ : PdPrefillWorker P prefillAcc)
      (world₁ : World) (events : List (PdPrefillEvent m)) (place₁ : RequestId → PdPlace m k n),
      (prefill i).completeDue cfg.prefill i world now = .ok (w₁, world₁, events) ∧
      PdSound cfg (Function.update prefill i w₁) decode world₁
        (notices ++ events.map PdPrefillEvent.notice) completed place₁ ∧
      PdPlace.Moves place place₁ := by
    unfold PdPrefillWorker.completeDue
    split
    · obtain ⟨w₁, world₁, events, hcomplete, -, h₁, hmoves⟩ := h.prefillComplete i
      exact ⟨w₁, world₁, events, _, hcomplete, h₁, hmoves⟩
    · refine ⟨prefill i, world, [], place, rfl, ?_, .refl place⟩
      rw [Function.update_eq_self, List.map_nil, List.append_nil]
      exact h
  rw [PdPrefillWorker.tick, hdue]
  simp only [bind, Except.bind]
  by_cases hidle : w₁.computeEnd = none
  · rw [hidle, Option.isNone_none, if_pos rfl]
    rcases h₁.prefillStart i (by rw [Function.update_self]; exact hidle) now with hfail |
      ⟨w₂, world₂, place₂, hstart, h₂, hmoves₂⟩
    · rw [Function.update_self] at hfail
      exact .inl (hfail.bind _)
    rw [Function.update_self] at hstart
    rw [Function.update_idem] at h₂
    rw [hstart]
    exact .inr ⟨w₂, world₂, events, place₂, rfl, h₂, hmoves₁.trans hmoves₂⟩
  · rw [Option.isNone_eq_false_iff.mpr (Option.isSome_iff_ne_none.mpr hidle), if_neg (by simp)]
    exact .inr ⟨w₁, world₁, events, place₁, rfl, h₁, hmoves₁⟩

theorem decodeTick (h : PdSound cfg prefill decode world notices completed place) (j : Fin k)
    (now : Time) :
    EndsWith cfg.Panics ((decode j).tick cfg.decode j world now) ∨
    ∃ (w : PullDecodeWorker decodeAcc m n) (world' : World) (events : List (PdDecodeEvent m k))
      (place' : RequestId → PdPlace m k n),
      (decode j).tick cfg.decode j world now = .ok (w, world', events, w.nextWakeup now) ∧
      PdSound cfg prefill (Function.update decode j w) world'
        (notices ++ events.map PdDecodeEvent.notice) completed place' ∧
      PdPlace.Moves place place' ∧ w.AtRest := by
  obtain ⟨pulls, world₁, pulled, place₁, hpulls, h₁, hmoves₁, hstalled⟩ := h.pulls j now
  rw [PullDecodeWorker.tick, hpulls]
  simp only [bind, Except.bind]
  -- the batch that is due ends before a new one starts
  have hcompleted : EndsWith cfg.Panics
        (PullDecodeWorker.completeDue j { decode j with pulls := pulls } world₁ now) ∨
      ∃ (w₂ : PullDecodeWorker decodeAcc m n) (world₂ : World)
        (finished : List (PdDecodeEvent m k)) (place₂ : RequestId → PdPlace m k n),
        PullDecodeWorker.completeDue j { decode j with pulls := pulls } world₁ now =
          .ok (w₂, world₂, finished) ∧
        w₂.pulls = pulls ∧
        PdSound cfg prefill (Function.update decode j w₂) world₂
          (notices ++ (pulled ++ finished).map PdDecodeEvent.notice) completed place₂ ∧
        PdPlace.Moves place₁ place₂ := by
    unfold PullDecodeWorker.completeDue
    split
    · rcases h₁.decodeComplete j with
          hfail | ⟨w₂, world₂, finished, place₂, hcomplete, -, hsame, h₂,
        hmoves⟩
      · rw [Function.update_self] at hfail
        exact .inl hfail
      rw [Function.update_self] at hcomplete hsame
      rw [Function.update_idem, List.append_assoc, ← List.map_append] at h₂
      exact .inr ⟨w₂, world₂, finished, place₂, hcomplete, hsame, h₂, hmoves⟩
    · refine .inr ⟨_, world₁, [], place₁, rfl, rfl, ?_, .refl place₁⟩
      rw [List.append_nil]
      exact h₁
  rcases hcompleted with hfail | ⟨w₂, world₂, finished, place₂, hdue, hsame, h₂, hmoves₂⟩
  · exact .inl (hfail.bind _)
  rw [hdue]
  dsimp only
  refine .inr ?_
  by_cases hidle : w₂.computeEnd = none
  · obtain ⟨w₃, place₃, hstart, h₃, hmoves₃, hrest⟩ := h₂.decodeStart j now
    rw [Function.update_self] at hstart hrest
    rw [Function.update_idem] at h₃
    rw [hidle, Option.isNone_none, if_pos rfl, hstart]
    refine ⟨w₃, world₂, pulled ++ finished, place₃, rfl, h₃,
      hmoves₁.trans (hmoves₂.trans hmoves₃), fun hstopped => ?_⟩
    -- at rest nothing decodes, and a pull still waiting has landed requests before it
    obtain ⟨hkept, hnone⟩ := hrest hstopped
    have hstands := h₃.stands.decode j
    rw [Function.update_self] at hstands
    refine ⟨?_, fun hflight hpending => ?_⟩
    · rw [← Bool.not_eq_true, hstands.anyLiveDecode_iff]
      rintro ⟨r, p, hr⟩
      exact hnone r p hr
    · rw [hkept, hsame] at hflight hpending ⊢
      exact hstalled hflight hpending
  · rw [Option.isNone_eq_false_iff.mpr (Option.isSome_iff_ne_none.mpr hidle), if_neg (by simp)]
    exact ⟨w₂, world₂, pulled ++ finished, place₂, rfl, h₂, hmoves₁.trans hmoves₂,
      fun hstopped => absurd hstopped hidle⟩

/-! ## The two sweeps and what they forward -/

theorem prefillSweep {pool : WorkerPool m (PdPrefillWorker P prefillAcc)}
    (h : PdSound cfg pool.workers decode world notices completed place)
    (hscheduled : pool.Scheduled visits PdPrefillWorker.nextWakeup) (sweep : Sweep) {now : Time}
    (hnow : visits now) :
    EndsWith cfg.Panics
      (WorkerPool.tickCollect (PdFlow.prefillDriver cfg) sweep now (pool, world)) ∨
    ∃ (pool' : WorkerPool m (PdPrefillWorker P prefillAcc)) (world' : World)
      (events : List (PdPrefillEvent m)) (place' : RequestId → PdPlace m k n),
      WorkerPool.tickCollect (PdFlow.prefillDriver cfg) sweep now (pool, world) =
        .ok (pool', world', events) ∧
      PdSound cfg pool'.workers decode world' (notices ++ events.map PdPrefillEvent.notice)
        completed place' ∧
      PdPlace.Moves place place' ∧ pool'.Scheduled visits PdPrefillWorker.nextWakeup := by
  rcases WorkerPool.tickCollect_ok (PdFlow.prefillDriver cfg) sweep now (B := cfg.Panics)
      (I := fun _ pool world events => ∃ place',
        PdSound cfg pool.workers decode world (notices ++ events.map PdPrefillEvent.notice)
          completed place' ∧
        PdPlace.Moves place place' ∧ pool.Scheduled visits PdPrefillWorker.nextWakeup)
      (fun _ _ _ _ _ hI _ => hI)
      (fun _ i pool world events ⟨place₁, h₁, hmoves₁, hscheduled₁⟩ => by
        rcases h₁.prefillTick i now with hfail | ⟨w, world', pushed, place₂, htick, h₂, hmoves₂⟩
        · exact .inl hfail
        rw [List.append_assoc, ← List.map_append] at h₂
        exact .inr ⟨w, world', pushed, _, htick, place₂, h₂, hmoves₁.trans hmoves₂,
          hscheduled₁.ticked i w hnow⟩)
      ⟨place, by simpa using h, .refl place, hscheduled⟩ with hfail | ⟨pool', world', events,
        hsweep, place', hsound, hmoves, hscheduled'⟩
  · exact .inl hfail
  · exact .inr ⟨pool', world', events, place', hsweep, hsound, hmoves, hscheduled'⟩

theorem decodeSweep {pool : WorkerPool k (PullDecodeWorker decodeAcc m n)}
    (h : PdSound cfg prefill pool.workers world notices completed place)
    (hscheduled : pool.Scheduled visits PullDecodeWorker.nextWakeup)
    (hready : ∀ j, pool.workerWakeupTimes j = 0 ∨
      (pool.workers j).Rested (pool.workerWakeupTimes j)) (sweep : Sweep) {now : Time}
    (hnow : visits now) :
    EndsWith cfg.Panics
      (WorkerPool.tickCollect (PdFlow.decodeDriver cfg) sweep now (pool, world)) ∨
    ∃ (pool' : WorkerPool k (PullDecodeWorker decodeAcc m n)) (world' : World)
      (events : List (PdDecodeEvent m k)) (place' : RequestId → PdPlace m k n),
      WorkerPool.tickCollect (PdFlow.decodeDriver cfg) sweep now (pool, world) =
        .ok (pool', world', events) ∧
      PdSound cfg prefill pool'.workers world' (notices ++ events.map PdDecodeEvent.notice)
        completed place' ∧
      PdPlace.Moves place place' ∧ pool'.Scheduled visits PullDecodeWorker.nextWakeup ∧
      ∀ j, (pool'.workers j).Rested (pool'.workerWakeupTimes j) := by
  rcases WorkerPool.tickCollect_ok (PdFlow.decodeDriver cfg) sweep now (B := cfg.Panics)
      (I := fun visited pool world events => ∃ place',
        PdSound cfg prefill pool.workers world (notices ++ events.map PdDecodeEvent.notice)
          completed place' ∧
        PdPlace.Moves place place' ∧ pool.Scheduled visits PullDecodeWorker.nextWakeup ∧
        (∀ j, pool.workerWakeupTimes j = 0 ∨ (pool.workers j).Rested (pool.workerWakeupTimes j)) ∧
        ∀ j ∈ visited, (pool.workers j).Rested (pool.workerWakeupTimes j))
      (fun visited j pool _ _ ⟨place₁, h₁, hmoves₁, hscheduled₁, hready₁, hrested₁⟩ hskip => by
        refine ⟨place₁, h₁, hmoves₁, hscheduled₁, hready₁, fun j' hj' => ?_⟩
        rcases List.mem_append.mp hj' with hj' | hj'
        · exact hrested₁ j' hj'
        · obtain rfl := List.mem_singleton.mp hj'
          -- a worker that has been woken is due at any time
          refine (hready₁ j').resolve_left fun hzero => ?_
          rw [hzero] at hskip
          cases sweep <;> simp [Sweep.ticks] at hskip)
      (fun visited j pool world events ⟨place₁, h₁, hmoves₁, hscheduled₁, hready₁, hrested₁⟩ => by
        rcases h₁.decodeTick j now with
            hfail | ⟨w, world', pushed, place₂, htick, h₂, hmoves₂, hrest⟩
        · exact .inl hfail
        rw [List.append_assoc, ← List.map_append] at h₂
        have hself : ((pool.ticked j w (w.nextWakeup now)).workers j).Rested
            ((pool.ticked j w (w.nextWakeup now)).workerWakeupTimes j) := by
          simp only [WorkerPool.ticked, Function.update_self]
          exact hrest.rested now
        refine .inr ⟨w, world', pushed, _, htick, place₂, h₂, hmoves₁.trans hmoves₂,
          hscheduled₁.ticked j w hnow, fun j' => ?_, fun j' hj' => ?_⟩
        · by_cases hj : j' = j
          · exact .inr (hj ▸ hself)
          · simpa [WorkerPool.ticked, hj] using hready₁ j'
        · by_cases hj : j' = j
          · exact hj ▸ hself
          · simpa [WorkerPool.ticked, hj] using hrested₁ j' (by simpa [hj] using hj'))
      ⟨place, by simpa using h, .refl place, hscheduled, hready, by simp⟩ with
          hfail | ⟨pool', world',
        events, hsweep, place', hsound, hmoves, hscheduled', hready', hrested⟩
  · exact .inl hfail
  · exact .inr ⟨pool', world', events, place', hsweep, hsound, hmoves, hscheduled',
      fun j => hrested j (List.mem_finRange j)⟩

theorem forwardPrefill {events : List (PdPrefillEvent m)}
    {pool : DpPool k (PullDecodeWorker decodeAcc m n)} {actions : List RequestId}
    (h : PdSound cfg prefill pool.pool.workers world (events.map PdPrefillEvent.notice)
      (completed ++ actions) place)
    (hscheduled : pool.pool.Scheduled visits PullDecodeWorker.nextWakeup)
    (hready : ∀ j, pool.pool.workerWakeupTimes j = 0 ∨
      (pool.pool.workers j).Rested (pool.pool.workerWakeupTimes j)) :
    ∃ (pool' : DpPool k (PullDecodeWorker decodeAcc m n)) (actions' : List RequestId)
      (place' : RequestId → PdPlace m k n),
      events.foldlM (PdFlow.forwardPrefill cfg) (pool, world, actions) =
        .ok (pool', world, actions') ∧
      PdSound cfg prefill pool'.pool.workers world [] (completed ++ actions') place' ∧
      PdPlace.Moves place place' ∧ pool'.pool.Scheduled visits PullDecodeWorker.nextWakeup ∧
      ∀ j, pool'.pool.workerWakeupTimes j = 0 ∨
        (pool'.pool.workers j).Rested (pool'.pool.workerWakeupTimes j) := by
  induction events generalizing pool actions place with
  | nil => exact ⟨pool, actions, place, rfl, h, .refl place, hscheduled, hready⟩
  | cons event rest ih =>
    rw [List.foldlM_cons]
    cases event with
    | requestComplete i r =>
      have hreported := PdSound.reported (r := r) h
      rw [List.append_assoc] at hreported
      exact ih hreported hscheduled hready
    | prefillDone i r sendGid kvTokens =>
      -- a handoff is only enqueued
      have henqueue : ∀ j, EndsWith (fun _ => False) ((PdFlow.decodeDriver cfg).enqueue j
          (pool.pool.workers j) world (.handoff r sendGid kvTokens i)) ∨ ∃ w,
          (PdFlow.decodeDriver cfg).enqueue j (pool.pool.workers j) world
            (.handoff r sendGid kvTokens i) = .ok (w, world) := fun j => .inr ⟨_, rfl⟩
      obtain ⟨j, w, pool₁, hw, hrouted, hpool⟩ :=
        (DpPool.admitMsg_ok _ pool henqueue).resolve_left fun ⟨_, _, hfalse⟩ => hfalse
      obtain rfl : (pool.pool.workers j).enqueue cfg.decode j world
          (.handoff r sendGid kvTokens i) = w := by
        cases hw
        rfl
      obtain ⟨h₁, hmoves₁⟩ := PdSound.handoff (r := r) (i := i) h j sendGid
      have hready₁ : ∀ j', pool₁.pool.workerWakeupTimes j' = 0 ∨
          (pool₁.pool.workers j').Rested (pool₁.pool.workerWakeupTimes j') := by
        intro j'
        rw [hpool]
        by_cases hj : j' = j
        · subst hj
          simpa [WorkerPool.sent] using PullDecodeWorker.Rested.handoff (hready j') cfg.decode
            world r sendGid kvTokens i
        · simpa [WorkerPool.sent, WorkerPool.wake_of_ne hj, hj] using hready j'
      have hsent : PdSound cfg prefill pool₁.pool.workers world
          (rest.map PdPrefillEvent.notice) (completed ++ actions)
          (Function.update place r (.queued i j)) := by
        rw [hpool]
        exact h₁
      obtain ⟨pool', actions', place', hfold, h', hmoves', hscheduled', hready'⟩ :=
        ih hsent (hpool ▸ hscheduled.sent j _) hready₁
      refine ⟨pool', actions', place', ?_, h', hmoves₁.trans hmoves', hscheduled', hready'⟩
      rw [PdFlow.forwardPrefill, hrouted]
      exact hfold

theorem forwardDecode {events : List (PdDecodeEvent m k)}
    {pool : DpPool m (PdPrefillWorker P prefillAcc)} {actions : List RequestId}
    (h : PdSound cfg pool.pool.workers decode world (events.map PdDecodeEvent.notice)
      (completed ++ actions) place)
    (hscheduled : pool.pool.Scheduled visits PdPrefillWorker.nextWakeup) :
    ∃ (pool' : DpPool m (PdPrefillWorker P prefillAcc)) (actions' : List RequestId)
      (place' : RequestId → PdPlace m k n),
      events.foldlM (PdFlow.forwardDecode cfg) (pool, world, actions) =
        .ok (pool', world, actions') ∧
      PdSound cfg pool'.pool.workers decode world [] (completed ++ actions') place' ∧
      PdPlace.Moves place place' ∧ pool'.pool.Scheduled visits PdPrefillWorker.nextWakeup := by
  induction events generalizing pool actions place with
  | nil => exact ⟨pool, actions, place, rfl, h, .refl place, hscheduled⟩
  | cons event rest ih =>
    rw [List.foldlM_cons]
    cases event with
    | requestComplete j r =>
      have hreported := PdSound.reported (r := r) h
      rw [List.append_assoc] at hreported
      exact ih hreported hscheduled
    | pullComplete j r i =>
      obtain ⟨w, hrelease, h₁, hmoves₁⟩ := PdSound.letGo (r := r) (i := i) h
      set pool₁ : DpPool m (PdPrefillWorker P prefillAcc) :=
        { pool with pool := pool.pool.sent i w } with hpool
      have hroute : DpPool.routeMsgTo (PdFlow.prefillDriver cfg) (pool, world) i (.releaseKv r) =
          .ok (pool₁, world) := DpPool.routeMsgTo_ok hrelease
      have hsent : PdSound cfg pool₁.pool.workers decode world
          (rest.map PdDecodeEvent.notice) (completed ++ actions)
          (Function.update place r (place r).acknowledged) := h₁
      obtain ⟨pool', actions', place', hfold, h', hmoves', hscheduled'⟩ :=
        ih hsent (hscheduled.sent i w)
      refine ⟨pool', actions', place', ?_, h', hmoves₁.trans hmoves', hscheduled'⟩
      rw [PdFlow.forwardDecode, hroute]
      exact hfold

end PdSound

/-! ## Operations and runs -/

/-- The time an operation visits is one of these. -/
def PdOp.Visits (visits : Time → Prop) : PdOp → Prop
  | arrive _ => True
  | tick now => visits now

instance (visits : Time → Prop) [DecidablePred visits] : DecidablePred (PdOp.Visits visits)
  | .arrive _ => inferInstanceAs (Decidable True)
  | .tick now => inferInstanceAs (Decidable (visits now))

namespace PdRun

variable {visits : Time → Prop} {run run' : PdRun P prefillAcc decodeAcc m k n}
  {place : RequestId → PdPlace m k n}

/-- A deployment between two operations of the driver: no event is on its way. -/
structure Sound (cfg : PdConfig prefillAcc decodeAcc m k n) (visits : Time → Prop)
    (run : PdRun P prefillAcc decodeAcc m k n) (place : RequestId → PdPlace m k n) : Prop where
  sound : PdSound cfg run.flow.prefillPool.pool.workers run.flow.decodePool.pool.workers
    run.flow.world [] run.completed place
  prefillScheduled : run.flow.prefillPool.pool.Scheduled visits PdPrefillWorker.nextWakeup
  decodeScheduled : run.flow.decodePool.pool.Scheduled visits PullDecodeWorker.nextWakeup
  rested : ∀ j, (run.flow.decodePool.pool.workers j).Rested
    (run.flow.decodePool.pool.workerWakeupTimes j)

theorem arrive_ok (h : Sound cfg visits run place) {r : RequestId}
    (hr : r ∉ run.flow.world.arrived) :
    EndsWith cfg.Panics (run.flow.onArrival cfg r) ∨
    ∃ (flow : PdFlow P prefillAcc decodeAcc m k n) (place' : RequestId → PdPlace m k n),
      run.flow.onArrival cfg r = .ok flow ∧ Sound cfg visits { run with flow := flow } place' ∧
      PdPlace.Moves place place' := by
  obtain ⟨world', hinsert, -⟩ := h.sound.arrive ⟨0, cfg.numPrefillWorkers_pos⟩ hr
  have haccepts : ∀ i, EndsWith cfg.Panics ((PdFlow.prefillDriver cfg).enqueue i
        (run.flow.prefillPool.pool.workers i) world' (.request r)) ∨
      ∃ w : PdPrefillWorker P prefillAcc,
        (PdFlow.prefillDriver cfg).enqueue i (run.flow.prefillPool.pool.workers i) world'
          (.request r) = .ok (w, world') ∧
        PdSound cfg (Function.update run.flow.prefillPool.pool.workers i w)
          run.flow.decodePool.pool.workers world' [] run.completed
          (Function.update place r (.waiting i)) ∧
        PdPlace.Moves place (Function.update place r (.waiting i)) := by
    intro i
    obtain ⟨world₁, hinsert₁, haccept⟩ := h.sound.arrive i hr
    rw [hinsert] at hinsert₁
    cases hinsert₁
    exact haccept
  rw [PdFlow.onArrival, hinsert]
  simp only [bind, Except.bind]
  rcases DpPool.admitMsg_ok _ run.flow.prefillPool fun i =>
    (haccepts i).imp_right fun ⟨w, hw, _⟩ => ⟨w, hw⟩ with hfail | ⟨i, w, pool, hw, hrouted, hpool⟩
  · exact .inl (hfail.bind _)
  rcases haccepts i with hfail | ⟨w₁, haccept, hsound, hmoves⟩
  · rw [hw] at hfail
    exact (not_endsWith_ok hfail).elim
  have hsame : w = w₁ := by
    rw [haccept] at hw
    cases hw
    rfl
  rw [hrouted]
  refine .inr ⟨{ run.flow with prefillPool := pool, world := world' }, _, rfl,
    ⟨?_, hpool ▸ h.prefillScheduled.sent i w, h.decodeScheduled, h.rested⟩, hmoves⟩
  rw [hpool, hsame]
  exact hsound

theorem tick_ok (h : Sound cfg visits run place) (sweep : Sweep) {now : Time}
    (hnow : visits now) :
    EndsWith cfg.Panics (PdFlow.tick cfg sweep run.flow now) ∨
    ∃ (flow : PdFlow P prefillAcc decodeAcc m k n) (actions : List RequestId)
      (place' : RequestId → PdPlace m k n),
      PdFlow.tick cfg sweep run.flow now = .ok (flow, actions) ∧
      Sound cfg visits ⟨flow, run.completed ++ actions⟩ place' ∧ PdPlace.Moves place place' := by
  rw [PdFlow.tick]
  simp only [bind, Except.bind]
  rcases h.sound.prefillSweep h.prefillScheduled sweep hnow with hfail | ⟨prefill₁, world₁, events₁,
    place₁, hsweep₁, h₁, hmoves₁, hprefill₁⟩
  · exact .inl (hfail.bind _)
  rw [hsweep₁]
  dsimp only
  rw [List.nil_append, ← List.append_nil run.completed] at h₁
  obtain ⟨pool₂, actions₂, place₂, hforward₂, h₂, hmoves₂, hdecode₂, hready₂⟩ :=
    h₁.forwardPrefill h.decodeScheduled fun j => .inr (h.rested j)
  rw [hforward₂]
  dsimp only
  rcases h₂.decodeSweep hdecode₂ hready₂ sweep hnow with hfail | ⟨decode₃, world₃, events₃, place₃,
    hsweep₃, h₃, hmoves₃, hdecode₃, hrested₃⟩
  · exact .inl (hfail.bind _)
  rw [hsweep₃]
  dsimp only
  rw [List.nil_append] at h₃
  set pool₁ : DpPool m (PdPrefillWorker P prefillAcc) :=
    { run.flow.prefillPool with pool := prefill₁ } with hpool₁
  have h₃' : PdSound cfg pool₁.pool.workers decode₃.workers world₃
    (events₃.map PdDecodeEvent.notice) (run.completed ++ actions₂) place₃ := h₃
  obtain ⟨pool₄, actions₄, place₄, hforward₄, h₄, hmoves₄, hprefill₄⟩ := h₃'.forwardDecode hprefill₁
  rw [hforward₄]
  exact .inr ⟨⟨world₃, pool₄, { pool₂ with pool := decode₃ }⟩, actions₄, place₄, rfl,
    ⟨h₄, hprefill₄, hdecode₃, hrested₃⟩,
    hmoves₁.trans (hmoves₂.trans (hmoves₃.trans hmoves₄))⟩

theorem step_ok (h : Sound cfg visits run place) (sweep : Sweep) {o : PdOp}
    (harrives : run.Arrives o) (hvisits : o.Visits visits) :
    EndsWith cfg.Panics (step cfg sweep run o) ∨
    ∃ (run' : PdRun P prefillAcc decodeAcc m k n) (place' : RequestId → PdPlace m k n),
      step cfg sweep run o = .ok run' ∧ Sound cfg visits run' place' ∧
      PdPlace.Moves place place' := by
  cases o with
  | arrive r =>
    rw [step]
    rcases arrive_ok h harrives with hfail | ⟨flow, place', harrive, h', hmoves⟩
    · exact .inl (hfail.bind _)
    · rw [harrive]
      exact .inr ⟨_, place', rfl, h', hmoves⟩
  | tick now =>
    rw [step]
    rcases tick_ok h sweep hvisits with hfail | ⟨flow, actions, place', htick, h', hmoves⟩
    · exact .inl (hfail.bind _)
    · rw [htick]
      exact .inr ⟨_, place', rfl, h', hmoves⟩

theorem tryRun_ok (h : Sound cfg visits run place) (sweep : Sweep) {ops : List PdOp}
    (hallowed : Run.TryAllowed (step cfg sweep) Arrives run ops)
    (hvisits : ∀ o ∈ ops, o.Visits visits) :
    EndsWith cfg.Panics (tryRun cfg sweep run ops) ∨
    ∃ (run' : PdRun P prefillAcc decodeAcc m k n) (place' : RequestId → PdPlace m k n),
      tryRun cfg sweep run ops = .ok run' ∧ Sound cfg visits run' place' ∧
      PdPlace.Moves place place' := by
  induction ops generalizing run place with
  | nil => exact .inr ⟨run, place, rfl, h, .refl place⟩
  | cons o ops ih =>
    have hcons : tryRun cfg sweep run (o :: ops) =
        step cfg sweep run o >>= fun run => tryRun cfg sweep run ops := rfl
    rw [hcons]
    rcases step_ok h sweep hallowed.1 (hvisits o List.mem_cons_self) with hfail | ⟨run₁, place₁,
      hstep, h₁, hmoves₁⟩
    · exact .inl (hfail.bind _)
    rw [hstep]
    rcases ih h₁ (hallowed.tail hstep) fun o' ho' => hvisits o' (List.mem_cons_of_mem o ho') with
      hfail | ⟨run', place', hrun, h', hmoves'⟩
    · exact .inl hfail
    exact .inr ⟨run', place', hrun, h', hmoves₁.trans hmoves'⟩

theorem sound_new (cfg : PdConfig prefillAcc decodeAcc m k n) {t : Time} (ht : visits t)
    (cluster : GpuCluster) {policies : Fin m → P}
    (hpolicies : ∀ i, candidates (policies i) = []) :
    Sound cfg visits (.new cfg cluster policies) fun _ => .absent where
  sound :=
    { stands :=
        { prefill := fun i => .new cfg.trace (policies i) cfg.prefixCache (hpolicies i)
          decode := fun j => .new cfg.trace _ _ cfg.balance_blind
          arrived := fun r => by simp [PdRun.new, PdFlow.new]
          definition := fun r => rfl
          progress := fun r => trivial }
      noted :=
        { finished := .nil fun r hr => by obtain ⟨holder, hr⟩ := hr; cases hr
          announced := .nil fun r hr => by obtain ⟨i, hr⟩ := hr; cases hr
          announcedBy := fun r i kvTokens hm => by cases hm
          landed := .nil fun r hr => by cases hr
          landedBy := fun r i hm => by cases hm } }
  prefillScheduled := fun i _ => by
    have hquiet : (PdPrefillWorker.new (policies i) cfg.prefixCache :
        PdPrefillWorker P prefillAcc).nextWakeup t = none := by
      rw [PdPrefillWorker.nextWakeup_eq_none_iff]
      exact ⟨rfl, congrArg List.length (hpolicies i), rfl⟩
    exact ⟨t, ht, congrArg (Option.getD · noWakeupTime) hquiet⟩
  decodeScheduled := fun j _ => ⟨t, ht, rfl⟩
  rested := fun j => by
    have hrest : (PullDecodeWorker.new m n cfg.balance :
        PullDecodeWorker decodeAcc m n).AtRest := by
      refine fun _ => ⟨?_, fun _ hne => absurd rfl hne⟩
      rw [PullDecodeWorker.anyLiveDecode, List.any_eq_false]
      exact fun p _ => by simp [PullDecodeWorker.new, KvCacheStore.new]; rfl
    exact ⟨hrest, .inl rfl⟩

end PdRun

end runs

end ServingSim
