import ServingSim.Sim.ReplayRuns
import ServingSim.Sim.RunLoop

/-
  The ledger of a simulation.

  What is proved:
    1. `simulation_ledger` — one `request_slo` row for each delivered request.
-/

namespace ServingSim

variable {setup : ReplaySetup} {cfg : TickCfg} {sim : SimState} {answer : FlowAnswer}

/-! ## The clock -/

namespace SimState

@[simp] theorem clock_census (sim : SimState) : sim.census.clock = sim.clock := by
  simp only [census]
  split <;> rfl

theorem clock_le_advance (cfg : TickCfg) (sim : SimState) : sim.clock ≤ (sim.advance cfg).clock :=
  Nat.le_add_right _ _

theorem clock_le_watch (cfg : TickCfg) (sim : SimState) : sim.clock ≤ (sim.watch cfg).clock := by
  unfold watch
  dsimp only
  split_ifs
  · exact Nat.le_add_right _ _
  · exact le_rfl
  · exact Nat.le_add_right _ _
  · exact Nat.le_add_right _ _

theorem clock_le_check (cfg : TickCfg) (sim : SimState) : sim.clock ≤ (sim.check cfg).clock := by
  rw [← clock_census sim]
  unfold check
  dsimp only
  split_ifs
  · exact le_rfl
  · exact le_rfl
  · exact clock_le_watch cfg sim.census
  · exact clock_le_advance cfg sim.census

theorem clock_le_step (cfg : TickCfg) (sim : SimState) (answer : FlowAnswer) :
    sim.clock ≤ (sim.step cfg answer).clock := by
  unfold step
  split
  · unfold drain
    split <;> exact le_rfl
  · exact le_rfl
  · exact le_rfl
  · unfold bookCompletion
    split <;> exact le_rfl
  · exact clock_le_check cfg sim
  · unfold finalize
    split <;> exact le_rfl
  · exact le_rfl
  · exact le_rfl

end SimState

/-! ## The invariant -/

namespace LoopPhase

/-- Nothing is being booked, and the run is not over. -/
def Resting : LoopPhase → Prop
  | draining | ticking | checking | stopped _ => True
  | completing actions => actions = []
  | finished _ | panicked _ => False

/-- The completions reported and still to book. -/
def pending : LoopPhase → List RequestId
  | completing actions => actions
  | _ => []

theorem Resting.pending {phase : LoopPhase} (h : phase.Resting) : phase.pending = [] := by
  cases phase with
  | completing actions => exact h
  | _ => rfl

end LoopPhase

namespace SimState

/-- What the ledger is about. -/
def books (sim : SimState) :
    TraceFrontend × RequestStore × List RequestSloEntry × List RequestId × List RequestId :=
  (sim.frontend, sim.store, sim.requestSlo, sim.delivered, sim.completions)

/-- The delivered requests no completion was booked for. -/
def unfinished (sim : SimState) : List RequestId :=
  sim.delivered.filter fun request => request ∉ sim.completions

/-- The requests that have a row, in the order of the rows. -/
def rowed (sim : SimState) : List RequestId := sim.requestSlo.map RequestSloEntry.requestId

/-- The requests that have a row by now: at the end the partial rows are written too. -/
def due (sim : SimState) : List RequestId :=
  match sim.phase with
  | .finished _ => sim.completions ++ sim.unfinished
  | _ => sim.completions

theorem due_of_resting (h : sim.phase.Resting) : sim.due = sim.completions := by
  unfold due
  cases hphase : sim.phase with
  | finished cause =>
    rw [hphase] at h
    exact h.elim
  | _ => rfl

end SimState

structure Booked (setup : ReplaySetup) (sim : SimState) : Prop where
  kept : ∃ h, setup.Kept h sim.clock sim.frontend ∧ released h = sim.delivered.reverse ∧
    completed h = sim.completions.reverse
  arrivedIds : sim.store.arrivedIds = sim.delivered
  flags : ∀ request, sim.store.completed? request =
    if request ∈ sim.delivered then some (decide (request ∈ sim.completions ++ sim.phase.pending))
    else none
  nodup : (sim.completions ++ sim.phase.pending).Nodup
  subset : sim.completions ++ sim.phase.pending ⊆ sim.delivered
  rowed : sim.rowed = sim.due
  calm : ∀ message, sim.phase ≠ .panicked message

namespace Booked

theorem start (setup : ReplaySetup) (cfg : TickCfg) :
    Booked setup (.start cfg setup.trace setup.arrival setup.capacity setup.dependency) where
  kept := ⟨[], ReplaySetup.kept_start setup, rfl, rfl⟩
  arrivedIds := rfl
  flags := fun _ => rfl
  nodup := .nil
  subset := List.nil_subset _
  rowed := rfl
  calm := nofun

theorem counts (booked : Booked setup sim) : sim.frontend.emitted = sim.delivered.length ∧
      sim.frontend.completed = sim.completions.length ∧ sim.delivered.Nodup := by
  obtain ⟨h, kept, hdelivered, hcompletions⟩ := booked.kept
  refine ⟨?_, ?_, ?_⟩
  · rw [kept.emitted, hdelivered, List.length_reverse]
  · rw [kept.completed, hcompletions, List.length_reverse]
  · rw [← List.nodup_reverse, ← hdelivered]
    exact kept.log.nodup

theorem completions_le (booked : Booked setup sim) :
    sim.completions.length ≤ sim.delivered.length := by
  have hnodup : sim.completions.Nodup := booked.nodup.of_append_left
  have hsubset : sim.completions ⊆ sim.delivered := fun request hmem =>
    booked.subset (List.mem_append_left _ hmem)
  exact (hnodup.subperm hsubset).length_le

/-! ## One step -/

theorem move (booked : Booked setup sim) {sim' : SimState} (hbooks : sim'.books = sim.books)
    (hclock : sim.clock ≤ sim'.clock) (hresting : sim.phase.Resting)
    (hresting' : sim'.phase.Resting) : Booked setup sim' := by
  obtain ⟨hfrontend, hstore, hslo, hdelivered, hcompletions⟩ :
      sim'.frontend = sim.frontend ∧ sim'.store = sim.store ∧ sim'.requestSlo = sim.requestSlo ∧
        sim'.delivered = sim.delivered ∧ sim'.completions = sim.completions := by
    simpa only [SimState.books, Prod.mk.injEq] using hbooks
  have hpending : sim'.phase.pending = sim.phase.pending :=
    hresting'.pending.trans hresting.pending.symm
  constructor
  case kept =>
    obtain ⟨h, kept, hreleased, hcompleted⟩ := booked.kept
    rw [hfrontend, hdelivered, hcompletions]
    exact ⟨h, { kept with past := fun earlier hmem => (kept.past earlier hmem).trans hclock },
      hreleased, hcompleted⟩
  case arrivedIds => rw [hstore, hdelivered, booked.arrivedIds]
  case flags =>
    rw [hstore, hdelivered, hcompletions, hpending]
    exact booked.flags
  case nodup =>
    rw [hcompletions, hpending]
    exact booked.nodup
  case subset =>
    rw [hcompletions, hdelivered, hpending]
    exact booked.subset
  case rowed =>
    have hrowed := booked.rowed
    rw [SimState.due_of_resting hresting] at hrowed
    rw [SimState.due_of_resting hresting', hcompletions, ← hrowed, SimState.rowed, hslo]
    rfl
  case calm =>
    intro message heq
    rw [heq] at hresting'
    exact hresting'

theorem drain (booked : Booked setup sim) (hphase : sim.phase = .draining)
    (hguard : sim.Guard answer) : Booked setup (sim.drain answer) := by
  obtain ⟨h, kept, hreleased, hcompleted⟩ := booked.kept
  have hrowed := booked.rowed
  rw [SimState.due_of_resting (by rw [hphase]; trivial)] at hrowed
  have kept' := kept.drainOne le_rfl
  unfold SimState.Guard at hguard
  rw [hphase] at hguard
  unfold SimState.drain
  rcases hnext : sim.frontend.drainOne sim.clock with ⟨_ | ⟨row, stamp⟩, frontend⟩
  · rw [hnext] at kept'
    have hflags := booked.flags
    have hnodup := booked.nodup
    have hsubset := booked.subset
    rw [hphase] at hflags hnodup hsubset
    exact ⟨⟨_, kept', hreleased, hcompleted⟩, booked.arrivedIds, hflags, hnodup, hsubset, hrowed,
      nofun⟩
  · rw [hnext] at kept'
    simp only [hnext] at hguard
    have hfresh : row ∉ sim.delivered := by
      have honce : row ∉ released h := (List.nodup_cons.mp kept'.log.nodup).1
      rwa [hreleased, List.mem_reverse] at honce
    constructor
    case kept =>
      refine ⟨_, kept', ?_, hcompleted⟩
      show row :: released h = (sim.delivered ++ [row]).reverse
      rw [List.reverse_append, hreleased]
      rfl
    case arrivedIds =>
      show answer.store.arrivedIds = sim.delivered ++ [row]
      rw [hguard.arrivedIds, booked.arrivedIds]
    case flags =>
      intro request
      show answer.store.completed? request = if request ∈ sim.delivered ++ [row] then
        some (decide (request ∈ sim.completions ++ sim.phase.pending)) else none
      by_cases hsame : request = row
      · subst hsame
        have hnot : request ∉ sim.completions ++ sim.phase.pending :=
          fun hmem => hfresh (booked.subset hmem)
        rw [if_pos (by simp), hguard.fresh, decide_eq_false hnot]
      · rw [hguard.others request hsame, booked.flags]
        simp only [List.mem_append, List.mem_singleton, hsame, or_false]
    case nodup => exact booked.nodup
    case subset =>
      exact fun request hmem => List.mem_append_left _ (booked.subset hmem)
    case rowed =>
      simp only [SimState.due, hphase]
      exact hrowed
    case calm => exact booked.calm

theorem tick (booked : Booked setup sim) (hphase : sim.phase = .ticking)
    (hguard : Ticks sim.store answer.store answer.actions) :
    Booked setup { sim with store := answer.store, phase := .completing answer.actions } := by
  have hrowed := booked.rowed
  rw [SimState.due_of_resting (by rw [hphase]; trivial)] at hrowed
  have hflags := booked.flags
  have hnodup := booked.nodup
  have hsubset := booked.subset
  rw [hphase] at hflags hnodup hsubset
  simp only [LoopPhase.pending, List.append_nil] at hflags hnodup hsubset
  have hlive : ∀ request ∈ answer.actions, request ∈ sim.delivered ∧ request ∉ sim.completions := by
    intro request hmem
    have hlive := hguard.live request hmem
    rw [hflags] at hlive
    split at hlive
    · next hdelivered => exact ⟨hdelivered, of_decide_eq_false (Option.some.inj hlive)⟩
    · cases hlive
  constructor
  case kept => exact booked.kept
  case arrivedIds => exact hguard.arrivedIds.trans booked.arrivedIds
  case flags =>
    intro request
    show answer.store.completed? request = if request ∈ sim.delivered then
      some (decide (request ∈ sim.completions ++ answer.actions)) else none
    rw [hguard.flags, hflags]
    split
    · simp only [Option.map_some, List.mem_append, Bool.decide_or]
    · rfl
  case nodup =>
    exact hnodup.append hguard.nodup fun request hbooked hmem => (hlive request hmem).2 hbooked
  case subset =>
    intro request hmem
    rcases List.mem_append.mp hmem with hmem | hmem
    · exact hsubset hmem
    · exact (hlive request hmem).1
  case rowed => exact hrowed
  case calm => nofun

theorem bookCompletion (booked : Booked setup sim) {request : RequestId} {rest : List RequestId}
    (hphase : sim.phase = .completing (request :: rest)) :
    Booked setup (sim.bookCompletion request rest) := by
  obtain ⟨h, kept, hreleased, hcompleted⟩ := booked.kept
  have hrowed : sim.rowed = sim.completions := by
    have hrowed := booked.rowed
    unfold SimState.due at hrowed
    rwa [hphase] at hrowed
  have hflags := booked.flags
  have hnodup := booked.nodup
  have hsubset := booked.subset
  rw [hphase] at hflags hnodup hsubset
  simp only [LoopPhase.pending] at hflags hnodup hsubset
  have hassoc : sim.completions ++ request :: rest = sim.completions ++ [request] ++ rest := by
    rw [List.append_assoc]
    rfl
  have hdelivered : request ∈ sim.delivered := hsubset (by simp)
  have honce : request ∉ sim.completions := by
    intro hmem
    exact (List.disjoint_of_nodup_append hnodup) hmem List.mem_cons_self
  have hpresent := hflags request
  rw [if_pos hdelivered] at hpresent
  unfold SimState.bookCompletion
  cases hget : sim.store.get request with
  | none =>
    rw [RequestStore.completed?, hget] at hpresent
    cases hpresent
  | some record =>
    simp only [hassoc] at hflags hnodup hsubset
    refine ⟨⟨_, kept.complete le_rfl ?_ ?_, hreleased, ?_⟩, booked.arrivedIds, hflags, hnodup,
      hsubset, ?_, nofun⟩
    · rw [hreleased, List.mem_reverse]
      exact hdelivered
    · rw [hcompleted, List.mem_reverse]
      exact honce
    · show request :: completed h = (sim.completions ++ [request]).reverse
      rw [List.reverse_append, hcompleted]
      rfl
    · show (sim.requestSlo ++ [_]).map RequestSloEntry.requestId = sim.completions ++ [request]
      rw [List.map_append, ← hrowed]
      rfl

theorem books_census (sim : SimState) :
    sim.census.books = sim.books ∧ sim.census.phase = sim.phase := by
  simp only [SimState.census]
  split <;> exact ⟨rfl, rfl⟩

theorem check (booked : Booked setup sim) (hphase : sim.phase = .checking) :
    Booked setup (sim.check cfg) := by
  obtain ⟨hbooks, -⟩ := books_census sim
  have hresult : (sim.check cfg).books = sim.census.books ∧ (sim.check cfg).phase.Resting := by
    simp only [SimState.check, SimState.watch, SimState.advance]
    split_ifs <;> exact ⟨rfl, trivial⟩
  exact booked.move (hresult.1.trans hbooks) (SimState.clock_le_check cfg sim)
    (by rw [hphase]; trivial) hresult.2

theorem partialRows_eq (booked : Booked setup sim) (hphase : sim.phase.Resting) :
    sim.partialRows.map RequestSloEntry.requestId = sim.unfinished := by
  have hflags := booked.flags
  rw [hphase.pending, List.append_nil] at hflags
  unfold SimState.partialRows SimState.unfinished
  rw [booked.arrivedIds, List.map_filterMap, ← List.filterMap_eq_filter]
  refine List.filterMap_congr fun request hmem => ?_
  have hflag := hflags request
  rw [if_pos hmem] at hflag
  cases hget : sim.store.get request with
  | none =>
    rw [RequestStore.completed?, hget] at hflag
    cases hflag
  | some record =>
    rw [RequestStore.completed?, hget, Option.map_some, Option.some.injEq] at hflag
    by_cases hbooked : request ∈ sim.completions
    · simp [hflag, hbooked, Option.guard]
    · simp [hflag, hbooked, Option.guard, sloEntry]

theorem finalize (booked : Booked setup sim) {cause : TerminationCause}
    (hphase : sim.phase = .stopped cause) : Booked setup (sim.finalize cause) := by
  have hresting : sim.phase.Resting := by rw [hphase]; trivial
  have hrowed := booked.rowed
  rw [SimState.due_of_resting hresting] at hrowed
  have hflags := booked.flags
  have hnodup := booked.nodup
  have hsubset := booked.subset
  rw [hphase] at hflags hnodup hsubset
  have hpresent : (sim.store.arrivedIds.all fun request => (sim.store.get request).isSome) =
      true := by
    refine List.all_eq_true.mpr fun request hmem => ?_
    rw [booked.arrivedIds] at hmem
    have hflag := hflags request
    rw [if_pos hmem] at hflag
    cases hget : sim.store.get request with
    | none =>
      rw [RequestStore.completed?, hget] at hflag
      cases hflag
    | some record => rfl
  unfold SimState.finalize
  rw [if_pos hpresent]
  refine ⟨booked.kept, booked.arrivedIds, hflags, hnodup, hsubset, ?_, nofun⟩
  show (sim.requestSlo ++ sim.partialRows).map RequestSloEntry.requestId =
    sim.completions ++ sim.unfinished
  rw [List.map_append, booked.partialRows_eq hresting, ← hrowed]
  rfl

theorem step (booked : Booked setup sim) (hguard : sim.Guard answer) :
    Booked setup (sim.step cfg answer) := by
  unfold SimState.step
  cases hphase : sim.phase with
  | draining => exact booked.drain hphase hguard
  | ticking =>
    refine booked.tick hphase ?_
    unfold SimState.Guard at hguard
    rwa [hphase] at hguard
  | completing actions =>
    cases actions with
    | nil => exact booked.move rfl le_rfl (by rw [hphase]; rfl) trivial
    | cons request rest => exact booked.bookCompletion hphase
  | checking => exact booked.check hphase
  | stopped cause => exact booked.finalize hphase
  | finished cause => exact booked
  | panicked message => exact booked

end Booked

/-- In every run of the loop, the in-flight count is what was delivered and not completed,
time does not go back, and once the run is over each delivered request has one row. -/
theorem simulation_ledger (setup : ReplaySetup) (cfg : TickCfg) (answers : List FlowAnswer)
    (hallowed : Run.Allowed (SimState.step cfg) SimState.Guard
      (.start cfg setup.trace setup.arrival setup.capacity setup.dependency) answers) :
    let sim := Run.run (SimState.step cfg)
      (.start cfg setup.trace setup.arrival setup.capacity setup.dependency) answers
    sim.frontend.completed ≤ sim.frontend.emitted ∧
      sim.frontend.inFlight + sim.completions.length = sim.delivered.length ∧
      (∀ answer, sim.clock ≤ (sim.step cfg answer).clock) ∧
      (∀ message, sim.phase ≠ .panicked message) ∧
      ∀ cause, sim.phase = .finished cause → ∀ request,
        sim.rowed.count request = if request ∈ sim.delivered then 1 else 0 := by
  intro sim
  have booked : Booked setup sim := Run.invariant (Booked setup)
    (fun _ _ booked hguard => booked.step hguard) (Booked.start setup cfg) hallowed
  obtain ⟨hemitted, hcompleted, hnodup⟩ := booked.counts
  have hle := booked.completions_le
  refine ⟨by omega, ?_, SimState.clock_le_step cfg sim, booked.calm, ?_⟩
  · unfold TraceFrontend.inFlight
    omega
  · intro cause hfinished request
    have hrowed := booked.rowed
    unfold SimState.due at hrowed
    rw [hfinished] at hrowed
    have hbooked : sim.completions.Nodup := booked.nodup.of_append_left
    have hsubset : sim.completions ⊆ sim.delivered := fun other hmem =>
      booked.subset (List.mem_append_left _ hmem)
    -- completed and unfinished requests together are the delivered ones
    have hperm : sim.rowed.Perm sim.delivered := by
      rw [hrowed]
      refine (List.perm_ext_iff_of_nodup ?_ hnodup).mpr fun other => ?_
      · refine hbooked.append (hnodup.filter _) fun other hmem hunfinished => ?_
        exact of_decide_eq_true (List.mem_filter.mp hunfinished).2 hmem
      · rw [List.mem_append, SimState.unfinished, List.mem_filter, decide_eq_true_eq]
        constructor
        · exact fun h => h.elim (fun hmem => hsubset hmem) And.left
        · exact fun hmem => or_iff_not_imp_left.mpr fun hnot => ⟨hmem, hnot⟩
    rw [hperm.count_eq, hnodup.count]

/-- Two requests, one at a time. -/
def twoRequests : ReplaySetup where
  trace := ⟨[⟨0, none⟩, ⟨0, none⟩], by simp⟩
  arrival := twoUnits.arrival
  capacity := twoUnits.capacity
  dependency := .independent

/-- The store with the first request in it, and with both. -/
def firstIn (completed : Bool) : RequestStore where
  records := AList.insert 0 { RequestRecord.fromRequest 0 0 8 1 .standalone with completed } ∅
  arrivedIds := [0]
  admittedIds := []

def bothIn : RequestStore where
  records := (firstIn true).records.insert 1 (.fromRequest 1 0 8 4 .standalone)
  arrivedIds := [0, 1]
  admittedIds := []

/-- The first request completes in the first tick; the second is running when the run ends. -/
def twoRequestsAnswers : List FlowAnswer :=
  let quiet : FlowAnswer := ⟨.new, []⟩
  [⟨firstIn false, []⟩, quiet, ⟨firstIn true, [0]⟩, quiet, quiet, quiet,
    ⟨bothIn, []⟩, quiet, ⟨bothIn, []⟩, quiet, quiet, quiet]

theorem completed?_firstIn (completed : Bool) (request : RequestId) :
    (firstIn completed).completed? request = if request = 0 then some completed else none := by
  simp only [RequestStore.completed?, RequestStore.get, firstIn]
  split
  · next h =>
    subst h
    rw [AList.lookup_insert]
    rfl
  · next h =>
    rw [AList.lookup_insert_ne h, AList.lookup_empty]
    rfl

theorem completed?_bothIn (request : RequestId) : bothIn.completed? request =
    if request = 1 then some false else (firstIn true).completed? request := by
  simp only [RequestStore.completed?, RequestStore.get, bothIn]
  split
  · next h =>
    subst h
    rw [AList.lookup_insert]
    rfl
  · next h =>
    rw [AList.lookup_insert_ne h]

/-- The run is cut at one microsecond: the first request has the row of its completion, the
second a partial one. -/
theorem simulation_ledger_cut :
    let sim := Run.run (SimState.step (.new 1000 false 1)) (.start (.new 1000 false 1)
      twoRequests.trace twoRequests.arrival twoRequests.capacity twoRequests.dependency)
      twoRequestsAnswers
    sim.phase = .finished .durationReached ∧ sim.rowed = [0, 1] ∧
      ∀ request, sim.rowed.count request = if request ∈ sim.delivered then 1 else 0 := by
  have hphase : (Run.run (SimState.step (.new 1000 false 1)) (.start (.new 1000 false 1)
      twoRequests.trace twoRequests.arrival twoRequests.capacity twoRequests.dependency)
      twoRequestsAnswers).phase = .finished .durationReached := by decide +kernel
  obtain ⟨-, -, -, -, hrows⟩ := simulation_ledger twoRequests (.new 1000 false 1)
    twoRequestsAnswers (by
      have hfirst : Arrives .new (firstIn false) 0 := by
        refine ⟨rfl, by rw [completed?_firstIn]; rfl, fun other hne => ?_⟩
        rw [completed?_firstIn, if_neg hne]
        rfl
      have hdone : Ticks (firstIn false) (firstIn true) [0] := by
        refine ⟨rfl, by decide, by simp [completed?_firstIn], fun request => ?_⟩
        rw [completed?_firstIn, completed?_firstIn]
        by_cases h : request = 0 <;> simp [h]
      have hsecond : Arrives (firstIn true) bothIn 1 := by
        refine ⟨rfl, by rw [completed?_bothIn]; rfl, fun other hne => ?_⟩
        rw [completed?_bothIn, if_neg hne]
      have hidle : Ticks bothIn bothIn [] := by
        refine ⟨rfl, .nil, nofun, fun request => ?_⟩
        cases bothIn.completed? request <;> simp
      exact ⟨hfirst, trivial, hdone, trivial, trivial, trivial, hsecond, trivial, hidle, trivial,
        trivial, trivial, trivial⟩)
  exact ⟨hphase, by decide +kernel, hrows _ hphase⟩

end ServingSim
