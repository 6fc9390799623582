import ServingSim.Common.RequestRecord
import ServingSim.Sim.Release

/-
  The tick loop of a simulation (`sim::run::run_sim`).

  One pass of the loop drains the arrivals due, lets the deployment flow advance one
  tick, books each completion it reports, takes the periodic census, tests the stop
  conditions and advances the clock. The loop is a machine here, one step for each
  thing it does, so that what holds between two steps can be said: its place in the
  pass is `LoopPhase`. The flow is not modelled: what it makes of the shared request store
  at each call, and the completions a tick reports, are the step's operation
  (`FlowAnswer`), and `SimState.Guard` is the event interface every answer respects.

  Renamed (Rust ↔ Lean):
    the body of the loop ↔ `SimState.step`, a phase for each part
  `delivered` and `completions` are the calls of `on_arrival` and `record_completion`
  made so far; the source keeps no such lists. The heartbeat and the summary only
  report and are left out, and writing a row does not fail.
-/

namespace ServingSim

open KeyedTotal

/-! ## The request store -/

/-- Slots of the released requests, and the order of release and of first admission. -/
structure RequestStore where
  records : Table RequestId RequestRecord
  arrivedIds : List RequestId
  admittedIds : List RequestId

namespace RequestStore

def new : RequestStore := ⟨∅, [], []⟩

def get (store : RequestStore) (request : RequestId) : Option RequestRecord :=
  store.records.lookup request

/-- Whether a request is complete; `none` before it arrived. -/
def completed? (store : RequestStore) (request : RequestId) : Option Bool :=
  (store.get request).map RequestRecord.completed

def iterAdmitted (store : RequestStore) : List RequestRecord :=
  store.admittedIds.filterMap store.get

end RequestStore

/-! ## What the loop writes -/

/-- A `request_slo` row. -/
structure RequestSloEntry where
  requestId : RequestId
  loggingTime : Time
  completed : Bool
  arrivalTime : Time
  numOutputTokens : Nat
  prefillProcessed : Nat
  declaredPrefixTokens : Nat
  prefixCacheHitTokens : Option Nat
  freshPromptTokens : Nat
  targetOutputTokens : Nat
  retractionCount : Nat
  reprocessedPrefills : List ReprocessedPrefillEpisode
  deriving DecidableEq, Repr

def sloEntry (request : RequestId) (now : Time) (record : RequestRecord) : RequestSloEntry where
  requestId := request
  loggingTime := now
  completed := record.completed
  arrivalTime := record.arrivalTime
  numOutputTokens := record.outputTokensEmitted
  prefillProcessed := record.prefillTokensProcessed
  declaredPrefixTokens := record.session.declaredPrefixTokens
  prefixCacheHitTokens := record.prefixCacheHitTokens
  freshPromptTokens := record.promptTokens
  targetOutputTokens := record.targetOutputTokens
  retractionCount := record.retractionCount
  reprocessedPrefills := record.reprocessedPrefills

/-- A `request_state` row: the admitted requests taken together. -/
structure RequestStateEntry where
  loggingTime : Time
  prefillTokensCum : Nat
  decodeTokensCum : Nat
  nAdmitted : Nat
  nCompleted : Nat
  deriving DecidableEq, Repr

def stateAgg (store : RequestStore) (now : Time) : RequestStateEntry where
  loggingTime := now
  prefillTokensCum := (store.iterAdmitted.map RequestRecord.prefillTokensProcessed).sum
  decodeTokensCum := (store.iterAdmitted.map RequestRecord.outputTokensEmitted).sum
  nAdmitted := store.iterAdmitted.length
  nCompleted := (store.iterAdmitted.filter RequestRecord.completed).length

/-! ## Knobs and gates -/

/-- Fires on the first call and then on every `period`-th. -/
structure EveryN where
  period : Nat
  countdown : Nat
  deriving DecidableEq, Repr

namespace EveryN

def new (period : Nat) : EveryN := ⟨period, 0⟩

def fire (gate : EveryN) : Bool × EveryN :=
  if gate.countdown = 0 then (true, { gate with countdown := gate.period - 1 })
  else (false, { gate with countdown := gate.countdown - 1 })

end EveryN

structure TickCfg where
  tickDt : Time
  duration : Time
  runToEnd : Bool
  snapshotDt : Time
  stuckThreshold : Time
  /-- A zero step would make the periodic gates divide by zero. -/
  tickDt_pos : 0 < tickDt

def watchdogSample : Time := 100000000000

namespace TickCfg

def new (duration : Time) (runToEnd : Bool) (tickDtUs : Nat) : TickCfg where
  tickDt := max tickDtUs 1 * 1000
  duration := duration
  runToEnd := runToEnd
  snapshotDt := 10000000000
  stuckThreshold := 60000000000
  tickDt_pos := by positivity

/-- A span of simulated time as a number of passes. -/
def ticks (cfg : TickCfg) (dt : Time) : Nat := max (dt / cfg.tickDt) 1

end TickCfg

/-- What the stuck watchdog compares between samples. -/
structure Liveness where
  completed : Nat
  admitted : Nat
  tokens : Nat
  deriving DecidableEq, Repr

def liveness (completed : Nat) (store : RequestStore) : Liveness where
  completed := completed
  admitted := store.admittedIds.length
  tokens := (store.iterAdmitted.map fun record =>
    record.prefillTokensProcessed + record.outputTokensEmitted).sum

inductive TerminationCause where
  | drainComplete
  | durationReached
  | stuck
  deriving DecidableEq, Repr

/-! ## The loop -/

/-- Where the loop stands. -/
inductive LoopPhase where
  | draining
  | ticking
  /-- The completions of this tick still to book. -/
  | completing (actions : List RequestId)
  | checking
  | stopped (cause : TerminationCause)
  | finished (cause : TerminationCause)
  /-- An assertion failed. -/
  | panicked (message : String)
  deriving DecidableEq, Repr

structure SimState where
  phase : LoopPhase
  clock : Time
  frontend : TraceFrontend
  store : RequestStore
  requestSlo : List RequestSloEntry
  requestState : List RequestStateEntry
  prevProgress : Liveness
  idleFor : Time
  lastStateClock : Option Time
  snapshot : EveryN
  watchdog : EveryN
  /-- The requests handed to the flow. -/
  delivered : List RequestId
  /-- The completions booked with the frontend. -/
  completions : List RequestId

/-- What the flow does when it is called: the store it leaves, and what a tick reports. -/
structure FlowAnswer where
  store : RequestStore
  actions : List RequestId

namespace SimState

variable (cfg : TickCfg) (sim : SimState)

def start (setupTrace : LoadedReleases) (arrival : ArrivalSchedule) (capacity : CapacityLimit)
    (dependency : SessionDependency) : SimState where
  phase := .draining
  clock := 0
  frontend := .new setupTrace arrival capacity dependency
  store := .new
  requestSlo := []
  requestState := []
  prevProgress := ⟨0, 0, 0⟩
  idleFor := 0
  lastStateClock := none
  snapshot := .new (cfg.ticks cfg.snapshotDt)
  watchdog := .new (cfg.ticks watchdogSample)
  delivered := []
  completions := []

/-- One turn of the drain: a due arrival goes to the flow. -/
def drain (answer : FlowAnswer) : SimState :=
  match sim.frontend.drainOne sim.clock with
  | (none, frontend) => { sim with frontend, phase := .ticking }
  | (some (row, _), frontend) =>
    { sim with
      frontend
      store := answer.store
      delivered := sim.delivered ++ [row] }

/-- Book one completion and write its row. -/
def bookCompletion (request : RequestId) (rest : List RequestId) : SimState :=
  match sim.store.get request with
  | none => { sim with phase := .panicked s!"request {request} has not arrived" }
  | some record =>
    { sim with
      frontend := sim.frontend.recordCompletion request sim.clock
      requestSlo := sim.requestSlo ++ [sloEntry request sim.clock record]
      completions := sim.completions ++ [request]
      phase := .completing rest }

/-- The periodic census. -/
def census : SimState :=
  let (fired, snapshot) := sim.snapshot.fire
  if fired then
    { sim with
      snapshot
      requestState := sim.requestState ++ [stateAgg sim.store sim.clock]
      lastStateClock := some sim.clock }
  else { sim with snapshot }

def advance : SimState := { sim with clock := sim.clock + cfg.tickDt, phase := .draining }

/-- The stuck watchdog: a whole sample without progress counts as idle time. -/
def watch : SimState :=
  let (fired, watchdog) := sim.watchdog.fire
  let sampled := { sim with watchdog }
  if fired then
    let progress := liveness sim.frontend.completed sim.store
    if progress ≠ sim.prevProgress then
      { sampled with prevProgress := progress, idleFor := 0 }.advance cfg
    else
      let idle := { sampled with idleFor := sim.idleFor + watchdogSample }
      if cfg.stuckThreshold ≤ idle.idleFor then { idle with phase := .stopped .stuck }
      else idle.advance cfg
  else sampled.advance cfg

/-- The stop conditions, in order. -/
def check : SimState :=
  let sim := sim.census
  if sim.frontend.exhausted ∧ sim.frontend.inFlight = 0 then
    { sim with phase := .stopped .drainComplete }
  else if cfg.runToEnd = false ∧ cfg.duration ≤ sim.clock then
    { sim with phase := .stopped .durationReached }
  else if sim.frontend.exhausted ∧ 0 < sim.frontend.inFlight then sim.watch cfg
  else sim.advance cfg

/-- The rows of the arrived requests that are not complete. -/
def partialRows : List RequestSloEntry :=
  sim.store.arrivedIds.filterMap fun request =>
    (sim.store.get request).bind fun record =>
      if record.completed then none else some (sloEntry request sim.clock record)

/-- The last census, unless this instant has one, and the partial rows. -/
def finalize (cause : TerminationCause) : SimState :=
  if sim.store.arrivedIds.all fun request => (sim.store.get request).isSome then
    { sim with
      requestState :=
        if sim.lastStateClock = some sim.clock then sim.requestState
        else sim.requestState ++ [stateAgg sim.store sim.clock]
      requestSlo := sim.requestSlo ++ sim.partialRows
      phase := .finished cause }
  else { sim with phase := .panicked "arrived request id must reference a present record" }

/-- One step of the loop. -/
def step (answer : FlowAnswer) : SimState :=
  match sim.phase with
  | .draining => sim.drain answer
  | .ticking => { sim with store := answer.store, phase := .completing answer.actions }
  | .completing [] => { sim with phase := .checking }
  | .completing (request :: rest) => sim.bookCompletion request rest
  | .checking => sim.check cfg
  | .stopped cause => sim.finalize cause
  | .finished _ | .panicked _ => sim

end SimState

/-! ## The event interface -/

/-- The flow was handed a request: it inserts it, not complete, and completes no other. -/
structure Arrives (store store' : RequestStore) (request : RequestId) : Prop where
  arrivedIds : store'.arrivedIds = store.arrivedIds ++ [request]
  fresh : store'.completed? request = some false
  others : ∀ other, other ≠ request → store'.completed? other = store.completed? other

/-- The flow advanced one tick: it reports each request that became complete, once. -/
structure Ticks (store store' : RequestStore) (actions : List RequestId) : Prop where
  arrivedIds : store'.arrivedIds = store.arrivedIds
  nodup : actions.Nodup
  live : ∀ request ∈ actions, store.completed? request = some false
  flags : ∀ request, store'.completed? request =
    (store.completed? request).map fun completed => completed || decide (request ∈ actions)

namespace SimState

/-- The flow's answer respects the interface where the loop calls it. -/
def Guard (sim : SimState) (answer : FlowAnswer) : Prop :=
  match sim.phase with
  | .draining =>
    match sim.frontend.drainOne sim.clock with
    | (none, _) => True
    | (some (row, _), _) => Arrives sim.store answer.store row
  | .ticking => Ticks sim.store answer.store answer.actions
  | _ => True

end SimState

end ServingSim
