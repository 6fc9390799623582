import ServingSim.Common.Request
import ServingSim.Lib.KeyedTotal

/-
  When a loaded arrival may enter the system (`sim::frontend::release`), and the
  frontend's drain and completion around it (`sim::frontend`).

  A replay has three axes: the arrival mode says when a row is eligible, the
  capacity limit how many units may be active at once, the session dependency
  whether a row waits for the preceding round of its session. A unit is a session
  where rounds are chained and a request otherwise.

  Trace times are exact milliseconds, times are nanoseconds. What loading a trace
  checked is part of it: arrivals do not decrease. Request ids are interned in row
  order, so a request's id is its row. The heap of unlocked rounds is a list sorted by
  due time and row.
-/

namespace ServingSim

open KeyedTotal

/-! ## Pacing -/

/-- `Time::from_ms`. -/
def timeFromMs (ms : ℚ) : Time := (ms * 1000000).floor.toNat

structure SessionReleaseMetadata where
  sessionId : SessionId
  toolWaitAfter : Time
  deriving DecidableEq, Repr

structure ReleaseMetadata where
  /-- Rate-1-normalized trace time. -/
  traceArrivalTimeMs : ℚ
  session : Option SessionReleaseMetadata
  deriving DecidableEq, Repr

inductive ArrivalMode where
  | traceTimed
  | saturated
  deriving DecidableEq, Repr

structure ArrivalSchedule where
  mode : ArrivalMode
  requestRate : ℚ
  rate_pos : mode = .traceTimed → 0 < requestRate

def effectiveArrival (arrivalTime requestRate : ℚ) : Time := timeFromMs (arrivalTime / requestRate)

/-- When a row may enter as a new unit at `now`, and with which stamp. -/
def releaseTime (arrival : ArrivalSchedule) (release : ReleaseMetadata) (now : Time) :
    Option Time :=
  match arrival.mode with
  | .traceTimed =>
    let due := effectiveArrival release.traceArrivalTimeMs arrival.requestRate
    if due ≤ now then some due else none
  | .saturated => some now

/-- How many units may be active at once. -/
structure CapacityLimit where
  maxActiveUnits : Option Nat
  positive : ∀ limit ∈ maxActiveUnits, 0 < limit

def CapacityLimit.admits (capacity : CapacityLimit) (activeUnits : Nat) : Bool :=
  match capacity.maxActiveUnits with
  | none => true
  | some limit => activeUnits < limit

inductive SessionDependency where
  | independent
  | chained
  deriving DecidableEq, Repr

/-! ## Active units -/

inductive ActiveUnits where
  /-- The frontend's in-flight count. -/
  | requests
  /-- Sessions whose head has been released and whose last round has not completed, and
  the rows without a session in flight. -/
  | sessions (openSessions : Finset SessionId) (standaloneInFlight : Nat)

namespace ActiveUnits

def count (inFlight : Nat) : ActiveUnits → Nat
  | requests => inFlight
  | sessions openSessions standaloneInFlight => openSessions.card + standaloneInFlight

/-- A release entered the system. A later round's session already holds its slot. -/
def onRelease (release : ReleaseMetadata) (hasPredecessor : Bool) : ActiveUnits → ActiveUnits
  | requests => requests
  | sessions openSessions standaloneInFlight =>
    match release.session with
    | some session =>
      if hasPredecessor then sessions openSessions standaloneInFlight
      else sessions (insert session.sessionId openSessions) standaloneInFlight
    | none => sessions openSessions (standaloneInFlight + 1)

/-- A release completed. A session frees its slot when its last round does. -/
def onCompletion (release : ReleaseMetadata) (hasSuccessor : Bool) : ActiveUnits → ActiveUnits
  | requests => requests
  | sessions openSessions standaloneInFlight =>
    match release.session with
    | some session =>
      if hasSuccessor then sessions openSessions standaloneInFlight
      else sessions (openSessions.erase session.sessionId) standaloneInFlight
    | none => sessions openSessions (standaloneInFlight - 1)

end ActiveUnits

/-! ## Chains -/

structure Chains where
  successor : List (Option Nat)
  hasPredecessor : List Bool
  latestRound : Table SessionId Nat

def Chains.unlinked (rows : Nat) : Chains where
  successor := List.replicate rows none
  hasPredecessor := List.replicate rows false
  latestRound := ∅

/-- Link one row to the row of its session seen last. -/
def Chains.link (chains : Chains) (index : Nat) (release : ReleaseMetadata) : Chains :=
  match release.session with
  | none => chains
  | some session =>
    let linked := { chains with
      latestRound := chains.latestRound.insert session.sessionId index }
    match chains.latestRound.lookup session.sessionId with
    | none => linked
    | some previous =>
      { linked with
        successor := chains.successor.set previous (some index)
        hasPredecessor := chains.hasPredecessor.set index true }

/-- Each row's next round, and whether it is a later round. -/
def buildChains (releases : List ReleaseMetadata) : List (Option Nat) × List Bool :=
  let chains := releases.zipIdx.foldl (fun chains row => Chains.link chains row.2 row.1)
    (.unlinked releases.length)
  (chains.successor, chains.hasPredecessor)

/-! ## The scheduler -/

inductive SessionDependencyState where
  | independent (cursor : Nat)
  /-- `cursor` is the next head candidate in trace order; `ready` holds the unlocked
  rounds by due time. -/
  | chained (successor : List (Option Nat)) (hasPredecessor : List Bool) (cursor : Nat)
      (ready : List (Time × Nat))

structure ReplayScheduler where
  arrival : ArrivalSchedule
  capacity : CapacityLimit
  dependency : SessionDependencyState
  active : ActiveUnits
  /-- The cursor is inside a run of units that were due but had no slot. -/
  capacityBacklogged : Bool

/-- Push onto the heap of unlocked rounds. -/
def pushReady (entry : Time × Nat) : List (Time × Nat) → List (Time × Nat)
  | [] => [entry]
  | first :: ready =>
    if entry.1 < first.1 ∨ entry.1 = first.1 ∧ entry.2 ≤ first.2 then entry :: first :: ready
    else first :: pushReady entry ready

namespace ReplayScheduler

def new (arrival : ArrivalSchedule) (capacity : CapacityLimit) (dependency : SessionDependency)
    (releases : List ReleaseMetadata) : ReplayScheduler :=
  match dependency with
  | .independent => ⟨arrival, capacity, .independent 0, .requests, false⟩
  | .chained =>
    let (successor, hasPredecessor) := buildChains releases
    ⟨arrival, capacity, .chained successor hasPredecessor 0 [], .sessions ∅ 0, false⟩

/-- Book a release into the ledger and hand it back to the drain loop. -/
def book (scheduler : ReplayScheduler) (release : ReleaseMetadata) (index : Nat)
    (releaseTime : Time) : Option (Nat × Time) × ReplayScheduler :=
  let hasPredecessor :=
    match scheduler.dependency with
    | .chained _ hasPredecessor _ _ => hasPredecessor.getD index false
    | .independent _ => false
  (some (index, releaseTime),
    { scheduler with active := scheduler.active.onRelease release hasPredecessor })

/-- The head at `cursor` enters if it has arrived and a slot is free; `moved` is the
dependency behind it. Arrival is checked before capacity. -/
def nextHead (scheduler : ReplayScheduler) (releases : List ReleaseMetadata) (inFlight : Nat)
    (now : Time) (cursor : Nat) (moved : SessionDependencyState) :
    Option (Nat × Time) × ReplayScheduler :=
  match releases[cursor]? with
  | none => (none, scheduler)
  | some release =>
    match releaseTime scheduler.arrival release now with
    | none => (none, { scheduler with capacityBacklogged := false })
    | some releaseTime =>
      if scheduler.capacity.admits (scheduler.active.count inFlight) then
        { scheduler with dependency := moved }.book release cursor
          (if scheduler.capacityBacklogged then max releaseTime now else releaseTime)
      else (none, { scheduler with capacityBacklogged := true })

/-- The cursor behind the later rounds it stands on. -/
def skipRounds (hasPredecessor : List Bool) (cursor : Nat) : Nat :=
  cursor + ((hasPredecessor.drop cursor).takeWhile id).length

/-- The next row that may enter now, with its stamp. -/
def nextReady (scheduler : ReplayScheduler) (releases : List ReleaseMetadata) (inFlight : Nat)
    (now : Time) : Option (Nat × Time) × ReplayScheduler :=
  match scheduler.dependency with
  | .independent cursor =>
    scheduler.nextHead releases inFlight now cursor (.independent (cursor + 1))
  | .chained successor hasPredecessor cursor ready =>
    let heads := fun (_ : Unit) =>
      -- rounds are stepped over: they enter through `ready`
      let cursor := skipRounds hasPredecessor cursor
      let stepped :=
        { scheduler with dependency := .chained successor hasPredecessor cursor ready }
      stepped.nextHead releases inFlight now cursor
        (.chained successor hasPredecessor (cursor + 1) ready)
    match ready with
    | [] => heads ()
    | (due, index) :: later =>
      if due ≤ now then
        -- no capacity check: the session holds its slot since its head
        match releases[index]? with
        | none => (none, scheduler)
        | some release =>
          { scheduler with
            dependency := .chained successor hasPredecessor cursor later }.book release index now
      else heads ()

/-- A request finished: its successor is due once its tool wait is over. -/
def onCompletion (scheduler : ReplayScheduler) (releases : List ReleaseMetadata)
    (request : RequestId) (now : Time) : ReplayScheduler :=
  match scheduler.dependency, releases[request]? with
  | .chained successor hasPredecessor cursor ready, some release =>
    let next := (successor.getD request none)
    let released := { scheduler with
      active := scheduler.active.onCompletion release next.isSome }
    match next with
    | none => released
    | some next =>
      let toolWaitAfter := (release.session.map fun session => session.toolWaitAfter).getD 0
      { released with
        dependency :=
          .chained successor hasPredecessor cursor (pushReady (now + toolWaitAfter, next) ready) }
  | _, _ => scheduler

end ReplayScheduler

/-! ## The frontend -/

/-- A loaded trace. -/
structure LoadedReleases where
  releases : List ReleaseMetadata
  /-- `validate_arrival_order`. -/
  sorted : releases.Pairwise fun a b => a.traceArrivalTimeMs ≤ b.traceArrivalTimeMs

structure TraceFrontend where
  trace : LoadedReleases
  emitted : Nat
  completed : Nat
  replayScheduler : ReplayScheduler

namespace TraceFrontend

def new (trace : LoadedReleases) (arrival : ArrivalSchedule) (capacity : CapacityLimit)
    (dependency : SessionDependency) : TraceFrontend :=
  ⟨trace, 0, 0, .new arrival capacity dependency trace.releases⟩

def expectedCount (frontend : TraceFrontend) : Nat := frontend.trace.releases.length

def exhausted (frontend : TraceFrontend) : Bool := frontend.expectedCount ≤ frontend.emitted

def inFlight (frontend : TraceFrontend) : Nat := frontend.emitted - frontend.completed

/-- One turn of the drain loop: the row that enters and its stamp. -/
def drainOne (frontend : TraceFrontend) (now : Time) : Option (Nat × Time) × TraceFrontend :=
  match frontend.replayScheduler.nextReady frontend.trace.releases frontend.inFlight now with
  | (none, replayScheduler) => (none, { frontend with replayScheduler })
  | (some entry, replayScheduler) =>
    (some entry, { frontend with emitted := frontend.emitted + 1, replayScheduler })

/-- Ask until nothing more may enter. -/
def drainLoop (now : Time) : Nat → TraceFrontend → List (Nat × Time) × TraceFrontend
  | 0, frontend => ([], frontend)
  | fuel + 1, frontend =>
    match frontend.drainOne now with
    | (none, frontend) => ([], frontend)
    | (some entry, frontend) =>
      let (entries, frontend) := drainLoop now fuel frontend
      (entry :: entries, frontend)

/-- All rows that may enter by `now`; one turn more than there are rows. -/
def drainDue (frontend : TraceFrontend) (now : Time) : List (Nat × Time) × TraceFrontend :=
  drainLoop now (frontend.expectedCount + 1) frontend

def recordCompletion (frontend : TraceFrontend) (request : RequestId) (now : Time) :
    TraceFrontend :=
  { frontend with
    completed := frontend.completed + 1
    replayScheduler := frontend.replayScheduler.onCompletion frontend.trace.releases request now }

end TraceFrontend

end ServingSim
