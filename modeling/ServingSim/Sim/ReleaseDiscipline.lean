import ServingSim.Lib.Run
import ServingSim.Sim.SessionChains

/-
  The release discipline of a replay.

  A run of the frontend writes a history: each row that enters, each completion, the
  end of each drain. What the replay promises is said about the history alone, event by
  event against the events before it (`Disciplined`): which units are active, which
  rows are unlocked and since when, can all be read off it.
-/

namespace ServingSim

/-! ## Histories -/

/-- What a replay is about. -/
structure ReplaySetup where
  trace : LoadedReleases
  arrival : ArrivalSchedule
  capacity : CapacityLimit
  dependency : SessionDependency

inductive ReplayEvent where
  /-- A row entered during a drain at `now`, stamped `stamp`. -/
  | release (row : Nat) (now stamp : Time)
  | complete (row : Nat) (now : Time)
  /-- A drain at `now` ended. -/
  | drained (now : Time)
  deriving DecidableEq, Repr

namespace ReplayEvent

def releasedRow : ReplayEvent → Option Nat
  | release row _ _ => some row
  | _ => none

def completedRow : ReplayEvent → Option Nat
  | complete row _ => some row
  | _ => none

end ReplayEvent

/-- The rows released in a history, the newest first. -/
def released (h : List ReplayEvent) : List Nat := h.filterMap ReplayEvent.releasedRow

def completed (h : List ReplayEvent) : List Nat := h.filterMap ReplayEvent.completedRow

@[simp] theorem released_nil : released [] = [] := rfl
@[simp] theorem completed_nil : completed [] = [] := rfl

section cons

variable (h : List ReplayEvent) (row : Nat) (now stamp : Time)

@[simp] theorem released_release : released (.release row now stamp :: h) = row :: released h := rfl
@[simp] theorem released_complete : released (.complete row now :: h) = released h := rfl
@[simp] theorem released_drained : released (.drained now :: h) = released h := rfl
@[simp] theorem completed_release : completed (.release row now stamp :: h) = completed h := rfl
@[simp] theorem completed_complete : completed (.complete row now :: h) = row :: completed h := rfl
@[simp] theorem completed_drained : completed (.drained now :: h) = completed h := rfl

end cons

theorem mem_completed {h : List ReplayEvent} {row : Nat} :
    row ∈ completed h ↔ ∃ now, .complete row now ∈ h := by
  rw [completed, List.mem_filterMap]
  constructor
  · rintro ⟨event, hevent, hrow⟩
    cases event with
    | complete row' now =>
      obtain rfl : row' = row := Option.some.inj hrow
      exact ⟨now, hevent⟩
    | release row' now stamp => cases hrow
    | drained now => cases hrow
  · rintro ⟨now, hevent⟩
    exact ⟨_, hevent, rfl⟩

namespace ReplaySetup

variable (setup : ReplaySetup)

def rows : Nat := setup.trace.releases.length

/-- The session a row is a round of, where rounds are chained. -/
def sessionOf (row : Nat) : Option SessionId :=
  match setup.dependency with
  | .independent => none
  | .chained => sessionAt setup.trace.releases row

/-- The tool wait after a row. -/
def wait (row : Nat) : Time :=
  ((setup.trace.releases[row]?.bind ReleaseMetadata.session).map
    SessionReleaseMetadata.toolWaitAfter).getD 0

/-- A row that follows no other. -/
def IsHead (row : Nat) : Prop := ∀ previous, ¬Follows setup.sessionOf previous row

/-- The row is eligible as a new unit at `now`. -/
def Arrived (row : Nat) (now : Time) : Prop :=
  ∃ release ∈ setup.trace.releases[row]?, releaseTime setup.arrival release now ≠ none

instance (row : Nat) (now : Time) : Decidable (setup.Arrived row now) :=
  inferInstanceAs (Decidable (∃ release ∈ setup.trace.releases[row]?, _))

/-! ## Active units of a history -/

/-- A round of the session was released, and a round of it has not completed. -/
def IsOpen (h : List ReplayEvent) (session : SessionId) : Prop :=
  (∃ row ∈ released h, setup.sessionOf row = some session) ∧
    ∃ row < setup.rows, setup.sessionOf row = some session ∧ row ∉ completed h

open Classical in
noncomputable def openSessions (h : List ReplayEvent) : Finset SessionId :=
  ((List.range setup.rows).filterMap setup.sessionOf).toFinset.filter (setup.IsOpen h)

/-- The rows outside every session in flight. -/
def standalone (h : List ReplayEvent) : List Nat :=
  (released h).filter fun row => setup.sessionOf row = none ∧ row ∉ completed h

noncomputable def activeUnits (h : List ReplayEvent) : Nat :=
  (setup.openSessions h).card + (setup.standalone h).length

def WithinCap (h : List ReplayEvent) : Prop :=
  ∀ limit ∈ setup.capacity.maxActiveUnits, setup.activeUnits h ≤ limit

/-! ## The discipline -/

/-- A row may enter after a history. -/
structure Enters (h : List ReplayEvent) (row : Nat) (now stamp : Time) : Prop where
  row_lt : row < setup.rows
  once : row ∉ released h
  stamp_le : stamp ≤ now
  /-- The rounds of a session enter one behind the other's completion. -/
  order : ∀ earlier < row, setup.sessionOf earlier = setup.sessionOf row →
    setup.sessionOf row ≠ none → earlier ∈ completed h
  /-- A later round enters after its predecessor's tool wait, stamped with the drain. -/
  round : ∀ previous, Follows setup.sessionOf previous row →
    stamp = now ∧ ∃ done, .complete previous done ∈ h ∧ done + setup.wait previous ≤ now
  /-- A head has arrived; if an earlier drain held it back, it is stamped with this one. -/
  head : setup.IsHead row → setup.Arrived row now ∧
    ((∃ earlier, .drained earlier ∈ h ∧ setup.Arrived row earlier) → stamp = now)
  /-- A head is stamped with its own arrival or with the drain. -/
  due : setup.IsHead row → ∀ release ∈ setup.trace.releases[row]?,
    stamp = now ∨ releaseTime setup.arrival release now = some stamp
  capped : setup.WithinCap (.release row now stamp :: h)

/-- A drain leaves nothing behind that could enter. -/
structure Drains (h : List ReplayEvent) (now : Time) : Prop where
  rounds : ∀ previous row done, Follows setup.sessionOf previous row →
    .complete previous done ∈ h → row ∉ released h → now < done + setup.wait previous
  heads : ∀ row < setup.rows, setup.IsHead row → row ∉ released h → setup.Arrived row now →
    ∃ limit ∈ setup.capacity.maxActiveUnits, limit ≤ setup.activeUnits h

/-- An event may happen after a history. -/
def Allows (h : List ReplayEvent) : ReplayEvent → Prop
  | .release row now stamp => setup.Enters h row now stamp
  | .complete row now =>
    row ∈ released h ∧ row ∉ completed h ∧ setup.WithinCap (.complete row now :: h)
  | .drained now => setup.Drains h now

/-- Every event of a history is allowed by the events before it. -/
def Disciplined : List ReplayEvent → Prop
  | [] => True
  | event :: h => setup.Allows h event ∧ Disciplined h

end ReplaySetup

/-! ## Runs -/

structure ReplayRun where
  frontend : TraceFrontend
  clock : Time
  /-- The newest event first. -/
  history : List ReplayEvent

inductive ReplayOp where
  | drain (now : Time)
  | complete (request : RequestId) (now : Time)

namespace ReplayRun

def start (setup : ReplaySetup) : ReplayRun where
  frontend := .new setup.trace setup.arrival setup.capacity setup.dependency
  clock := 0
  history := []

def step (run : ReplayRun) : ReplayOp → ReplayRun
  | .drain now =>
    let (entries, frontend) := run.frontend.drainDue now
    { frontend
      clock := now
      history := .drained now ::
        (entries.map fun entry => ReplayEvent.release entry.1 now entry.2).reverse ++ run.history }
  | .complete request now =>
    { frontend := run.frontend.recordCompletion request now
      clock := now
      history := .complete request now :: run.history }

/-- Time does not go back; a request that completes is in flight. -/
def Guard (run : ReplayRun) : ReplayOp → Prop
  | .drain now => run.clock ≤ now
  | .complete request now =>
    run.clock ≤ now ∧ request ∈ released run.history ∧ request ∉ completed run.history

instance (run : ReplayRun) : ∀ op, Decidable (run.Guard op)
  | .drain now => inferInstanceAs (Decidable (run.clock ≤ now))
  | .complete _ now => inferInstanceAs (Decidable (run.clock ≤ now ∧ _ ∧ _))

end ReplayRun

/-! ## The log -/

variable {setup : ReplaySetup}

/-- Rows enter once, complete once and after they entered, and rounds enter behind the
completions of the earlier rounds. -/
structure Log (setup : ReplaySetup) (h : List ReplayEvent) : Prop where
  nodup : (released h).Nodup
  rows : ∀ row ∈ released h, row < setup.rows
  completedNodup : (completed h).Nodup
  completedReleased : ∀ row ∈ completed h, row ∈ released h
  ordered : ∀ row ∈ released h, ∀ earlier < row, setup.sessionOf earlier = setup.sessionOf row →
    setup.sessionOf row ≠ none → earlier ∈ completed h

theorem log_nil : Log setup [] :=
  ⟨.nil, nofun, .nil, nofun, nofun⟩

namespace Log

variable {h : List ReplayEvent} {row : Nat} {now stamp : Time}

theorem release (log : Log setup h) (hrow : row < setup.rows) (honce : row ∉ released h)
    (horder : ∀ earlier < row, setup.sessionOf earlier = setup.sessionOf row →
      setup.sessionOf row ≠ none → earlier ∈ completed h) :
    Log setup (.release row now stamp :: h) where
  nodup := List.nodup_cons.mpr ⟨honce, log.nodup⟩
  rows := List.forall_mem_cons.mpr ⟨hrow, log.rows⟩
  completedNodup := log.completedNodup
  completedReleased := fun other hother =>
    List.mem_cons_of_mem _ (log.completedReleased other hother)
  ordered := List.forall_mem_cons.mpr ⟨horder, log.ordered⟩

theorem complete (log : Log setup h) (hreleased : row ∈ released h)
    (honce : row ∉ completed h) : Log setup (.complete row now :: h) where
  nodup := log.nodup
  rows := log.rows
  completedNodup := List.nodup_cons.mpr ⟨honce, log.completedNodup⟩
  completedReleased := List.forall_mem_cons.mpr ⟨hreleased, log.completedReleased⟩
  ordered := fun other hother earlier hlt hsame hsession =>
    List.mem_cons_of_mem _ (log.ordered other hother earlier hlt hsame hsession)

theorem drained (log : Log setup h) : Log setup (.drained now :: h) :=
  ⟨log.nodup, log.rows, log.completedNodup, log.completedReleased, log.ordered⟩

theorem length_released_le (log : Log setup h) : (released h).length ≤ setup.rows := by
  have hsub : released h ⊆ List.range setup.rows := fun row hrow =>
    List.mem_range.mpr (log.rows row hrow)
  calc (released h).length ≤ (List.range setup.rows).length := (log.nodup.subperm hsub).length_le
    _ = setup.rows := List.length_range

theorem undrained (log : Log setup (.drained now :: h)) : Log setup h :=
  ⟨log.nodup, log.rows, log.completedNodup, log.completedReleased, log.ordered⟩

theorem next_notMem (log : Log setup h) {next : Nat}
    (hfollows : Follows setup.sessionOf row next) (honce : row ∉ completed h) :
    next ∉ released h := fun hnext =>
  honce (log.ordered next hnext row hfollows.lt hfollows.same hfollows.session)

end Log

/-! ## Arrivals -/

theorem timeFromMs_mono {a b : ℚ} (h : a ≤ b) : timeFromMs a ≤ timeFromMs b := by
  have hscaled : a * 1000000 ≤ b * 1000000 := by linarith
  exact Int.toNat_le_toNat (Rat.floor_monotone hscaled)

theorem releaseTime_le {arrival : ArrivalSchedule} {release : ReleaseMetadata} {now due : Time}
    (h : releaseTime arrival release now = some due) : due ≤ now := by
  simp only [releaseTime] at h
  split at h
  · split at h
    · next hle =>
      cases h
      exact hle
    · cases h
  · cases h
    exact le_rfl

namespace ReplaySetup

theorem Arrived.mono {row row' : Nat} {now now' : Time} (h : setup.Arrived row now)
    (hrow : row' ≤ row) (hnow : now ≤ now') : setup.Arrived row' now' := by
  obtain ⟨release, hrelease, harrived⟩ := h
  obtain ⟨hlt, rfl⟩ := List.getElem?_eq_some_iff.mp hrelease
  have hlt' : row' < setup.trace.releases.length := by omega
  refine ⟨setup.trace.releases[row'], List.getElem?_eq_getElem hlt', ?_⟩
  have hsorted : setup.trace.releases[row'].traceArrivalTimeMs ≤
      setup.trace.releases[row].traceArrivalTimeMs := by
    rcases Nat.lt_or_eq_of_le hrow with hrow | rfl
    · exact List.pairwise_iff_getElem.mp setup.trace.sorted row' row hlt' hlt hrow
    · exact le_rfl
  unfold releaseTime at harrived ⊢
  cases hmode : setup.arrival.mode with
  | saturated => nofun
  | traceTimed =>
    simp only [hmode] at harrived ⊢
    have hrate := setup.arrival.rate_pos hmode
    have hdue : effectiveArrival setup.trace.releases[row'].traceArrivalTimeMs
        setup.arrival.requestRate ≤ effectiveArrival setup.trace.releases[row].traceArrivalTimeMs
        setup.arrival.requestRate :=
      timeFromMs_mono (div_le_div_of_nonneg_right hsorted hrate.le)
    split at harrived
    · next hle => rw [if_pos (hdue.trans (hle.trans hnow))]; nofun
    · exact absurd rfl harrived

theorem lt_rows_of_session {row : Nat} {session : SessionId}
    (h : setup.sessionOf row = some session) : row < setup.rows := by
  unfold sessionOf at h
  split at h
  · cases h
  · by_contra hge
    rw [sessionAt, List.getElem?_eq_none (Nat.le_of_not_lt hge)] at h
    cases h

theorem IsHead.ne_session {row earlier : Nat} (h : setup.IsHead row) (hlt : earlier < row)
    (hsession : setup.sessionOf row ≠ none) : setup.sessionOf earlier ≠ setup.sessionOf row := by
  intro hsame
  obtain ⟨previous, hfollows⟩ := exists_follows hlt hsame hsession
  exact h previous hfollows

/-! ## What each event does to the active units -/

theorem mem_openSessions {h : List ReplayEvent} {session : SessionId} :
    session ∈ setup.openSessions h ↔ setup.IsOpen h session := by
  classical
  rw [openSessions, Finset.mem_filter, List.mem_toFinset, List.mem_filterMap]
  refine and_iff_right_of_imp ?_
  rintro ⟨-, row, hrow, hsession, -⟩
  exact ⟨row, List.mem_range.mpr hrow, hsession⟩

section units

variable {h : List ReplayEvent} {row : Nat} {now stamp : Time}

@[simp] theorem openSessions_drained :
    setup.openSessions (.drained now :: h) = setup.openSessions h := rfl

@[simp] theorem standalone_drained :
    setup.standalone (.drained now :: h) = setup.standalone h := rfl

theorem openSessions_release_none (hsession : setup.sessionOf row = none) :
    setup.openSessions (.release row now stamp :: h) = setup.openSessions h := by
  ext session
  rw [mem_openSessions, mem_openSessions]
  refine and_congr_left fun _ => ?_
  constructor
  · rintro ⟨other, hother, hsame⟩
    rcases List.mem_cons.mp hother with rfl | hother
    · rw [hsession] at hsame
      cases hsame
    · exact ⟨other, hother, hsame⟩
  · rintro ⟨other, hother, hsame⟩
    exact ⟨other, List.mem_cons_of_mem _ hother, hsame⟩

theorem openSessions_release (log : Log setup h) (honce : row ∉ released h) {session : SessionId}
    (hsession : setup.sessionOf row = some session) :
    setup.openSessions (.release row now stamp :: h) = insert session (setup.openSessions h) := by
  ext other
  rw [Finset.mem_insert, mem_openSessions, mem_openSessions]
  constructor
  · rintro ⟨⟨row', hrow', hsame⟩, hlast⟩
    rcases List.mem_cons.mp hrow' with rfl | hrow'
    · exact .inl (Option.some.inj (hsame.symm.trans hsession))
    · exact .inr ⟨⟨row', hrow', hsame⟩, hlast⟩
  · rintro (rfl | ⟨⟨row', hrow', hsame⟩, hlast⟩)
    · exact ⟨⟨row, List.mem_cons_self, hsession⟩, row, lt_rows_of_session hsession, hsession,
        fun hcompleted => honce (log.completedReleased row hcompleted)⟩
    · exact ⟨⟨row', List.mem_cons_of_mem _ hrow', hsame⟩, hlast⟩

theorem standalone_release_none (log : Log setup h) (honce : row ∉ released h)
    (hsession : setup.sessionOf row = none) :
    setup.standalone (.release row now stamp :: h) = row :: setup.standalone h :=
  List.filter_cons_of_pos (decide_eq_true
    ⟨hsession, fun hcompleted => honce (log.completedReleased row hcompleted)⟩)

theorem standalone_release {session : SessionId} (hsession : setup.sessionOf row = some session) :
    setup.standalone (.release row now stamp :: h) = setup.standalone h :=
  List.filter_cons_of_neg (by simp [hsession])

theorem openSessions_complete_none (hsession : setup.sessionOf row = none) :
    setup.openSessions (.complete row now :: h) = setup.openSessions h := by
  ext session
  rw [mem_openSessions, mem_openSessions]
  refine and_congr_right fun _ => ⟨?_, ?_⟩
  · rintro ⟨other, hother, hsame, hlast⟩
    exact ⟨other, hother, hsame, fun hmem => hlast (List.mem_cons_of_mem _ hmem)⟩
  · rintro ⟨other, hother, hsame, hlast⟩
    refine ⟨other, hother, hsame, fun hmem => ?_⟩
    rcases List.mem_cons.mp hmem with rfl | hmem
    · rw [hsession] at hsame
      cases hsame
    · exact hlast hmem

theorem openSessions_complete_next (log : Log setup h) {next : Nat}
    (hfollows : Follows setup.sessionOf row next) (honce : row ∉ completed h) :
    setup.openSessions (.complete row now :: h) = setup.openSessions h := by
  ext session
  rw [mem_openSessions, mem_openSessions]
  refine and_congr_right fun _ => ⟨?_, ?_⟩
  · rintro ⟨other, hother, hsame, hlast⟩
    exact ⟨other, hother, hsame, fun hmem => hlast (List.mem_cons_of_mem _ hmem)⟩
  · rintro ⟨other, hother, hsame, hlast⟩
    by_cases heq : other = row
    · -- the next round is not over either
      subst heq
      have hnext : setup.sessionOf next = some session := hfollows.same.symm.trans hsame
      refine ⟨next, lt_rows_of_session hnext, hnext, fun hmem => ?_⟩
      rcases List.mem_cons.mp hmem with rfl | hmem
      · exact absurd hfollows.lt (lt_irrefl _)
      · exact log.next_notMem hfollows honce (log.completedReleased next hmem)
    · refine ⟨other, hother, hsame, fun hmem => ?_⟩
      rcases List.mem_cons.mp hmem with rfl | hmem
      · exact heq rfl
      · exact hlast hmem

theorem openSessions_complete_last (log : Log setup h) (hreleased : row ∈ released h)
    {session : SessionId} (hsession : setup.sessionOf row = some session)
    (hlast : ∀ next, ¬Follows setup.sessionOf row next) :
    setup.openSessions (.complete row now :: h) = (setup.openSessions h).erase session := by
  have hrounds : ∀ other, setup.sessionOf other = some session → other ≤ row := by
    intro other hother
    by_contra hgt
    obtain ⟨next, hnext, hmin⟩ := WellFounded.has_min Nat.lt_wfRel.wf
      {next | row < next ∧ setup.sessionOf next = some session} ⟨other, by omega, hother⟩
    refine hlast next ⟨hnext.1, hsession.trans hnext.2.symm, by rw [hnext.2]; nofun, ?_⟩
    intro between hafter hbefore hsame
    exact hmin between ⟨hafter, hsame.trans hnext.2⟩ hbefore
  have hdone : ∀ other, setup.sessionOf other = some session →
      other ∈ completed (.complete row now :: h) := by
    intro other hother
    rcases Nat.lt_or_eq_of_le (hrounds other hother) with hlt | rfl
    · exact List.mem_cons_of_mem _ (log.ordered row hreleased other hlt
        (hother.trans hsession.symm) (by rw [hsession]; nofun))
    · exact List.mem_cons_self
  ext other
  rw [Finset.mem_erase, mem_openSessions, mem_openSessions]
  constructor
  · rintro ⟨hrows, last, hlt, hsame, hnot⟩
    refine ⟨?_, hrows, last, hlt, hsame, fun hmem => hnot (List.mem_cons_of_mem _ hmem)⟩
    rintro rfl
    exact hnot (hdone last hsame)
  · rintro ⟨hne, hrows, last, hlt, hsame, hnot⟩
    refine ⟨hrows, last, hlt, hsame, fun hmem => ?_⟩
    rcases List.mem_cons.mp hmem with rfl | hmem
    · exact hne (Option.some.inj (hsame.symm.trans hsession))
    · exact hnot hmem

theorem standalone_complete {session : SessionId} (hsession : setup.sessionOf row = some session) :
    setup.standalone (.complete row now :: h) = setup.standalone h := by
  unfold standalone
  rw [released_complete]
  refine List.filter_congr fun other hother =>
    decide_eq_decide.mpr (and_congr_right fun hnone => ?_)
  rw [completed_complete, List.mem_cons, not_or]
  refine and_iff_right ?_
  rintro rfl
  rw [hsession] at hnone
  cases hnone

theorem length_standalone_complete_none (log : Log setup h) (hreleased : row ∈ released h)
    (honce : row ∉ completed h) (hsession : setup.sessionOf row = none) :
    (setup.standalone (.complete row now :: h)).length = (setup.standalone h).length - 1 := by
  have herase : setup.standalone (.complete row now :: h) = (setup.standalone h).erase row := by
    rw [standalone, standalone, (log.nodup.filter _).erase_eq_filter, List.filter_filter]
    refine List.filter_congr fun other hother => ?_
    rw [Bool.eq_iff_iff]
    simp only [completed_complete, List.mem_cons, decide_eq_true_eq, Bool.and_eq_true, bne_iff_ne]
    tauto
  rw [herase]
  exact List.length_erase_of_mem (List.mem_filter.mpr ⟨hreleased, decide_eq_true ⟨hsession, honce⟩⟩)

end units

end ReplaySetup

end ServingSim
