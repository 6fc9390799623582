import ServingSim.Sim.ReleaseDiscipline

/-
  Every run of the replay keeps the release discipline.

  The scheduler is tied to the history by `Tracked`: the cursor has passed the heads
  that were released, the heap holds the rounds that were unlocked and not released,
  the ledger holds the active units, and the backlog flag is up as long as a head that
  an earlier drain held back is waiting.

  What is proved:
    1. `replay_discipline` — the history of every run is disciplined, and a run that is
       over has released every row once.
-/

namespace ServingSim

variable {setup : ReplaySetup} {h : List ReplayEvent} {row : Nat} {now stamp : Time}

namespace ReplaySetup

/-! ## The scheduler of a history -/

/-- The ledger of a history. -/
def Ledger (setup : ReplaySetup) (h : List ReplayEvent) : ActiveUnits → Prop
  | .requests => setup.dependency = .independent
  | .sessions openSessions standaloneInFlight =>
    setup.dependency = .chained ∧ openSessions = setup.openSessions h ∧
      standaloneInFlight = (setup.standalone h).length

/-- The cursor stands behind the heads that were released. -/
def Heads (setup : ReplaySetup) (h : List ReplayEvent) (cursor : Nat) : Prop :=
  ∀ row < setup.rows, setup.IsHead row → (row ∈ released h ↔ row < cursor)

/-- The heap holds the unlocked rounds, each since its predecessor's tool wait. -/
structure Unlocked (setup : ReplaySetup) (h : List ReplayEvent) (ready : List (Time × Nat)) :
    Prop where
  mem : ∀ due row, (due, row) ∈ ready ↔ row ∉ released h ∧
    ∃ previous done, Follows setup.sessionOf previous row ∧ .complete previous done ∈ h ∧
      due = done + setup.wait previous
  nodup : (ready.map Prod.snd).Nodup
  sorted : ready.Pairwise fun a b => a.1 ≤ b.1

def Tracks (setup : ReplaySetup) (h : List ReplayEvent) : SessionDependencyState → Prop
  | .independent cursor => setup.dependency = .independent ∧ setup.Heads h cursor
  | .chained successor hasPredecessor cursor ready =>
    setup.dependency = .chained ∧ (successor, hasPredecessor) = buildChains setup.trace.releases ∧
      setup.Heads h cursor ∧ setup.Unlocked h ready

structure Tracked (setup : ReplaySetup) (h : List ReplayEvent) (scheduler : ReplayScheduler) :
    Prop where
  arrival : scheduler.arrival = setup.arrival
  capacity : scheduler.capacity = setup.capacity
  ledger : setup.Ledger h scheduler.active
  dependency : setup.Tracks h scheduler.dependency
  backlogged : ∀ earlier, .drained earlier ∈ h → ∀ row < setup.rows, setup.IsHead row →
    row ∉ released h → setup.Arrived row earlier → scheduler.capacityBacklogged = true

/-! ## The ledger -/

theorem sessionOf_independent (hdependency : setup.dependency = .independent) (row : Nat) :
    setup.sessionOf row = none := by
  rw [sessionOf, hdependency]

theorem sessionOf_chained (hdependency : setup.dependency = .chained) :
    setup.sessionOf = sessionAt setup.trace.releases := by
  funext row
  rw [sessionOf, hdependency]

theorem openSessions_independent (hdependency : setup.dependency = .independent) :
    setup.openSessions h = ∅ := by
  refine Finset.eq_empty_of_forall_notMem fun session hmem => ?_
  obtain ⟨⟨other, -, hsame⟩, -⟩ := mem_openSessions.mp hmem
  rw [sessionOf_independent hdependency] at hsame
  cases hsame

theorem length_standalone_independent (log : Log setup h)
    (hdependency : setup.dependency = .independent) :
    (setup.standalone h).length = (released h).length - (completed h).length := by
  have hcompleted : ((released h).filter fun row => row ∈ completed h).Perm (completed h) := by
    refine (List.perm_ext_iff_of_nodup (log.nodup.filter _) log.completedNodup).mpr fun row => ?_
    rw [List.mem_filter, decide_eq_true_eq]
    exact and_iff_right_of_imp (log.completedReleased row)
  have hrest : setup.standalone h = (released h).filter fun row => !decide (row ∈ completed h) := by
    refine List.filter_congr fun row _ => ?_
    simp [sessionOf_independent hdependency]
  have hsplit := List.length_eq_length_filter_add (l := released h) fun row => row ∈ completed h
  rw [hcompleted.length_eq] at hsplit
  rw [hrest]
  omega

theorem Ledger.count_eq {active : ActiveUnits} (ledger : setup.Ledger h active)
    (log : Log setup h) :
    active.count ((released h).length - (completed h).length) = setup.activeUnits h := by
  cases active with
  | requests =>
    rw [activeUnits, openSessions_independent ledger, length_standalone_independent log ledger]
    exact (Nat.zero_add _).symm
  | sessions openSessions standaloneInFlight =>
    obtain ⟨-, rfl, rfl⟩ := ledger
    rfl

theorem activeUnits_head (log : Log setup h) (honce : row ∉ released h)
    (hhead : setup.IsHead row) :
    setup.activeUnits (.release row now stamp :: h) = setup.activeUnits h + 1 := by
  unfold activeUnits
  cases hsession : setup.sessionOf row with
  | none =>
    rw [openSessions_release_none hsession, standalone_release_none log honce hsession,
      List.length_cons, Nat.add_assoc]
  | some session =>
    rw [openSessions_release log honce hsession, standalone_release hsession,
      Finset.card_insert_of_notMem, Nat.add_right_comm]
    intro hopen
    -- a released row of the session would be behind this one, which then was released
    obtain ⟨⟨other, hother, hsame⟩, -⟩ := mem_openSessions.mp hopen
    have hsame' : setup.sessionOf other = setup.sessionOf row := hsame.trans hsession.symm
    rcases Nat.lt_trichotomy other row with hlt | rfl | hlt
    · exact hhead.ne_session hlt (by rw [hsession]; nofun) hsame'
    · exact honce hother
    · exact honce (log.completedReleased row
        (log.ordered other hother row hlt hsame'.symm (by rw [hsame]; nofun)))

theorem openSessions_round (log : Log setup h) (honce : row ∉ released h) {previous : Nat}
    (hfollows : Follows setup.sessionOf previous row) (hprevious : previous ∈ completed h) :
    setup.openSessions (.release row now stamp :: h) = setup.openSessions h := by
  obtain ⟨session, hsession⟩ := Option.ne_none_iff_exists'.mp hfollows.session
  rw [openSessions_release log honce hsession]
  refine Finset.insert_eq_of_mem (mem_openSessions.mpr ⟨⟨previous, ?_, ?_⟩, row, ?_, hsession, ?_⟩)
  · exact log.completedReleased previous hprevious
  · exact hfollows.same.trans hsession
  · exact lt_rows_of_session hsession
  · exact fun hcompleted => honce (log.completedReleased row hcompleted)

theorem activeUnits_round (log : Log setup h) (honce : row ∉ released h) {previous : Nat}
    (hfollows : Follows setup.sessionOf previous row) (hprevious : previous ∈ completed h) :
    setup.activeUnits (.release row now stamp :: h) = setup.activeUnits h := by
  obtain ⟨session, hsession⟩ := Option.ne_none_iff_exists'.mp hfollows.session
  rw [activeUnits, activeUnits, openSessions_round log honce hfollows hprevious,
    standalone_release hsession]

theorem sessionOf_of_getElem? (hdependency : setup.dependency = .chained)
    {release : ReleaseMetadata} (hrow : setup.trace.releases[row]? = some release) :
    setup.sessionOf row = release.session.map SessionReleaseMetadata.sessionId := by
  rw [sessionOf_chained hdependency, sessionAt, hrow]
  rfl

theorem Ledger.releaseHead {active : ActiveUnits} (ledger : setup.Ledger h active)
    (log : Log setup h) (honce : row ∉ released h) {release : ReleaseMetadata}
    (hrow : setup.trace.releases[row]? = some release) :
    setup.Ledger (.release row now stamp :: h) (active.onRelease release false) := by
  cases active with
  | requests => exact ledger
  | sessions openSessions standaloneInFlight =>
    obtain ⟨hdependency, rfl, rfl⟩ := ledger
    have hsession := sessionOf_of_getElem? hdependency hrow
    cases hkind : release.session with
    | none =>
      rw [hkind] at hsession
      simp only [ActiveUnits.onRelease, hkind]
      refine ⟨hdependency, (openSessions_release_none hsession).symm, ?_⟩
      rw [standalone_release_none log honce hsession, List.length_cons]
    | some session =>
      rw [hkind] at hsession
      simp only [ActiveUnits.onRelease, hkind]
      refine ⟨hdependency, (openSessions_release log honce hsession).symm, ?_⟩
      rw [standalone_release hsession]

theorem Ledger.releaseRound {active : ActiveUnits} (ledger : setup.Ledger h active)
    (hdependency : setup.dependency = .chained) (log : Log setup h) (honce : row ∉ released h)
    {previous : Nat} (hfollows : Follows setup.sessionOf previous row)
    (hprevious : previous ∈ completed h) {release : ReleaseMetadata}
    (hrow : setup.trace.releases[row]? = some release) :
    setup.Ledger (.release row now stamp :: h) (active.onRelease release true) := by
  cases active with
  | requests => exact ledger
  | sessions openSessions standaloneInFlight =>
    obtain ⟨-, rfl, rfl⟩ := ledger
    have hsession := sessionOf_of_getElem? hdependency hrow
    cases hkind : release.session with
    | none => exact absurd (by rw [hsession, hkind]; rfl) hfollows.session
    | some session =>
      rw [hkind] at hsession
      simp only [ActiveUnits.onRelease, hkind]
      refine ⟨hdependency, (openSessions_round log honce hfollows hprevious).symm, ?_⟩
      rw [standalone_release hsession]

theorem Ledger.complete {active : ActiveUnits} (ledger : setup.Ledger h active)
    (log : Log setup h) (hreleased : row ∈ released h) (honce : row ∉ completed h)
    {next : Option Nat} (hnext : setup.dependency = .chained →
      ∀ other, next = some other ↔ Follows setup.sessionOf row other)
    {release : ReleaseMetadata} (hrow : setup.trace.releases[row]? = some release) :
    setup.Ledger (.complete row now :: h) (active.onCompletion release next.isSome) := by
  cases active with
  | requests => exact ledger
  | sessions openSessions standaloneInFlight =>
    obtain ⟨hdependency, rfl, rfl⟩ := ledger
    have hsession := sessionOf_of_getElem? hdependency hrow
    cases hkind : release.session with
    | none =>
      rw [hkind] at hsession
      simp only [ActiveUnits.onCompletion, hkind]
      exact ⟨hdependency, (openSessions_complete_none hsession).symm,
        (length_standalone_complete_none log hreleased honce hsession).symm⟩
    | some session =>
      rw [hkind] at hsession
      simp only [ActiveUnits.onCompletion, hkind]
      cases next with
      | none =>
        refine ⟨hdependency, ?_, by rw [standalone_complete hsession]⟩
        refine (openSessions_complete_last log hreleased hsession fun other hother => ?_).symm
        exact nomatch (hnext hdependency other).mpr hother
      | some next =>
        have hfollows := (hnext hdependency next).mp rfl
        exact ⟨hdependency, (openSessions_complete_next log hfollows honce).symm,
          by rw [standalone_complete hsession]⟩

theorem activeUnits_complete_le (log : Log setup h) (hreleased : row ∈ released h)
    (honce : row ∉ completed h) :
    setup.activeUnits (.complete row now :: h) ≤ setup.activeUnits h := by
  unfold activeUnits
  cases hsession : setup.sessionOf row with
  | none =>
    rw [openSessions_complete_none hsession,
      length_standalone_complete_none log hreleased honce hsession]
    omega
  | some session =>
    rw [standalone_complete hsession]
    refine Nat.add_le_add_right (Finset.card_le_card fun other hother => ?_) _
    obtain ⟨hrows, last, hlt, hsame, hnot⟩ := mem_openSessions.mp hother
    exact mem_openSessions.mpr
      ⟨hrows, last, hlt, hsame, fun hmem => hnot (List.mem_cons_of_mem _ hmem)⟩

/-! ## One turn of the drain loop -/

theorem Ledger.drained {active : ActiveUnits} (ledger : setup.Ledger h active) :
    setup.Ledger (.drained now :: h) active := by
  cases active with
  | requests => exact ledger
  | sessions openSessions standaloneInFlight => exact ledger

theorem lt_rows_iff {release : ReleaseMetadata} (hrow : setup.trace.releases[row]? = some release) :
    row < setup.rows := (List.getElem?_eq_some_iff.mp hrow).1

theorem Heads.release {cursor : Nat} (heads : setup.Heads h cursor) :
    setup.Heads (.release cursor now stamp :: h) (cursor + 1) := by
  intro row hrow hhead
  rw [released_release, List.mem_cons, heads row hrow hhead]
  omega

theorem Heads.releaseRound {cursor : Nat} (heads : setup.Heads h cursor) {previous : Nat}
    (hfollows : Follows setup.sessionOf previous row) :
    setup.Heads (.release row now stamp :: h) cursor := by
  intro other hother hhead
  rw [released_release, List.mem_cons, heads other hother hhead]
  refine or_iff_right ?_
  rintro rfl
  exact hhead previous hfollows

theorem Unlocked.releaseHead {ready : List (Time × Nat)} (unlocked : setup.Unlocked h ready)
    (hhead : setup.IsHead row) : setup.Unlocked (.release row now stamp :: h) ready where
  mem := by
    intro due other
    rw [unlocked.mem]
    simp only [released_release, List.mem_cons, reduceCtorEq, false_or, not_or]
    refine and_congr_left fun ⟨previous, done, hfollows, _⟩ => (and_iff_right ?_).symm
    rintro rfl
    exact hhead previous hfollows
  nodup := unlocked.nodup
  sorted := unlocked.sorted

theorem Unlocked.releaseRound {due : Time} {later : List (Time × Nat)}
    (unlocked : setup.Unlocked h ((due, row) :: later)) :
    setup.Unlocked (.release row now stamp :: h) later where
  mem := by
    intro due' other
    have hrow : row ∉ later.map Prod.snd := (List.nodup_cons.mp unlocked.nodup).1
    have hmem := unlocked.mem due' other
    rw [List.mem_cons] at hmem
    simp only [released_release, List.mem_cons, reduceCtorEq, false_or, not_or]
    constructor
    · intro hlater
      refine ⟨⟨?_, (hmem.mp (.inr hlater)).1⟩, (hmem.mp (.inr hlater)).2⟩
      rintro rfl
      exact hrow (List.mem_map.mpr ⟨_, hlater, rfl⟩)
    · rintro ⟨⟨hne, hnot⟩, hunlocked⟩
      rcases hmem.mpr ⟨hnot, hunlocked⟩ with heq | hlater
      · exact absurd (Prod.ext_iff.mp heq).2 hne
      · exact hlater
  nodup := (List.nodup_cons.mp unlocked.nodup).2
  sorted := (List.pairwise_cons.mp unlocked.sorted).2

theorem Unlocked.drained {ready : List (Time × Nat)} (unlocked : setup.Unlocked h ready) :
    setup.Unlocked (.drained now :: h) ready where
  mem := by
    intro due row
    rw [unlocked.mem]
    simp only [released_drained, List.mem_cons, reduceCtorEq, false_or]
  nodup := unlocked.nodup
  sorted := unlocked.sorted

/-- What a turn of the drain loop does: a row that may enter enters, or nothing is left
that could. -/
def Turn (setup : ReplaySetup) (h : List ReplayEvent) (now : Time) :
    Option (Nat × Time) × ReplayScheduler → Prop
  | (some (row, stamp), scheduler) =>
    setup.Enters h row now stamp ∧ setup.Tracked (.release row now stamp :: h) scheduler
  | (none, scheduler) => setup.Drains h now ∧ setup.Tracked (.drained now :: h) scheduler

section turn

variable {scheduler : ReplayScheduler}

theorem chains_spec (hdependency : setup.dependency = .chained) {successor : List (Option Nat)}
    {hasPredecessor : List Bool}
    (hchains : (successor, hasPredecessor) = buildChains setup.trace.releases) :
    (∀ row next, successor.getD row none = some next ↔ Follows setup.sessionOf row next) ∧
    ∀ row, hasPredecessor.getD row false = true ↔
      ∃ previous, Follows setup.sessionOf previous row := by
  have hspec := buildChains_spec setup.trace.releases
  rw [← hchains, ← sessionOf_chained hdependency] at hspec
  exact hspec

theorem book_head {h' : List ReplayEvent} (tracks : setup.Tracks h' scheduler.dependency)
    (hhead : setup.IsHead row) (release : ReleaseMetadata) :
    scheduler.book release row stamp = (some (row, stamp),
          { scheduler with active := scheduler.active.onRelease release false }) := by
  unfold ReplayScheduler.book
  cases hstate : scheduler.dependency with
  | independent cursor => rfl
  | chained successor hasPredecessor cursor ready =>
    rw [hstate] at tracks
    obtain ⟨hdependency, hchains, -⟩ := tracks
    have hpredecessor : hasPredecessor.getD row false = false := by
      rw [← Bool.not_eq_true, (chains_spec hdependency hchains).2]
      rintro ⟨previous, hfollows⟩
      exact hhead previous hfollows
    simp only [hpredecessor]

theorem book_round {h' : List ReplayEvent} (tracks : setup.Tracks h' scheduler.dependency)
    (hdependency : setup.dependency = .chained) {previous : Nat}
    (hfollows : Follows setup.sessionOf previous row) (release : ReleaseMetadata) :
    scheduler.book release row stamp = (some (row, stamp),
          { scheduler with active := scheduler.active.onRelease release true }) := by
  unfold ReplayScheduler.book
  cases hstate : scheduler.dependency with
  | independent cursor =>
    rw [hstate] at tracks
    exact absurd (hdependency.symm.trans tracks.1) (by decide)
  | chained successor hasPredecessor cursor ready =>
    rw [hstate] at tracks
    obtain ⟨-, hchains, -⟩ := tracks
    have hpredecessor : hasPredecessor.getD row false = true :=
      ((chains_spec hdependency hchains).2 row).mpr ⟨previous, hfollows⟩
    simp only [hpredecessor]

theorem admits_iff {capacity : CapacityLimit} {units : Nat} :
    capacity.admits units = true ↔ ∀ limit ∈ capacity.maxActiveUnits, units < limit := by
  unfold CapacityLimit.admits
  cases capacity.maxActiveUnits with
  | none => simp
  | some limit => simp

theorem nextHead_spec (tracked : setup.Tracked h scheduler) (log : Log setup h)
    (hpast : ∀ earlier, .drained earlier ∈ h → earlier ≤ now)
    (hrounds : ∀ previous row done, Follows setup.sessionOf previous row →
      .complete previous done ∈ h → row ∉ released h → now < done + setup.wait previous)
    {cursor : Nat} (heads : setup.Heads h cursor)
        (hhead : cursor < setup.rows → setup.IsHead cursor)
    {moved : SessionDependencyState}
    (hmoved : ∀ stamp, setup.IsHead cursor → setup.Tracks (.release cursor now stamp :: h) moved)
    (hdrained : setup.Tracks (.drained now :: h) scheduler.dependency) :
    setup.Turn h now (scheduler.nextHead setup.trace.releases
      ((released h).length - (completed h).length) now cursor moved) := by
  obtain ⟨arrival, capacity, dependency, active, capacityBacklogged⟩ := scheduler
  obtain rfl : arrival = setup.arrival := tracked.arrival
  obtain rfl : capacity = setup.capacity := tracked.capacity
  -- a head that waits is at the cursor or behind it
  have hwaiting : ∀ row < setup.rows, setup.IsHead row → row ∉ released h → cursor ≤ row :=
    fun row hrow hhead' hnot => Nat.le_of_not_lt fun hlt => hnot ((heads row hrow hhead').mpr hlt)
  -- what is known of a flag that stands for the heads waiting at this drain
  have hflag : ∀ flag : Bool, (∀ row < setup.rows, setup.IsHead row → row ∉ released h →
      setup.Arrived row now → flag = true) →
      setup.Tracked (.drained now :: h)
        ⟨setup.arrival, setup.capacity, dependency, active, flag⟩ := by
    intro flag hflag
    refine ⟨rfl, rfl, tracked.ledger.drained, hdrained, ?_⟩
    intro earlier hearlier row hrow hhead' hnot harrived
    have hle : earlier ≤ now := by
      rcases List.mem_cons.mp hearlier with heq | hmem
      · exact (ReplayEvent.drained.inj heq).le
      · exact hpast earlier hmem
    exact hflag row hrow hhead' hnot (harrived.mono le_rfl hle)
  unfold ReplayScheduler.nextHead
  cases hrow : setup.trace.releases[cursor]? with
  | none =>
    have hend : setup.rows ≤ cursor := List.getElem?_eq_none_iff.mp hrow
    have hnone : ∀ row < setup.rows, setup.IsHead row → row ∉ released h → False := by
      intro row hlt hhead' hnot
      have := hwaiting row hlt hhead' hnot
      omega
    exact ⟨⟨hrounds, fun row hlt hhead' hnot => (hnone row hlt hhead' hnot).elim⟩,
      hflag _ fun row hlt hhead' hnot => (hnone row hlt hhead' hnot).elim⟩
  | some release =>
    have hlt : cursor < setup.rows := lt_rows_iff hrow
    simp only
    cases hdue : releaseTime setup.arrival release now with
    | none =>
      have hnone : ∀ row < setup.rows, setup.IsHead row → row ∉ released h →
          ¬setup.Arrived row now := by
        intro row hrow' hhead' hnot harrived
        obtain ⟨release', hrelease', hne⟩ := harrived.mono (hwaiting row hrow' hhead' hnot) le_rfl
        rw [hrow] at hrelease'
        obtain rfl := Option.some.inj hrelease'
        exact hne hdue
      exact ⟨⟨hrounds, fun row hrow' hhead' hnot harrived =>
          (hnone row hrow' hhead' hnot harrived).elim⟩,
        hflag _ fun row hrow' hhead' hnot harrived => (hnone row hrow' hhead' hnot harrived).elim⟩
    | some due =>
      simp only [show active.count _ = _ from tracked.ledger.count_eq log]
      split
      · next hadmits =>
        rw [admits_iff] at hadmits
        have hhead' := hhead hlt
        have honce : cursor ∉ released h := fun hmem =>
          absurd ((heads cursor hlt hhead').mp hmem) (lt_irrefl _)
        rw [book_head (hmoved now hhead') hhead']
        refine ⟨⟨hlt, honce, ?_, ?_, ?_, ?_, ?_, ?_⟩, ?_⟩
        · split
          · exact max_le (releaseTime_le hdue) le_rfl
          · exact releaseTime_le hdue
        · intro earlier hearlier hsame hsession
          exact absurd hsame (hhead'.ne_session hearlier hsession)
        · intro previous hfollows
          exact absurd hfollows (hhead' previous)
        · refine fun _ => ⟨⟨release, hrow, by rw [hdue]; nofun⟩, ?_⟩
          rintro ⟨earlier, hearlier, harrived⟩
          rw [if_pos (tracked.backlogged earlier hearlier cursor hlt hhead' honce harrived)]
          exact max_eq_right (releaseTime_le hdue)
        · intro _ release' hrelease'
          rw [hrow] at hrelease'
          obtain rfl := Option.some.inj hrelease'
          split
          · exact .inl (max_eq_right (releaseTime_le hdue))
          · exact .inr hdue
        · intro limit hlimit
          rw [activeUnits_head log honce hhead']
          exact hadmits limit hlimit
        · refine ⟨rfl, rfl, tracked.ledger.releaseHead log honce hrow, hmoved _ hhead', ?_⟩
          intro earlier hearlier row hrow' hhead'' hnot harrived
          rcases List.mem_cons.mp hearlier with heq | hearlier
          · cases heq
          · exact tracked.backlogged earlier hearlier row hrow' hhead''
              (fun hmem => hnot (List.mem_cons_of_mem _ hmem)) harrived
      · next hblocked =>
        have hlimit : ∃ limit ∈ setup.capacity.maxActiveUnits, limit ≤ setup.activeUnits h := by
          rw [admits_iff] at hblocked
          push Not at hblocked
          exact hblocked
        exact ⟨⟨hrounds, fun _ _ _ _ _ => hlimit⟩, hflag _ fun _ _ _ _ _ => rfl⟩

theorem skipRounds_spec (hasPredecessor : List Bool) (cursor : Nat) :
    hasPredecessor.getD (ReplayScheduler.skipRounds hasPredecessor cursor) false = false ∧
    ∀ row, cursor ≤ row → row < ReplayScheduler.skipRounds hasPredecessor cursor →
      hasPredecessor.getD row false = true := by
  have hprefix : ∀ flags : List Bool, flags.getD (flags.takeWhile id).length false = false ∧
      ∀ i < (flags.takeWhile id).length, flags.getD i false = true := by
    intro flags
    induction flags with
    | nil => exact ⟨rfl, nofun⟩
    | cons flag flags ih =>
      cases flag with
      | false => exact ⟨rfl, nofun⟩
      | true =>
        refine ⟨ih.1, fun i hi => ?_⟩
        cases i with
        | zero => rfl
        | succ i => exact ih.2 i (Nat.lt_of_succ_lt_succ hi)
  have hdrop : ∀ i, (hasPredecessor.drop cursor).getD i false =
      hasPredecessor.getD (cursor + i) false := by
    intro i
    rw [List.getD_eq_getElem?_getD, List.getD_eq_getElem?_getD, List.getElem?_drop]
  obtain ⟨hstop, hpassed⟩ := hprefix (hasPredecessor.drop cursor)
  unfold ReplayScheduler.skipRounds
  refine ⟨by rw [← hdrop]; exact hstop, fun row hle hlt => ?_⟩
  have hrow := hpassed (row - cursor) (by omega)
  rw [hdrop, show cursor + (row - cursor) = row by omega] at hrow
  exact hrow

theorem Heads.skipRounds {cursor : Nat} (heads : setup.Heads h cursor)
    {hasPredecessor : List Bool} (hpredecessor : ∀ row, hasPredecessor.getD row false = true ↔
      ∃ previous, Follows setup.sessionOf previous row) :
    setup.Heads h (ReplayScheduler.skipRounds hasPredecessor cursor) ∧
    setup.IsHead (ReplayScheduler.skipRounds hasPredecessor cursor) := by
  obtain ⟨hstop, hpassed⟩ := skipRounds_spec hasPredecessor cursor
  constructor
  · intro row hrow hhead
    rw [heads row hrow hhead]
    constructor
    · exact fun hlt => Nat.lt_of_lt_of_le hlt (Nat.le_add_right _ _)
    · intro hlt
      by_contra hge
      obtain ⟨previous, hfollows⟩ := (hpredecessor row).mp (hpassed row (Nat.le_of_not_lt hge) hlt)
      exact hhead previous hfollows
  · intro previous hfollows
    rw [(hpredecessor _).mpr ⟨previous, hfollows⟩] at hstop
    cases hstop

theorem nextRound_spec (tracked : setup.Tracked h scheduler) (log : Log setup h)
    (hcapped : setup.WithinCap h) {successor : List (Option Nat)} {hasPredecessor : List Bool}
    {cursor : Nat} {due : Time} {later : List (Time × Nat)}
    (hstate : scheduler.dependency = .chained successor hasPredecessor cursor ((due, row) :: later))
    (hdue : due ≤ now) {release : ReleaseMetadata}
    (hrow : setup.trace.releases[row]? = some release) :
    setup.Turn h now
      ({ scheduler with
        dependency := .chained successor hasPredecessor cursor later }.book release row now) := by
  have htracks := tracked.dependency
  rw [hstate] at htracks
  obtain ⟨hdependency, hchains, heads, unlocked⟩ := htracks
  obtain ⟨honce, previous, done, hfollows, hdone, rfl⟩ :=
    (unlocked.mem due row).mp List.mem_cons_self
  have hprevious : previous ∈ completed h := mem_completed.mpr ⟨done, hdone⟩
  have hmoved : setup.Tracks (.release row now now :: h)
      (.chained successor hasPredecessor cursor later) :=
    ⟨hdependency, hchains, heads.releaseRound hfollows, unlocked.releaseRound⟩
  rw [book_round hmoved hdependency hfollows]
  refine ⟨⟨lt_rows_iff hrow, honce, le_rfl, ?_, ?_, ?_, ?_, ?_⟩, ?_⟩
  · intro earlier hlt hsame hsession
    -- the earlier rounds completed before the one this follows was released
    rcases Nat.lt_or_eq_of_le (hfollows.le_of_lt hsame hlt) with hlt' | rfl
    · exact log.ordered previous (log.completedReleased previous hprevious) earlier hlt'
        (hsame.trans hfollows.same.symm) (by rw [hfollows.same]; exact hsession)
    · exact hprevious
  · intro previous' hfollows'
    obtain rfl := hfollows.left_unique hfollows'
    exact ⟨rfl, done, hdone, hdue⟩
  · exact fun hhead => absurd hfollows (hhead previous)
  · exact fun hhead => absurd hfollows (hhead previous)
  · intro limit hlimit
    rw [activeUnits_round log honce hfollows hprevious]
    exact hcapped limit hlimit
  · refine ⟨tracked.arrival, tracked.capacity,
      tracked.ledger.releaseRound hdependency log honce hfollows hprevious hrow, hmoved, ?_⟩
    intro earlier hearlier other hother hhead hnot harrived
    rcases List.mem_cons.mp hearlier with heq | hearlier
    · cases heq
    · exact tracked.backlogged earlier hearlier other hother hhead
        (fun hmem => hnot (List.mem_cons_of_mem _ hmem)) harrived

theorem nextReady_spec (tracked : setup.Tracked h scheduler) (log : Log setup h)
    (hcapped : setup.WithinCap h) (hpast : ∀ earlier, .drained earlier ∈ h → earlier ≤ now) :
    setup.Turn h now (scheduler.nextReady setup.trace.releases
      ((released h).length - (completed h).length) now) := by
  have htracks := tracked.dependency
  unfold ReplayScheduler.nextReady
  cases hstate : scheduler.dependency with
  | independent cursor =>
    rw [hstate] at htracks
    obtain ⟨hdependency, heads⟩ := htracks
    have hheads : ∀ row, setup.IsHead row := fun row previous hfollows =>
      hfollows.session (sessionOf_independent hdependency row)
    refine nextHead_spec tracked log hpast ?_ heads (fun _ => hheads cursor) ?_ ?_
    · exact fun previous row done hfollows => absurd hfollows (hheads row previous)
    · exact fun stamp _ => ⟨hdependency, heads.release⟩
    · rw [hstate]
      exact ⟨hdependency, heads⟩
  | chained successor hasPredecessor cursor ready =>
    rw [hstate] at htracks
    obtain ⟨hdependency, hchains, heads, unlocked⟩ := htracks
    obtain ⟨heads', hhead⟩ := heads.skipRounds (chains_spec hdependency hchains).2
    let skipped := ReplayScheduler.skipRounds hasPredecessor cursor
    -- nothing unlocked is due: the next head decides
    have hnext : (∀ entry ∈ ready, now < entry.1) →
        setup.Turn h now
          ({ scheduler with
            dependency := .chained successor hasPredecessor skipped ready }.nextHead
              setup.trace.releases ((released h).length - (completed h).length) now skipped
              (.chained successor hasPredecessor (skipped + 1) ready)) := by
      intro hlate
      have stepped : setup.Tracked h
          { scheduler with dependency := .chained successor hasPredecessor skipped ready } :=
        ⟨tracked.arrival, tracked.capacity, tracked.ledger,
          ⟨hdependency, hchains, heads', unlocked⟩, tracked.backlogged⟩
      refine nextHead_spec stepped log hpast ?_ heads' (fun _ => hhead) ?_ ?_
      · intro previous row done hfollows hdone hnot
        exact hlate _ ((unlocked.mem _ row).mpr ⟨hnot, previous, done, hfollows, hdone, rfl⟩)
      · exact fun stamp hhead' =>
          ⟨hdependency, hchains, heads'.release, unlocked.releaseHead hhead'⟩
      · exact ⟨hdependency, hchains, heads', unlocked.drained⟩
    cases ready with
    | nil => exact hnext nofun
    | cons entry later =>
      obtain ⟨due, row⟩ := entry
      by_cases hdue : due ≤ now
      · obtain ⟨-, previous, done, hfollows, -, -⟩ := (unlocked.mem due row).mp List.mem_cons_self
        obtain ⟨session, hsession⟩ := Option.ne_none_iff_exists'.mp hfollows.session
        have hrow := List.getElem?_eq_getElem (lt_rows_of_session hsession)
        simp only [if_pos hdue]
        rw [hrow]
        exact nextRound_spec tracked log hcapped hstate hdue hrow
      · simp only [if_neg hdue]
        refine hnext (List.forall_mem_cons.mpr ⟨Nat.lt_of_not_le hdue, fun entry hentry => ?_⟩)
        exact Nat.lt_of_lt_of_le (Nat.lt_of_not_le hdue)
          ((List.pairwise_cons.mp unlocked.sorted).1 entry hentry)

end turn

/-! ## A completion -/

theorem mem_pushReady {entry other : Time × Nat} {ready : List (Time × Nat)} :
    other ∈ pushReady entry ready ↔ other = entry ∨ other ∈ ready := by
  induction ready with
  | nil => exact List.mem_singleton.trans (or_iff_left (List.not_mem_nil)).symm
  | cons first ready ih =>
    unfold pushReady
    split
    · exact List.mem_cons
    · rw [List.mem_cons, ih, List.mem_cons]
      tauto

theorem pushReady_perm (entry : Time × Nat) (ready : List (Time × Nat)) :
    (pushReady entry ready).Perm (entry :: ready) := by
  induction ready with
  | nil => exact .refl _
  | cons first ready ih =>
    unfold pushReady
    split
    · exact .refl _
    · exact (ih.cons first).trans (.swap _ _ _)

theorem pairwise_pushReady {entry : Time × Nat} {ready : List (Time × Nat)}
    (hsorted : ready.Pairwise fun a b => a.1 ≤ b.1) :
    (pushReady entry ready).Pairwise fun a b => a.1 ≤ b.1 := by
  induction ready with
  | nil => exact List.pairwise_singleton _ _
  | cons first ready ih =>
    obtain ⟨hfirst, hrest⟩ := List.pairwise_cons.mp hsorted
    unfold pushReady
    split
    · next hle =>
      have hentry : entry.1 ≤ first.1 := hle.elim le_of_lt fun h => h.1.le
      refine List.pairwise_cons.mpr ⟨List.forall_mem_cons.mpr ⟨hentry, ?_⟩, hsorted⟩
      exact fun other hother => hentry.trans (hfirst other hother)
    · next hle =>
      refine List.pairwise_cons.mpr ⟨fun other hother => ?_, ih hrest⟩
      rcases mem_pushReady.mp hother with rfl | hother
      · exact le_of_not_gt fun hlt => hle (.inl hlt)
      · exact hfirst other hother

theorem Unlocked.completeLast {ready : List (Time × Nat)} (unlocked : setup.Unlocked h ready)
    (hlast : ∀ next, ¬Follows setup.sessionOf row next) :
    setup.Unlocked (.complete row now :: h) ready where
  mem := by
    intro due other
    rw [unlocked.mem]
    refine and_congr_right fun _ => ⟨?_, ?_⟩
    · rintro ⟨previous, done, hfollows, hdone, heq⟩
      exact ⟨previous, done, hfollows, List.mem_cons_of_mem _ hdone, heq⟩
    · rintro ⟨previous, done, hfollows, hdone, heq⟩
      rcases List.mem_cons.mp hdone with hsame | hdone
      · obtain ⟨rfl, -⟩ := ReplayEvent.complete.inj hsame
        exact absurd hfollows (hlast other)
      · exact ⟨previous, done, hfollows, hdone, heq⟩
  nodup := unlocked.nodup
  sorted := unlocked.sorted

theorem Unlocked.completeNext {ready : List (Time × Nat)} (unlocked : setup.Unlocked h ready)
    (log : Log setup h) (honce : row ∉ completed h) {next : Nat}
    (hfollows : Follows setup.sessionOf row next) :
    setup.Unlocked (.complete row now :: h) (pushReady (now + setup.wait row, next) ready) where
  mem := by
    intro due other
    have hmem := unlocked.mem due other
    rw [mem_pushReady, Prod.mk.injEq]
    constructor
    · rintro (⟨rfl, rfl⟩ | hready)
      · exact ⟨log.next_notMem hfollows honce, row, now, hfollows, List.mem_cons_self, rfl⟩
      · obtain ⟨hnot, previous, done, hfollows', hdone, heq⟩ := hmem.mp hready
        exact ⟨hnot, previous, done, hfollows', List.mem_cons_of_mem _ hdone, heq⟩
    · rintro ⟨hnot, previous, done, hfollows', hdone, heq⟩
      rcases List.mem_cons.mp hdone with hsame | hdone
      · obtain ⟨rfl, rfl⟩ := ReplayEvent.complete.inj hsame
        exact .inl ⟨heq, hfollows'.right_unique hfollows⟩
      · exact .inr (hmem.mpr ⟨hnot, previous, done, hfollows', hdone, heq⟩)
  nodup := by
    rw [((pushReady_perm _ _).map Prod.snd).nodup_iff, List.map_cons, List.nodup_cons]
    refine ⟨fun hnext => ?_, unlocked.nodup⟩
    obtain ⟨⟨due, other⟩, hentry, rfl⟩ := List.mem_map.mp hnext
    obtain ⟨-, previous, done, hfollows', hdone, -⟩ := (unlocked.mem due other).mp hentry
    obtain rfl := hfollows.left_unique hfollows'
    exact honce (mem_completed.mpr ⟨done, hdone⟩)
  sorted := pairwise_pushReady unlocked.sorted

theorem wait_eq {release : ReleaseMetadata} (hrow : setup.trace.releases[row]? = some release) :
    (release.session.map fun session => session.toolWaitAfter).getD 0 = setup.wait row := by
  rw [wait, hrow]
  rfl

theorem Tracked.complete {scheduler : ReplayScheduler} (tracked : setup.Tracked h scheduler)
    (log : Log setup h) (hreleased : row ∈ released h) (honce : row ∉ completed h) :
    setup.Tracked (.complete row now :: h)
      (scheduler.onCompletion setup.trace.releases row now) := by
  obtain ⟨release, hrow⟩ : ∃ release, setup.trace.releases[row]? = some release :=
    ⟨_, List.getElem?_eq_getElem (log.rows row hreleased)⟩
  have hbacklogged : ∀ earlier, .drained earlier ∈ ReplayEvent.complete row now :: h →
      ∀ row < setup.rows, setup.IsHead row → row ∉ released h → setup.Arrived row earlier →
      scheduler.capacityBacklogged = true := by
    intro earlier hearlier
    rcases List.mem_cons.mp hearlier with heq | hearlier
    · cases heq
    · exact tracked.backlogged earlier hearlier
  have htracks := tracked.dependency
  unfold ReplayScheduler.onCompletion
  rw [hrow]
  cases hstate : scheduler.dependency with
  | independent cursor =>
    rw [hstate] at htracks
    obtain ⟨hdependency, heads⟩ := htracks
    refine ⟨tracked.arrival, tracked.capacity, ?_, by rw [hstate]; exact ⟨hdependency, heads⟩,
      hbacklogged⟩
    have hledger := tracked.ledger
    cases hactive : scheduler.active with
    | requests => exact hdependency
    | sessions openSessions standaloneInFlight =>
      rw [hactive] at hledger
      exact absurd (hdependency.symm.trans hledger.1) (by decide)
  | chained successor hasPredecessor cursor ready =>
    rw [hstate] at htracks
    obtain ⟨hdependency, hchains, heads, unlocked⟩ := htracks
    have hsuccessor := (chains_spec hdependency hchains).1 row
    have hledger : setup.Ledger (.complete row now :: h) _ :=
      tracked.ledger.complete log hreleased honce (fun _ => hsuccessor) hrow
    cases hnext : successor.getD row none with
    | none =>
      simp only [hnext] at hledger ⊢
      refine ⟨tracked.arrival, tracked.capacity, hledger, ?_, hbacklogged⟩
      refine ⟨hdependency, hchains, heads, unlocked.completeLast fun next hfollows => ?_⟩
      exact absurd (hnext.symm.trans ((hsuccessor next).mpr hfollows)) nofun
    | some next =>
      simp only [hnext, wait_eq hrow] at hledger ⊢
      exact ⟨tracked.arrival, tracked.capacity, hledger,
        ⟨hdependency, hchains, heads, unlocked.completeNext log honce ((hsuccessor next).mp hnext)⟩,
        hbacklogged⟩

/-! ## Runs -/

/-- What every turn keeps: the history so far is disciplined, and the frontend is the one
of that history. -/
structure Kept (setup : ReplaySetup) (h : List ReplayEvent) (clock : Time)
    (frontend : TraceFrontend) : Prop where
  disciplined : setup.Disciplined h
  log : Log setup h
  capped : setup.WithinCap h
  past : ∀ earlier, .drained earlier ∈ h → earlier ≤ clock
  trace : frontend.trace = setup.trace
  emitted : frontend.emitted = (released h).length
  completed : frontend.completed = (completed h).length
  tracked : setup.Tracked h frontend.replayScheduler

theorem kept_start (setup : ReplaySetup) :
    setup.Kept [] 0 (ReplayRun.start setup).frontend where
  disciplined := trivial
  log := log_nil
  capped := by
    intro limit _
    have hopen : setup.openSessions [] = ∅ :=
      Finset.eq_empty_of_forall_notMem fun session hmem => by
        obtain ⟨⟨row, hrow, -⟩, -⟩ := mem_openSessions.mp hmem
        cases hrow
    rw [activeUnits, hopen]
    exact Nat.zero_le _
  past := nofun
  trace := rfl
  emitted := rfl
  completed := rfl
  tracked := by
    have hheads : setup.Heads [] 0 := fun row _ _ => ⟨nofun, nofun⟩
    show setup.Tracked [] (.new setup.arrival setup.capacity setup.dependency setup.trace.releases)
    unfold ReplayScheduler.new
    cases hdependency : setup.dependency with
    | independent => exact ⟨rfl, rfl, hdependency, ⟨hdependency, hheads⟩, nofun⟩
    | chained =>
      refine ⟨rfl, rfl, ⟨hdependency, ?_, rfl⟩, ⟨hdependency, rfl, hheads, ⟨?_, .nil, .nil⟩⟩, nofun⟩
      · symm
        refine Finset.eq_empty_of_forall_notMem fun session hmem => ?_
        obtain ⟨⟨row, hrow, -⟩, -⟩ := mem_openSessions.mp hmem
        cases hrow
      · exact fun due row => ⟨nofun, fun ⟨_, _, _, _, hdone, _⟩ => nomatch hdone⟩

theorem Enters.log {h : List ReplayEvent} (enters : setup.Enters h row now stamp)
    (log : Log setup h) : Log setup (.release row now stamp :: h) :=
  log.release enters.row_lt enters.once enters.order

theorem forall_drained_of_cons {event : ReplayEvent} {clock : Time}
    (hevent : ∀ earlier, event = .drained earlier → earlier ≤ clock)
    (hpast : ∀ earlier, .drained earlier ∈ h → earlier ≤ clock) :
    ∀ earlier, .drained earlier ∈ event :: h → earlier ≤ clock := by
  intro earlier hearlier
  rcases List.mem_cons.mp hearlier with heq | hearlier
  · exact hevent earlier heq.symm
  · exact hpast earlier hearlier

/-- What one turn of the drain loop adds to the history. -/
def turnEvent (now : Time) : Option (Nat × Time) → ReplayEvent
  | none => .drained now
  | some (row, stamp) => .release row now stamp

theorem Kept.drainOne {clock : Time} {frontend : TraceFrontend}
    (kept : setup.Kept h clock frontend) (hclock : clock ≤ now) :
    setup.Kept (turnEvent now (frontend.drainOne now).1 :: h) now (frontend.drainOne now).2 := by
  have hpast : ∀ earlier, .drained earlier ∈ h → earlier ≤ now :=
    fun earlier hearlier => (kept.past earlier hearlier).trans hclock
  have hturn := nextReady_spec kept.tracked kept.log kept.capped hpast
  rw [← kept.emitted, ← kept.completed, ← kept.trace] at hturn
  unfold TraceFrontend.drainOne TraceFrontend.inFlight
  rcases hnext : frontend.replayScheduler.nextReady frontend.trace.releases
    (frontend.emitted - frontend.completed) now with ⟨_ | ⟨row, stamp⟩, scheduler⟩
  · rw [hnext] at hturn
    obtain ⟨hdrains, tracked⟩ := hturn
    refine ⟨⟨hdrains, kept.disciplined⟩, kept.log.drained, kept.capped, ?_, kept.trace,
      kept.emitted, kept.completed, tracked⟩
    refine forall_drained_of_cons (fun earlier heq => ?_) hpast
    exact (ReplayEvent.drained.inj heq).ge
  · rw [hnext] at hturn
    obtain ⟨henters, tracked⟩ := hturn
    exact ⟨⟨henters, kept.disciplined⟩, henters.log kept.log, henters.capped,
      forall_drained_of_cons nofun hpast, kept.trace, congrArg (· + 1) kept.emitted,
      kept.completed, tracked⟩

theorem drainLoop_spec {clock : Time} {fuel : Nat} {frontend : TraceFrontend}
    (kept : setup.Kept h clock frontend) (hclock : clock ≤ now)
    (hfuel : setup.rows - (released h).length < fuel) :
    setup.Kept (.drained now :: ((TraceFrontend.drainLoop now fuel frontend).1.map fun entry =>
          ReplayEvent.release entry.1 now entry.2).reverse ++ h) now
      (TraceFrontend.drainLoop now fuel frontend).2 := by
  induction fuel generalizing h clock frontend with
  | zero => omega
  | succ fuel ih =>
    have kept' := kept.drainOne hclock
    unfold TraceFrontend.drainLoop
    rcases hnext : frontend.drainOne now with ⟨_ | ⟨row, stamp⟩, frontend'⟩
    · rw [hnext] at kept'
      exact kept'
    · rw [hnext] at kept'
      have hle := kept'.log.length_released_le
      simp only [turnEvent, released_release, List.length_cons] at hle
      have hkept := ih kept' le_rfl
          (by simp only [turnEvent, released_release, List.length_cons]; omega)
      simp only [turnEvent, List.map_cons, List.reverse_cons, List.append_assoc, List.cons_append,
        List.nil_append] at hkept ⊢
      exact hkept

theorem Kept.complete {clock : Time} {frontend : TraceFrontend}
    (kept : setup.Kept h clock frontend) (hclock : clock ≤ now) (hreleased : row ∈ released h)
    (honce : row ∉ ServingSim.completed h) :
    setup.Kept (.complete row now :: h) now (frontend.recordCompletion row now) := by
  have hcapped : setup.WithinCap (.complete row now :: h) := fun limit hlimit =>
    (activeUnits_complete_le kept.log hreleased honce).trans (kept.capped limit hlimit)
  refine ⟨⟨⟨hreleased, honce, hcapped⟩, kept.disciplined⟩, kept.log.complete hreleased honce,
    hcapped, forall_drained_of_cons nofun fun earlier hearlier =>
      (kept.past earlier hearlier).trans hclock, kept.trace, kept.emitted,
    congrArg (· + 1) kept.completed, ?_⟩
  show setup.Tracked _ (frontend.replayScheduler.onCompletion frontend.trace.releases row now)
  rw [kept.trace]
  exact kept.tracked.complete kept.log hreleased honce

theorem Kept.step {run : ReplayRun} (kept : setup.Kept run.history run.clock run.frontend)
    {op : ReplayOp} (hguard : run.Guard op) :
    setup.Kept (run.step op).history (run.step op).clock (run.step op).frontend := by
  cases op with
  | drain now =>
    have hfuel : setup.rows - (released run.history).length < run.frontend.expectedCount + 1 := by
      rw [TraceFrontend.expectedCount, kept.trace]
      show setup.rows - _ < setup.rows + 1
      omega
    exact drainLoop_spec kept hguard hfuel
  | complete request now =>
    obtain ⟨hclock, hreleased, honce⟩ := hguard
    exact kept.complete hclock hreleased honce

/-! ## The end of a run -/

theorem Drains.rounds_released (drains : setup.Drains h now)
    (hdone : ∀ row ∈ released h, row ∈ completed h)
    (hwaited : ∀ row done, .complete row done ∈ h → done + setup.wait row ≤ now)
    {first : Nat} (hfirst : first ∈ released h) :
    ∀ row, first < row → setup.sessionOf first = setup.sessionOf row →
      setup.sessionOf row ≠ none → row ∈ released h := by
  intro row
  induction row using Nat.strong_induction_on with
  | _ row ih =>
    intro hlt hsame hsession
    obtain ⟨previous, hfollows⟩ := exists_follows hlt hsame hsession
    have hprevious : previous ∈ released h := by
      rcases Nat.lt_or_eq_of_le (hfollows.le_of_lt hsame hlt) with hlt' | rfl
      · exact ih previous hfollows.lt hlt' (hsame.trans hfollows.same.symm)
          (by rw [hfollows.same]; exact hsession)
      · exact hfirst
    obtain ⟨done, hcomplete⟩ := mem_completed.mp (hdone previous hprevious)
    by_contra hnot
    have hlate := drains.rounds previous row done hfollows hcomplete hnot
    exact absurd (hwaited previous done hcomplete) (Nat.not_le.mpr hlate)

theorem Drains.activeUnits_eq_zero (drains : setup.Drains h now) (log : Log setup h)
    (hdone : ∀ row ∈ released h, row ∈ completed h)
    (hwaited : ∀ row done, .complete row done ∈ h → done + setup.wait row ≤ now) :
    setup.activeUnits h = 0 := by
  have hopen : setup.openSessions h = ∅ := by
    refine Finset.eq_empty_of_forall_notMem fun session hmem => ?_
    obtain ⟨⟨first, hfirst, hsame⟩, row, -, hsame', hnot⟩ := mem_openSessions.mp hmem
    have hsession : setup.sessionOf first = setup.sessionOf row := hsame.trans hsame'.symm
    rcases Nat.lt_trichotomy first row with hlt | rfl | hlt
    · exact hnot (hdone row (drains.rounds_released hdone hwaited hfirst row hlt hsession
        (by rw [hsame']; nofun)))
    · exact hnot (hdone first hfirst)
    · exact hnot (log.ordered first hfirst row hlt hsession.symm (by rw [hsame]; nofun))
  have hstandalone : setup.standalone h = [] :=
    List.filter_eq_nil_iff.mpr fun row hrow hkept => (of_decide_eq_true hkept).2 (hdone row hrow)
  rw [activeUnits, hopen, hstandalone]
  rfl

theorem Drains.all_released (drains : setup.Drains h now) (log : Log setup h)
    (hdone : ∀ row ∈ released h, row ∈ completed h)
    (harrived : ∀ row < setup.rows, setup.Arrived row now)
    (hwaited : ∀ row done, .complete row done ∈ h → done + setup.wait row ≤ now) :
    ∀ row < setup.rows, row ∈ released h := by
  have hheads : ∀ row < setup.rows, setup.IsHead row → row ∈ released h := by
    intro row hrow hhead
    by_contra hnot
    obtain ⟨limit, hlimit, hle⟩ := drains.heads row hrow hhead hnot (harrived row hrow)
    have hpositive := setup.capacity.positive limit hlimit
    rw [drains.activeUnits_eq_zero log hdone hwaited] at hle
    omega
  intro row
  induction row using Nat.strong_induction_on with
  | _ row ih =>
    intro hrow
    by_cases hhead : setup.IsHead row
    · exact hheads row hrow hhead
    · obtain ⟨previous, hfollows⟩ := not_forall_not.mp hhead
      have hprevious := ih previous hfollows.lt (hfollows.lt.trans hrow)
      exact drains.rounds_released hdone hwaited hprevious row hfollows.lt hfollows.same
        hfollows.session

end ReplaySetup

/-- Every event of a replay is allowed by the discipline. When a drain finds every released
row completed, every row arrived and every tool wait over, each row has been released
exactly once. -/
theorem replay_discipline (setup : ReplaySetup) (ops : List ReplayOp)
    (hallowed : Run.Allowed ReplayRun.step ReplayRun.Guard (.start setup) ops) :
    let h := (Run.run ReplayRun.step (.start setup) ops).history
    setup.Disciplined h ∧ (released h).Nodup ∧
      ∀ now h', h = .drained now :: h' → (∀ row ∈ released h, row ∈ completed h) →
        (∀ row < setup.rows, setup.Arrived row now) →
        (∀ row done, .complete row done ∈ h → done + setup.wait row ≤ now) →
        (released h).Perm (List.range setup.rows) := by
  have kept := Run.invariant
    (fun run : ReplayRun => setup.Kept run.history run.clock run.frontend)
    (fun _ _ kept hguard => kept.step hguard) (ReplaySetup.kept_start setup) hallowed
  refine ⟨kept.disciplined, kept.log.nodup, fun now h' heq hdone harrived hwaited => ?_⟩
  have hlast := kept.disciplined
  have log := kept.log
  rw [heq] at hlast log hdone hwaited ⊢
  have hall := hlast.1.all_released log.undrained hdone harrived
    fun row done hmem => hwaited row done (List.mem_cons_of_mem _ hmem)
  refine (List.perm_ext_iff_of_nodup log.nodup List.nodup_range).mpr fun row => ?_
  rw [List.mem_range]
  exact ⟨log.rows row, hall row⟩

/-- A conversation of two rounds and a row of its own, one unit at a time. -/
def twoUnits : ReplaySetup where
  trace := ⟨[⟨0, some ⟨7, 5⟩⟩, ⟨0, some ⟨7, 0⟩⟩, ⟨0, none⟩], by simp⟩
  arrival := ⟨.saturated, 1, nofun⟩
  capacity := ⟨some 1, by simp⟩
  dependency := .chained

def twoUnitsOps : List ReplayOp :=
  [.drain 0, .complete 0 10, .drain 12, .drain 15, .complete 1 20, .drain 20, .complete 2 30,
    .drain 30]

/-- The second round waits for the tool, the last row for the conversation's slot. -/
theorem replay_discipline_units :
    let h := (Run.run ReplayRun.step (.start twoUnits) twoUnitsOps).history
    h = [.drained 30, .complete 2 30, .drained 20, .release 2 20 20, .complete 1 20, .drained 15,
      .release 1 15 15, .drained 12, .complete 0 10, .drained 0, .release 0 0 0] ∧
    twoUnits.Disciplined h ∧ (released h).Perm (List.range twoUnits.rows) := by
  have hrun : (Run.run ReplayRun.step (.start twoUnits) twoUnitsOps).history =
      [.drained 30, .complete 2 30, .drained 20, .release 2 20 20, .complete 1 20, .drained 15,
        .release 1 15 15, .drained 12, .complete 0 10, .drained 0, .release 0 0 0] := by
    decide +kernel
  obtain ⟨hdisciplined, -, hall⟩ := replay_discipline twoUnits twoUnitsOps (by decide +kernel)
  refine ⟨hrun, hdisciplined, hall 30 _ hrun ?_ (by decide) ?_⟩
  · rw [hrun]
    decide
  · rw [hrun]
    intro row done hmem
    have hcases : (row, done) ∈ [(2, 30), (1, 20), (0, 10)] := by simpa using hmem
    have hwaits : ∀ entry ∈ [(2, 30), (1, 20), (0, 10)], entry.2 + twoUnits.wait entry.1 ≤ 30 := by
      decide
    exact hwaits _ hcases

end ServingSim
