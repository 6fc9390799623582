import Mathlib.Data.List.ReduceOption
import Mathlib.Data.Set.Card
import ServingSim.Analyzer.WindowSweep
import ServingSim.Lib.Run

/-
  The races of the barrier path measure real busy time.

  What one segment and one barrier add to the path is read off their code once, as
  `Raced` and `Passed`; the tiling's results follow from these along the runs. A rank is
  busy where one of its launches runs, from the launch's first instant outside every
  collective of its own device and stream on.

  What is proved:
    1. `segment_races` — in every segment the times reported are the ranks' busy times,
       the winner has the largest, and the path is charged for the winners' sweeps: what
       they were busy with, and what they hide, charged to launches that cover it.
-/

namespace ServingSim

open IntervalUnion

/-! ## Shares -/

theorem bump_eq_ok {l l' : List Nat} {i n : Nat} (h : bump l i n = .ok l') :
    l'.length = l.length ∧ l'.sum = l.sum + n := by
  have hindex := h
  simp only [bump, bind_eq_ok_iff] at hindex
  obtain ⟨value, hvalue, -⟩ := hindex
  obtain ⟨hi, -⟩ := List.getElem?_eq_some_iff.mp (index_eq_ok_iff.mp hvalue)
  obtain ⟨l'', hbump, hlength, hsum, -⟩ := bump_spec n hi
  obtain rfl := Except.ok.inj (h.symm.trans hbump)
  exact ⟨hlength, hsum⟩

theorem chargePositions_spec {out out' : List Nat} {shares : List (Nat × Nat)}
    (h : chargePositions out shares = .ok out') :
    out'.length = out.length ∧ out'.sum = out.sum + (shares.map Prod.snd).sum := by
  induction shares generalizing out with
  | nil =>
    obtain rfl := Except.ok.inj h
    exact ⟨rfl, rfl⟩
  | cons share shares ih =>
    rw [chargePositions, List.foldlM_cons, bind_eq_ok_iff] at h
    obtain ⟨middle, hmiddle, hrest⟩ := h
    obtain ⟨hlength, hsum⟩ := bump_eq_ok hmiddle
    obtain ⟨hlength', hsum'⟩ := ih hrest
    refine ⟨hlength'.trans hlength, ?_⟩
    rw [hsum', hsum, List.map_cons, List.sum_cons, Nat.add_assoc]

theorem sum_even_shares {K : Type} (keys : List K) (share extra : Nat) :
    ((keys.zipIdx.map fun key => (key.1, share + if key.2 < extra then 1 else 0)).map
      Prod.snd).sum = share * keys.length + min extra keys.length := by
  rw [List.map_map]
  induction keys using List.reverseRecOn with
  | nil => simp
  | append_singleton keys key ih =>
    rw [List.zipIdx_append, List.map_append, List.sum_append, ih]
    simp only [List.zipIdx_cons, List.zipIdx_nil, List.map_cons, List.map_nil, List.sum_cons,
      List.sum_nil, Function.comp, List.length_append, List.length_cons, List.length_nil]
    split <;> rw [Nat.mul_add] <;> omega

theorem splitByWeight_sum {K : Type} [LinearOrder K] {total : Nat} {keys : List K}
    {weights : List (K × Nat)} {shares : List (K × Nat)}
    (h : splitByWeight total keys weights = .ok shares) : (shares.map Prod.snd).sum = total := by
  simp only [splitByWeight] at h
  split at h
  · rw [check_then_eq_ok_iff, ensure_eq_ok_iff] at h
    obtain ⟨hne, h⟩ := h
    obtain rfl := Except.ok.inj h
    have hlt := Nat.mod_lt total (Nat.pos_of_ne_zero hne)
    have hdiv := Nat.div_add_mod total keys.length
    rw [sum_even_shares, Nat.mul_comm, Nat.min_eq_left hlt.le, hdiv]
  · simp only [bind_eq_ok_iff, checkedSub_eq_ok_iff] at h
    obtain ⟨last, -, rest, ⟨hle, rfl⟩, h⟩ := h
    obtain rfl := Except.ok.inj h
    rw [List.map_append, List.sum_append]
    simp only [List.map_cons, List.map_nil, List.sum_cons, List.sum_nil]
    omega

/-! ## A segment -/

/-- What the winner was busy with; nothing where no rank raced. -/
def wonBy (winner : Option Int) (attributed : List (Int × Attribution)) : Attribution :=
  (winner.bind fun device => attributed.lookup device).getD {}

/-- A segment as it was raced. -/
structure Race (ranks : List (Int × RankLaunches)) (segment : Segment)
    (attributed : List (Int × Attribution)) : Prop where
  le : segment.startNs ≤ segment.endNs
  busy : segment.busyNsByDevice = attributed.map fun e => (e.1, e.2.unionNs)
  winner : segment.winner = Grouped.firstMax segment.busyNsByDevice
  attributed : List.Forall₂ (fun rank e => rank.1 = e.1 ∧
    attributeWindow (rank.2.window segment.startNs segment.endNs) segment.startNs segment.endNs =
      .ok e.2) ranks attributed

/-- What the winner of a segment is charged for. -/
structure WinnerCharged (path path' : BarrierPath) (won : Attribution) : Prop where
  barriers : path'.barriers = path.barriers
  wall : path'.wallNs = path.wallNs
  collective : path'.collectiveNs = path.collectiveNs
  criticalBusy : path'.criticalBusyNs = path.criticalBusyNs + won.unionNs
  onPath : path'.onPathKernelSumNs = path.onPathKernelSumNs + (won.clipped.map Prod.snd).sum
  sameStream : path'.hiddenSameStreamNs = path.hiddenSameStreamNs + won.hiddenSameStreamNs
  crossStream : path'.hiddenCrossStreamNs = path.hiddenCrossStreamNs + won.hiddenCrossStreamNs
  kernelCritical : path'.kernelCriticalNs.length = path.kernelCriticalNs.length ∧
    path'.kernelCriticalNs.sum = path.kernelCriticalNs.sum + (won.slices.map Prod.snd).sum
  kernelOnPath : path'.kernelOnPathNs.length = path.kernelOnPathNs.length ∧
    path'.kernelOnPathNs.sum = path.kernelOnPathNs.sum + (won.clipped.map Prod.snd).sum

/-- What a segment adds to the path. -/
structure Raced (path path' : BarrierPath) (segment : Segment) (won : Attribution) : Prop where
  charged : WinnerCharged path path' won
  segments : path'.segments = path.segments ++ [segment]
  accounted : path'.idleNs + won.unionNs = path.idleNs + segment.windowNs

section segment

variable {path : BarrierPath} {lo hi : Nat}

theorem winnerIdle_spec {won : Attribution} {swept : List RankLaunch} {idle : Nat × Nat}
    (hswept : Swept swept won) (h : winnerIdle lo hi won = .ok idle) :
    won.unionNs + (idle.1 + idle.2) = hi - lo := by
  unfold winnerIdle at h
  split at h
  · simp only [bind_eq_ok_iff, checkedSub_eq_ok_iff] at h
    obtain ⟨before, ⟨hbefore, rfl⟩, after, ⟨hafter, rfl⟩, span, ⟨hspan, rfl⟩, internal,
      ⟨hinternal, rfl⟩, h⟩ := h
    obtain rfl := Except.ok.inj h
    show won.unionNs + (_ + _) = hi - lo
    omega
  · next hnone =>
    -- without a first start nothing was swept
    simp only [bind_eq_ok_iff, checkedSub_eq_ok_iff] at h
    obtain ⟨window, ⟨-, rfl⟩, h⟩ := h
    obtain rfl := Except.ok.inj h
    have hnil : swept = [] := by
      cases swept with
      | nil => rfl
      | cons first rest => exact absurd hswept.last (hnone _ _ hswept.first)
    have hunion := hswept.union
    rw [hnil] at hunion
    rw [hunion]
    show 0 + (0 + (hi - lo)) = hi - lo
    omega

theorem chargeWinner_spec {device : Int} {won : Attribution} {charged : BarrierPath}
    (h : chargeWinner path device won = .ok charged) :
    WinnerCharged path charged won ∧ charged.segments = path.segments ∧
      charged.idleInternalNs = path.idleInternalNs ∧
      charged.idleBoundaryNs = path.idleBoundaryNs := by
  simp only [chargeWinner, bind_eq_ok_iff] at h
  obtain ⟨critical, hcritical, onPath, honPath, h⟩ := h
  obtain rfl := Except.ok.inj h
  exact ⟨⟨rfl, rfl, rfl, rfl, rfl, rfl, rfl, chargePositions_spec hcritical,
    chargePositions_spec honPath⟩, rfl, rfl, rfl⟩

theorem chargeRace_spec {attributed : List (Int × Attribution)} {winner : Option Int}
    {charged : BarrierPath × Nat × Nat}
    (hswept : ∀ e ∈ attributed, ∃ swept, Swept swept e.2)
    (h : chargeRace path attributed winner lo hi (hi - lo) = .ok charged) :
    WinnerCharged path charged.1 (wonBy winner attributed) ∧ charged.1.segments = path.segments ∧
      charged.1.idleInternalNs = path.idleInternalNs ∧
      charged.1.idleBoundaryNs = path.idleBoundaryNs ∧
      (wonBy winner attributed).unionNs + (charged.2.1 + charged.2.2) = hi - lo := by
  cases winner with
  | none =>
    obtain rfl := Except.ok.inj h
    refine ⟨⟨rfl, rfl, rfl, rfl, rfl, rfl, rfl, ⟨rfl, rfl⟩, rfl, rfl⟩, rfl, rfl, rfl, ?_⟩
    show 0 + (0 + (hi - lo)) = hi - lo
    omega
  | some device =>
    simp only [chargeRace, bind_eq_ok_iff, required_eq_ok_iff] at h
    obtain ⟨won, hwon, path', hpath', idle, hidle, h⟩ := h
    obtain rfl := Except.ok.inj h
    have hwinner : wonBy (some device) attributed = won := by
      show (attributed.lookup device).getD {} = won
      rw [hwon, Option.getD_some]
    obtain ⟨before, after, hsplit, -⟩ := List.lookup_eq_some_iff.mp hwon
    obtain ⟨swept, hsweep⟩ := hswept (device, won)
      (hsplit ▸ List.mem_append_right _ List.mem_cons_self)
    obtain ⟨hcharged, hsegments, hinternal, hboundary⟩ := chargeWinner_spec hpath'
    rw [hwinner]
    exact ⟨hcharged, hsegments, hinternal, hboundary, winnerIdle_spec hsweep hidle⟩

theorem exists_swept {ranks : List (Int × RankLaunches)} {attributed : List (Int × Attribution)}
    (h : List.Forall₂ (fun rank e => rank.1 = e.1 ∧
      attributeWindow (rank.2.window lo hi) lo hi = .ok e.2) ranks attributed) :
    ∀ e ∈ attributed, ∃ rank ∈ ranks, rank.1 = e.1 ∧
      Swept (clippedTo (rank.2.window lo hi) lo hi) e.2 := by
  induction h with
  | nil => exact fun _ hmem => (List.not_mem_nil hmem).elim
  | cons hfirst hrest ih =>
    intro e hmem
    rcases List.mem_cons.mp hmem with rfl | hmem
    · obtain ⟨out, hout, hswept⟩ := attributeWindow_spec (RankLaunches.window _ lo hi) lo hi
      obtain rfl := Except.ok.inj (hout.symm.trans hfirst.2)
      exact ⟨_, List.mem_cons_self, hfirst.1, hswept⟩
    · obtain ⟨rank, hrank, h⟩ := ih e hmem
      exact ⟨rank, List.mem_cons_of_mem _ hrank, h⟩

/-- Where a segment ends: at the last arrival at the next barrier, or at the end. -/
def PathTiling.enters (t : PathTiling) (run : Option Run) : Except String Nat :=
  run.elim (.ok t.tEnd) fun run => latest run.firstStart

theorem PathTiling.raceSegment_spec {t : PathTiling} {run : Option Run} {raced : BarrierPath × Nat}
    (h : t.raceSegment path lo run = .ok raced) :
    ∃ enter segment attributed, t.enters run = .ok enter ∧ raced.2 = max lo enter ∧
      segment.startNs = lo ∧ segment.endNs = raced.2 ∧ Race t.ranks segment attributed ∧
      Raced path raced.1 segment (wonBy segment.winner attributed) := by
  simp only [PathTiling.raceSegment, bind_eq_ok_iff, checkedSub_eq_ok_iff] at h
  obtain ⟨enter, henter, attributed, hattributed, windowNs, ⟨hle, rfl⟩, charged, hcharged,
    gapNs, -, h⟩ := h
  obtain rfl := Except.ok.inj h
  have hall : List.Forall₂ (fun (rank : Int × RankLaunches) (e : Int × Attribution) =>
      rank.1 = e.1 ∧ attributeWindow (rank.2.window lo (max lo enter)) lo (max lo enter) =
        .ok e.2) t.ranks attributed := by
    refine (mapM_eq_ok_iff.mp hattributed).imp fun rank e he => ?_
    obtain ⟨attribution, hattribution, he⟩ := bind_eq_ok_iff.mp he
    obtain rfl := Except.ok.inj he
    exact ⟨rfl, hattribution⟩
  have hswept : ∀ e ∈ attributed, ∃ swept, Swept swept e.2 := by
    intro e hmem
    obtain ⟨rank, -, -, hswept⟩ := exists_swept hall e hmem
    exact ⟨_, hswept⟩
  obtain ⟨hwon, hsegments, hinternal, hboundary, hidle⟩ := chargeRace_spec hswept hcharged
  refine ⟨enter, ?segment, attributed, henter, rfl, ?starts, ?ends, ?race,
    ⟨?charged, ?segments, ?accounted⟩⟩
  case segments =>
    show charged.1.segments ++ [_] = _
    rw [hsegments]
  case starts => rfl
  case ends => rfl
  case race => exact ⟨hle, rfl, rfl, hall⟩
  case charged =>
    exact ⟨hwon.barriers, hwon.wall, hwon.collective, hwon.criticalBusy, hwon.onPath,
      hwon.sameStream, hwon.crossStream, hwon.kernelCritical, hwon.kernelOnPath⟩
  case accounted =>
    simp only [BarrierPath.idleNs, Segment.windowNs]
    omega

end segment

/-! ## A barrier -/

/-- What a barrier adds to the path. -/
structure Passed (path path' : BarrierPath) (barrier : Barrier) : Prop where
  barriers : path'.barriers = path.barriers ++ [barrier]
  segments : path'.segments = path.segments
  wall : path'.wallNs = path.wallNs
  collective : path'.collectiveNs = path.collectiveNs + barrier.netNs
  criticalBusy : path'.criticalBusyNs = path.criticalBusyNs
  idle : path'.idleNs = path.idleNs
  onPath : path'.onPathKernelSumNs = path.onPathKernelSumNs
  sameStream : path'.hiddenSameStreamNs = path.hiddenSameStreamNs
  crossStream : path'.hiddenCrossStreamNs = path.hiddenCrossStreamNs
  kernelCritical : path'.kernelCriticalNs.length = path.kernelCriticalNs.length ∧
    path'.kernelCriticalNs.sum = path.kernelCriticalNs.sum + barrier.netNs
  kernelOnPath : path'.kernelOnPathNs = path.kernelOnPathNs

section barrier

variable {m : IterationMeasurement} {run : Run}

theorem operationShares_sum {netNs : Nat} {shares : List (String × Nat)}
    (h : operationShares m run netNs = .ok shares) : (shares.map Prod.snd).sum = netNs := by
  unfold operationShares at h
  split at h
  · obtain rfl := Except.ok.inj h
    simp
  · exact splitByWeight_sum h

theorem chargeBarrier_spec {netNs : Nat} {critical critical' : List Nat}
    (h : chargeBarrier m run netNs critical = .ok critical') :
    critical'.length = critical.length ∧ critical'.sum = critical.sum + netNs := by
  simp only [chargeBarrier, bind_eq_ok_iff] at h
  obtain ⟨operationShares, hshares, h⟩ := h
  have hnet := operationShares_sum hshares
  rw [← hnet]
  clear hshares hnet
  induction operationShares generalizing critical with
  | nil =>
    obtain rfl := Except.ok.inj h
    exact ⟨rfl, rfl⟩
  | cons operationShare operationShares ih =>
    simp only [List.foldlM_cons, bind_eq_ok_iff] at h
    obtain ⟨middle, ⟨shares, hsplit, hcharged⟩, hrest⟩ := h
    obtain ⟨hlength, hsum⟩ := chargePositions_spec hcharged
    obtain ⟨hlength', hsum'⟩ := ih (by simpa only [bind_eq_ok_iff] using hrest)
    refine ⟨hlength'.trans hlength, ?_⟩
    rw [hsum', hsum, splitByWeight_sum hsplit, List.map_cons, List.sum_cons, Nat.add_assoc]

theorem PathTiling.passBarrier_spec {t : PathTiling} {path : BarrierPath} {hi : Nat}
    {passed : BarrierPath × Nat} (h : t.passBarrier path hi run = .ok passed) :
    ∃ barrier, latest run.lastEnd = .ok barrier.exitNs ∧ barrier.netNs = barrier.exitNs - hi ∧
      passed.2 = max hi barrier.exitNs ∧ Passed path passed.1 barrier := by
  simp only [PathTiling.passBarrier, bind_eq_ok_iff, checkedSub_eq_ok_iff] at h
  obtain ⟨enter, -, exit, hexit, arrival, -, skew, -, lastExit, -, critical, hcritical, h⟩ := h
  obtain rfl := Except.ok.inj h
  refine ⟨?barrier, ?exits, ?net, ?cursor, ⟨?barriers, rfl, rfl, ?collective, rfl, rfl, rfl, rfl,
    rfl, ?critical, rfl⟩⟩
  case barriers => rfl
  case exits => exact hexit
  case net => rfl
  case cursor => rfl
  case collective => rfl
  case critical => exact chargeBarrier_spec hcritical

end barrier

/-! ## Busy time -/

namespace IterationMeasurement

variable (m : IterationMeasurement)

/-- An instant inside a collective of a device and stream. -/
def Inside (device : Int) (stream : Bool × Nat) (x : Nat) : Prop :=
  ∃ kernel ∈ m.kernels, kernel.synchronizing = true ∧ ∃ launch ∈ kernel.launches,
    launch.deviceId = device ∧ streamKey launch = stream ∧ launch.startNs ≤ x ∧ x < launch.endNs

/-- The first instant from a start on that is outside every collective of the device and
stream. -/
def FirstFree (device : Int) (stream : Bool × Nat) (startNs free : Nat) : Prop :=
  IsLeast {x | startNs ≤ x ∧ ¬m.Inside device stream x} free

/-- What is left of a non-collective launch of a device without its wait. -/
def Left (device : Int) (left : RankLaunch) : Prop :=
  ∃ kernel launch, m.kernels[left.position]? = some kernel ∧ kernel.synchronizing = false ∧
    launch ∈ kernel.launches ∧ launch.deviceId = device ∧
    m.FirstFree device (streamKey launch) launch.startNs left.startNs ∧
    left.startNs < launch.endNs ∧ left.endNs = launch.endNs ∧
    left.trackIndex = launch.trackIndex ∧ left.stream = streamKey launch

/-- A rank is busy where a non-collective launch of it runs and no longer waits. -/
def Busy (device : Int) (x : Nat) : Prop :=
  ∃ left, m.Left device left ∧ left.startNs ≤ x ∧ x < left.endNs

/-- A rank's busy time in a window. -/
noncomputable def busyTime (device : Int) (lo hi : Nat) : Nat :=
  ({x | lo ≤ x ∧ x < hi ∧ m.Busy device x} : Set Nat).ncard

variable {m}

theorem mem_cover_collectivesOn {device : Int} {stream : Bool × Nat} {x : Nat} :
    x ∈ cover (m.collectivesOn device stream) ↔ m.Inside device stream x := by
  simp only [mem_cover, collectivesOn, List.mem_insertionSort, List.mem_map, List.mem_filter,
    List.mem_flatMap, decide_eq_true_eq, Inside]
  constructor
  · rintro ⟨_, ⟨launch, ⟨⟨kernel, ⟨hkernel, hsync⟩, hlaunch⟩, hdevice, hstream⟩, rfl⟩, hx⟩
    exact ⟨kernel, hkernel, hsync, launch, hlaunch, hdevice, hstream, hx⟩
  · rintro ⟨kernel, hkernel, hsync, launch, hlaunch, hdevice, hstream, hx⟩
    exact ⟨_, ⟨launch, ⟨⟨kernel, ⟨hkernel, hsync⟩, hlaunch⟩, hdevice, hstream⟩, rfl⟩, hx⟩

theorem trimmed_firstFree (m : IterationMeasurement) (device : Int) (stream : Bool × Nat)
    (startNs : Nat) : ∃ free, pdlTrimmedStart (m.collectivesOn device stream) startNs = .ok free ∧
      m.FirstFree device stream startNs free := by
  have hsorted : (m.collectivesOn device stream).Pairwise fun a b => a.1 ≤ b.1 := by
    refine (List.pairwise_insertionSort (fun a b : Nat × Nat => toLex a ≤ toLex b) _).imp ?_
    intro a b hab
    exact Prod.Lex.monotone_fst _ _ hab
  obtain ⟨free, hfree, hleast⟩ := pdlTrimmedStart_spec hsorted startNs
  simp only [mem_cover_collectivesOn] at hleast
  exact ⟨free, hfree, hleast⟩

theorem mem_rawLaunches {device : Int} {raw : RankLaunch} :
    (device, raw) ∈ m.rawLaunches ↔ ∃ kernel launch, m.kernels[raw.position]? = some kernel ∧
      kernel.synchronizing = false ∧ launch ∈ kernel.launches ∧ launch.deviceId = device ∧
      raw = ⟨launch.startNs, launch.endNs, launch.trackIndex, raw.position, streamKey launch⟩ := by
  simp only [rawLaunches, List.mem_flatMap]
  constructor
  · rintro ⟨e, he, hmem⟩
    split at hmem
    · exact (List.not_mem_nil hmem).elim
    · next hsync =>
      obtain ⟨launch, hlaunch, heq⟩ := List.mem_map.mp hmem
      obtain ⟨rfl, rfl⟩ := Prod.mk.inj heq
      exact ⟨e.1, launch, List.mk_mem_zipIdx_iff_getElem?.mp he, by simpa using hsync, hlaunch,
        rfl, rfl⟩
  · rintro ⟨kernel, launch, hkernel, hsync, hlaunch, rfl, hraw⟩
    refine ⟨(kernel, raw.position), List.mk_mem_zipIdx_iff_getElem?.mpr hkernel, ?_⟩
    rw [if_neg (by simp [hsync])]
    exact List.mem_map.mpr ⟨launch, hlaunch, Prod.ext rfl hraw.symm⟩

theorem trimLaunch_spec {raw : Int × RankLaunch} {trimmed : Option (Int × RankLaunch) × Nat}
    (h : m.trimLaunch raw = .ok trimmed) :
    ∃ free, m.FirstFree raw.1 raw.2.stream raw.2.startNs free ∧
      trimmed.1 = if free < raw.2.endNs then some (raw.1, { raw.2 with startNs := free })
        else none := by
  simp only [trimLaunch, bind_eq_ok_iff] at h
  obtain ⟨free, hfree, h⟩ := h
  obtain ⟨free', hfree', hleast⟩ := m.trimmed_firstFree raw.1 raw.2.stream raw.2.startNs
  obtain rfl := Except.ok.inj (hfree'.symm.trans hfree)
  refine ⟨free', hleast, ?_⟩
  split at h
  · next hge =>
    obtain ⟨wait, -, h⟩ := bind_eq_ok_iff.mp h
    obtain rfl := Except.ok.inj h
    rw [if_neg (Nat.not_lt.mpr hge)]
  · next hlt =>
    obtain ⟨wait, -, h⟩ := bind_eq_ok_iff.mp h
    obtain rfl := Except.ok.inj h
    rw [if_pos (Nat.lt_of_not_le hlt)]

theorem mem_trimmed {trimmed : List (Option (Int × RankLaunch) × Nat)}
    (h : m.rawLaunches.mapM m.trimLaunch = .ok trimmed) {device : Int} {left : RankLaunch} :
    (device, left) ∈ (trimmed.map Prod.fst).reduceOption ↔ m.Left device left := by
  rw [List.reduceOption_mem_iff, List.mem_map]
  constructor
  · rintro ⟨e, he, hleft⟩
    obtain ⟨raw, hraw, htrim⟩ := exists_mem_of_mapM h he
    obtain ⟨free, hfree, hkept⟩ := trimLaunch_spec htrim
    rw [hleft] at hkept
    split at hkept
    · next hlt =>
      obtain ⟨rfl, rfl⟩ := Prod.mk.inj (Option.some.inj hkept)
      obtain ⟨kernel, launch, hkernel, hsync, hlaunch, hdevice, heq⟩ := mem_rawLaunches.mp hraw
      rw [heq] at hfree hlt ⊢
      exact ⟨kernel, launch, hkernel, hsync, hlaunch, hdevice, hfree, hlt, rfl, rfl, rfl⟩
    · cases hkept
  · rintro ⟨kernel, launch, hkernel, hsync, hlaunch, rfl, hfree, hlt, hend, htrack, hstream⟩
    have hraw : (launch.deviceId, (⟨launch.startNs, launch.endNs, launch.trackIndex,
        left.position, streamKey launch⟩ : RankLaunch)) ∈ m.rawLaunches :=
      mem_rawLaunches.mpr ⟨kernel, launch, hkernel, hsync, hlaunch, rfl, rfl⟩
    obtain ⟨e, he⟩ := exists_ok_of_mapM h hraw
    obtain ⟨free, hfree', hkept⟩ := trimLaunch_spec he
    obtain rfl : left.startNs = free := IsLeast.unique hfree hfree'
    refine ⟨e, mem_of_mapM h hraw he, ?_⟩
    rw [hkept, if_pos hlt]
    cases left
    simp_all

/-- The ranks that race: each device with something left, and all that is left of it. -/
structure Ranks (m : IterationMeasurement) (ranks : List (Int × RankLaunches)) : Prop where
  ascending : (ranks.map Prod.fst).Pairwise (· < ·)
  launches : ∀ rank ∈ ranks, ∃ launches, rank.2 = .new launches ∧
    ∀ left, left ∈ launches ↔ m.Left rank.1 left
  mem_iff : ∀ device, device ∈ ranks.map Prod.fst ↔ ∃ left, m.Left device left

theorem ranks_of_mem {launches : List (Int × RankLaunch)}
    (h : ∀ device left, (device, left) ∈ launches ↔ m.Left device left) :
    m.Ranks (rankLaunches launches) := by
  have hkeys : (rankLaunches launches).map Prod.fst = Grouped.keys Prod.fst launches := by
    rw [← Grouped.group_keys, rankLaunches, List.map_map]
    rfl
  refine ⟨hkeys ▸ Grouped.keys_ascending launches, fun rank hrank => ?_, fun device => ?_⟩
  · obtain ⟨g, hg, rfl⟩ := List.mem_map.mp hrank
    refine ⟨_, rfl, fun left => ?_⟩
    rw [(Grouped.mem_group hg).2, ← h, List.mem_map]
    constructor
    · rintro ⟨e, he, rfl⟩
      obtain ⟨hmem, hkey⟩ := List.mem_filter.mp he
      rw [← of_decide_eq_true hkey]
      exact hmem
    · intro hmem
      exact ⟨(g.1, left), List.mem_filter.mpr ⟨hmem, decide_eq_true rfl⟩, rfl⟩
  · rw [hkeys, Grouped.mem_keys]
    constructor
    · rintro ⟨e, he, rfl⟩
      exact ⟨e.2, (h e.1 e.2).mp he⟩
    · rintro ⟨left, hleft⟩
      exact ⟨(device, left), (h device left).mpr hleft, rfl⟩

theorem tilingOf_ranks {tEnd : Nat} {tiling : PathTiling × Nat}
    (h : tilingOf m tEnd = .ok tiling) : m.Ranks tiling.1.ranks := by
  obtain ⟨trimmed, htrimmed, h⟩ := bind_eq_ok_iff.mp h
  obtain rfl := Except.ok.inj h
  exact ranks_of_mem fun _ _ => mem_trimmed htrimmed

end IterationMeasurement

/-! ## Races -/

/-- A segment's times, its winner and its sweeps, measured on the launches. -/
structure MeasuredRace (m : IterationMeasurement) (segment : Segment)
    (attributed : List (Int × Attribution)) : Prop where
  /-- The ranks reported are those with something left to race. -/
  reported : ∀ device, device ∈ segment.busyNsByDevice.map Prod.fst ↔ ∃ left, m.Left device left
  /-- The times reported are busy times, -/
  busy : ∀ e ∈ segment.busyNsByDevice, e.2 = m.busyTime e.1 segment.startNs segment.endNs
  /-- and the others have none. -/
  idle : ∀ device, device ∉ segment.busyNsByDevice.map Prod.fst →
    m.busyTime device segment.startNs segment.endNs = 0
  /-- The winner is the lowest of the ranks reported with the largest time. -/
  winner : ∀ device, segment.winner = some device → device ∈ segment.busyNsByDevice.map Prod.fst ∧
    (∀ other, m.busyTime other segment.startNs segment.endNs ≤
      m.busyTime device segment.startNs segment.endNs) ∧
    ∀ other ∈ segment.busyNsByDevice.map Prod.fst, other < device →
      m.busyTime other segment.startNs segment.endNs <
        m.busyTime device segment.startNs segment.endNs
  noWinner : segment.winner = none → segment.busyNsByDevice = []
  /-- The times are those of the attributions, one for each rank reported, -/
  times : segment.busyNsByDevice = attributed.map fun e => (e.1, e.2.unionNs)
  /-- and each attribution sweeps its rank's launches, clipped to the segment. -/
  swept : ∀ e ∈ attributed, ∃ swept, Swept swept e.2 ∧ ∀ launch, launch ∈ swept ↔
    ∃ left, m.Left e.1 left ∧ clipLaunch segment.startNs segment.endNs left = some launch

section races

variable {m : IterationMeasurement} {ranks : List (Int × RankLaunches)}
  {segment : Segment} {attributed : List (Int × Attribution)}

theorem ncard_cover_inter {launches : List RankLaunch} {device : Int}
    (h : ∀ left, left ∈ launches ↔ m.Left device left) (lo hi : Nat) :
    (cover (launches.map RankLaunch.interval) ∩ Finset.Ico lo hi).card =
      m.busyTime device lo hi := by
  rw [IterationMeasurement.busyTime, ← Set.ncard_coe_finset]
  congr 1
  ext x
  simp only [Finset.coe_inter, Finset.coe_Ico, Set.mem_inter_iff, Finset.mem_coe, mem_cover,
    List.mem_map, Set.mem_Ico, Set.mem_ofPred_eq, IterationMeasurement.Busy]
  constructor
  · rintro ⟨⟨_, ⟨left, hleft, rfl⟩, hx⟩, hlo, hhi⟩
    exact ⟨hlo, hhi, left, (h left).mp hleft, hx⟩
  · rintro ⟨hlo, hhi, left, hleft, hx⟩
    exact ⟨⟨_, ⟨left, (h left).mpr hleft, rfl⟩, hx⟩, hlo, hhi⟩

theorem busyTime_eq_zero {device : Int} (h : ¬∃ left, m.Left device left) (lo hi : Nat) :
    m.busyTime device lo hi = 0 := by
  have hcover := @ncard_cover_inter m [] device
    (fun left => ⟨fun hmem => (List.not_mem_nil hmem).elim, fun hleft => (h ⟨left, hleft⟩).elim⟩)
    lo hi
  rw [← hcover]
  simp

theorem Race.measured (hranks : m.Ranks ranks) (h : Race ranks segment attributed) :
    MeasuredRace m segment attributed := by
  have hdevices : segment.busyNsByDevice.map Prod.fst = ranks.map Prod.fst := by
    have heq : ∀ {ranks : List (Int × RankLaunches)} {attributed : List (Int × Attribution)},
        List.Forall₂ (fun rank e => rank.1 = e.1 ∧ attributeWindow
          (rank.2.window segment.startNs segment.endNs) segment.startNs segment.endNs =
            .ok e.2) ranks attributed → attributed.map Prod.fst = ranks.map Prod.fst := by
      intro ranks attributed hall
      induction hall with
      | nil => rfl
      | cons hfirst _ ih => rw [List.map_cons, List.map_cons, ih, hfirst.1]
    rw [h.busy, List.map_map, ← heq h.attributed]
    rfl
  have hreported : ∀ device, device ∈ segment.busyNsByDevice.map Prod.fst ↔
      ∃ left, m.Left device left := by
    intro device
    rw [hdevices, hranks.mem_iff]
  -- what a rank sweeps are its launches left, clipped to the segment
  have hswept : ∀ e ∈ attributed, ∃ swept, Swept swept e.2 ∧
      (cover (swept.map RankLaunch.interval)).card = m.busyTime e.1 segment.startNs segment.endNs ∧
      ∀ launch, launch ∈ swept ↔ ∃ left, m.Left e.1 left ∧
        clipLaunch segment.startNs segment.endNs left = some launch := by
    intro e hmem
    obtain ⟨rank, hrank, hdevice, hsweep⟩ := exists_swept h.attributed e hmem
    obtain ⟨launches, hnew, hleft⟩ := hranks.launches rank hrank
    rw [hnew, window_clipped] at hsweep
    rw [hdevice] at hleft
    refine ⟨_, hsweep, ?_, fun launch => ?_⟩
    · have hsorted : ∀ left, left ∈ sweepOrdered launches ↔ m.Left e.1 left :=
        fun left => mem_sweepOrdered.trans (hleft left)
      rw [← ncard_cover_inter hsorted, ← cover_clipped]
      exact congrArg Finset.card (cover_perm ((List.perm_insertionSort _ _).map _))
    · rw [clippedTo, mem_sweepOrdered, List.mem_filterMap]
      simp only [mem_sweepOrdered, hleft]
  have hbusy : ∀ e ∈ segment.busyNsByDevice,
      e.2 = m.busyTime e.1 segment.startNs segment.endNs := by
    intro e hmem
    rw [h.busy] at hmem
    obtain ⟨e, he, rfl⟩ := List.mem_map.mp hmem
    obtain ⟨swept, hsweep, hcard, -⟩ := hswept e he
    exact hsweep.union.trans hcard
  have hidle : ∀ device, device ∉ segment.busyNsByDevice.map Prod.fst →
      m.busyTime device segment.startNs segment.endNs = 0 :=
    fun device hmem => busyTime_eq_zero (fun hleft => hmem ((hreported device).mpr hleft)) _ _
  refine ⟨hreported, hbusy, hidle, fun device hwinner => ?_, fun hnone => ?_, h.busy,
    fun e hmem => ?_⟩
  · rw [h.winner] at hwinner
    -- the first of the greatest: nobody before it has as much, nobody after it more
    obtain ⟨ns, before, after, heq, hbefore, hafter⟩ := Grouped.firstMax_spec hwinner
    have hmem : (device, ns) ∈ segment.busyNsByDevice :=
      heq ▸ List.mem_append_right _ List.mem_cons_self
    have hns := hbusy _ hmem
    have hascending : (segment.busyNsByDevice.map Prod.fst).Pairwise (· < ·) :=
      hdevices ▸ hranks.ascending
    refine ⟨List.mem_map_of_mem hmem, fun other => ?_, fun other hother hlt => ?_⟩
    · by_cases hother : other ∈ segment.busyNsByDevice.map Prod.fst
      · obtain ⟨e, he, rfl⟩ := List.mem_map.mp hother
        rw [← hbusy e he, ← hns]
        rw [heq, List.mem_append, List.mem_cons] at he
        rcases he with he | rfl | he
        · exact (hbefore e he).le
        · exact le_refl _
        · exact hafter e he
      · rw [hidle other hother]
        exact Nat.zero_le _
    · -- a lower device stands before the winner
      obtain ⟨e, he, rfl⟩ := List.mem_map.mp hother
      rw [← hbusy e he, ← hns]
      rw [heq, List.map_append, List.map_cons, List.pairwise_append, List.pairwise_cons]
        at hascending
      rw [heq, List.mem_append, List.mem_cons] at he
      rcases he with he | rfl | he
      · exact hbefore e he
      · exact absurd hlt (lt_irrefl _)
      · exact absurd hlt (hascending.2.1.1 e.1 (List.mem_map_of_mem he)).asymm
  · by_contra hne
    have hsome := Grouped.firstMax_isSome hne
    rw [← h.winner, hnone] at hsome
    cases hsome
  · obtain ⟨swept, hsweep, -, hmem⟩ := hswept e hmem
    exact ⟨swept, hsweep, hmem⟩

/-- A number of the winners' attributions, over all segments. -/
def wonSum (number : Attribution → Nat) (segments : List Segment)
    (races : List (List (Int × Attribution))) : Nat :=
  (List.zipWith (fun segment attributed => number (wonBy segment.winner attributed))
    segments races).sum

/-- The races of a path, each measured, and what their winners are charged for. -/
structure MeasuredRaces (m : IterationMeasurement) (path : BarrierPath)
    (races : List (List (Int × Attribution))) : Prop where
  measured : List.Forall₂ (MeasuredRace m) path.segments races
  criticalBusy : path.criticalBusyNs = wonSum Attribution.unionNs path.segments races
  onPath : path.onPathKernelSumNs =
    wonSum (fun won => (won.clipped.map Prod.snd).sum) path.segments races
  sameStream : path.hiddenSameStreamNs = wonSum Attribution.hiddenSameStreamNs path.segments races
  crossStream : path.hiddenCrossStreamNs =
    wonSum Attribution.hiddenCrossStreamNs path.segments races

theorem wonSum_concat (number : Attribution → Nat) {segments : List Segment}
    {races : List (List (Int × Attribution))} (h : segments.length = races.length) :
    wonSum number (segments ++ [segment]) (races ++ [attributed]) =
      wonSum number segments races + number (wonBy segment.winner attributed) := by
  rw [wonSum, List.zipWith_append h, List.sum_append]
  rfl

variable {path path' : BarrierPath} {races : List (List (Int × Attribution))}

theorem MeasuredRaces.raced (h : MeasuredRaces m path races)
    (hmeasured : MeasuredRace m segment attributed)
    (hraced : Raced path path' segment (wonBy segment.winner attributed)) :
    MeasuredRaces m path' (races ++ [attributed]) := by
  have hlength := h.measured.length_eq
  refine ⟨?_, ?_, ?_, ?_, ?_⟩
  · rw [hraced.segments]
    exact List.rel_append h.measured (.cons hmeasured .nil)
  · rw [hraced.charged.criticalBusy, hraced.segments, wonSum_concat _ hlength, h.criticalBusy]
  · rw [hraced.charged.onPath, hraced.segments, wonSum_concat _ hlength, h.onPath]
  · rw [hraced.charged.sameStream, hraced.segments, wonSum_concat _ hlength, h.sameStream]
  · rw [hraced.charged.crossStream, hraced.segments, wonSum_concat _ hlength, h.crossStream]

theorem MeasuredRaces.passed {barrier : Barrier} (h : MeasuredRaces m path races)
    (hpassed : Passed path path' barrier) : MeasuredRaces m path' races := by
  refine ⟨?_, ?_, ?_, ?_, ?_⟩
  · rw [hpassed.segments]
    exact h.measured
  · rw [hpassed.criticalBusy, hpassed.segments, h.criticalBusy]
  · rw [hpassed.onPath, hpassed.segments, h.onPath]
  · rw [hpassed.sameStream, hpassed.segments, h.sameStream]
  · rw [hpassed.crossStream, hpassed.segments, h.crossStream]

theorem MeasuredRaces.mem (h : MeasuredRaces m path races) (hmem : segment ∈ path.segments) :
    ∃ attributed ∈ races, MeasuredRace m segment attributed := by
  have hall := h.measured
  clear h
  generalize path.segments = segments at hall hmem
  induction hall with
  | nil => exact (List.not_mem_nil hmem).elim
  | cons hfirst _ ih =>
    rcases List.mem_cons.mp hmem with rfl | hmem
    · exact ⟨_, List.mem_cons_self, hfirst⟩
    · obtain ⟨attributed, hrace, hmeasured⟩ := ih hmem
      exact ⟨attributed, List.mem_cons_of_mem _ hrace, hmeasured⟩

theorem tileIteration_measured {t : PathTiling} (hranks : m.Ranks t.ranks) {tBegin : Nat}
    {runs : List Run} (hpath : MeasuredRaces m path [])
    (h : tileIteration path tBegin t runs = .ok path') : ∃ races, MeasuredRaces m path' races := by
  simp only [tileIteration, bind_eq_ok_iff] at h
  obtain ⟨tiled, htiled, raced, hraced, h⟩ := h
  obtain rfl := Except.ok.inj h
  have hloop : ∃ races, MeasuredRaces m tiled.1 races := by
    refine Run.tryRun_induction (I := fun _ state => ∃ races, MeasuredRaces m state.1 races)
      (fun run _ state state' hI hstep => ?_) ⟨[], hpath⟩ htiled
    obtain ⟨races, hraces⟩ := hI
    obtain ⟨middle, hmiddle, hpassed⟩ := bind_eq_ok_iff.mp hstep
    obtain ⟨_, segment, attributed, -, -, -, -, hrace, hadded⟩ :=
      PathTiling.raceSegment_spec hmiddle
    obtain ⟨barrier, -, -, -, hbarrier⟩ := PathTiling.passBarrier_spec hpassed
    exact ⟨_, (hraces.raced (hrace.measured hranks) hadded).passed hbarrier⟩
  obtain ⟨races, hraces⟩ := hloop
  obtain ⟨_, segment, attributed, -, -, -, -, hrace, hadded⟩ := PathTiling.raceSegment_spec hraced
  obtain ⟨hmeasured, hbusy, honPath, hsame, hcross⟩ := hraces.raced (hrace.measured hranks) hadded
  exact ⟨_, hmeasured, hbusy, honPath, hsame, hcross⟩

theorem barrierPath_measured (h : barrierPath m = .ok path) :
    ∃ races, MeasuredRaces m path races := by
  simp only [barrierPath] at h
  split at h
  · simp only [bind_eq_ok_iff] at h
    obtain ⟨wall, -, durations, -, runs, -, tiling, htiling, path', hpath', _, -, h⟩ := h
    obtain rfl := Except.ok.inj h
    exact tileIteration_measured (IterationMeasurement.tilingOf_ranks htiling)
      ⟨.nil, rfl, rfl, rfl, rfl⟩ hpath'
  · obtain rfl := Except.ok.inj h
    exact ⟨[], .nil, rfl, rfl, rfl, rfl⟩

end races

/-- The trimming ends for every launch, at its first instant outside every collective of its
device and stream; and the races of a path measure the busy time behind it, in every
segment. -/
theorem segment_races (m : IterationMeasurement) : (∀ device stream startNs, ∃ free,
      pdlTrimmedStart (m.collectivesOn device stream) startNs = .ok free ∧
        m.FirstFree device stream startNs free) ∧
    ∀ path, barrierPath m = .ok path → ∃ races, MeasuredRaces m path races :=
  ⟨m.trimmed_firstFree, fun _ h => barrierPath_measured h⟩

/-- A rank that waits for its collective until the late rank arrives, its successor behind;
the late rank copies under its attention. -/
def waitingRank : IterationMeasurement where
  kernels := [⟨some "attention", false, [⟨0, 0, 2, 0, some 1⟩, ⟨1, 0, 4, 0, some 1⟩]⟩,
    ⟨some "attention", false, [⟨1, 8, 12, 0, some 1⟩]⟩,
    ⟨some "copy", false, [⟨1, 9, 11, 1, some 2⟩]⟩,
    ⟨some "reduce", true, [⟨0, 2, 20, 0, some 1⟩, ⟨1, 18, 20, 0, some 1⟩]⟩,
    ⟨some "ffn", false, [⟨0, 3, 21, 0, some 1⟩, ⟨1, 19, 21, 0, some 1⟩]⟩]
  deviceIds := {0, 1}

theorem segment_races_waiting : ∃ path, barrierPath waitingRank = .ok path ∧
    path.segments.map Segment.busyNsByDevice = [[(0, 2), (1, 8)], [(0, 1), (1, 1)]] ∧
    path.hiddenCrossStreamNs = 2 ∧ ∃ races, MeasuredRaces waitingRank path races := by
  obtain ⟨path, hpath, hcheck⟩ : ∃ path, barrierPath waitingRank = .ok path ∧
      decide (path.segments.map Segment.busyNsByDevice =
        [[(0, 2), (1, 8)], [(0, 1), (1, 1)]] ∧ path.hiddenCrossStreamNs = 2) = true :=
    exists_ok_of_check (by decide +kernel)
  obtain ⟨hbusy, hhidden⟩ := of_decide_eq_true hcheck
  exact ⟨path, hpath, hbusy, hhidden, (segment_races waitingRank).2 path hpath⟩

/-- Rank 0 only communicates, so it has nothing left to race. -/
def collectiveOnlyRank : IterationMeasurement where
  kernels := [⟨some "reduce", true, [⟨0, 0, 4, 0, some 1⟩, ⟨1, 2, 4, 0, some 1⟩]⟩,
    ⟨some "ffn", false, [⟨1, 4, 6, 0, some 1⟩]⟩]
  deviceIds := {0, 1}

/-- A rank that does not race is not reported and loses a tie to a higher one. -/
theorem unraced_rank_loses_tie : ¬∀ m path, barrierPath m = .ok path →
    ∀ segment ∈ path.segments, ∀ device, segment.winner = some device →
      ∀ other ∈ m.deviceIds, other < device → m.busyTime other segment.startNs segment.endNs <
          m.busyTime device segment.startNs segment.endNs := by
  intro h
  obtain ⟨path, hpath, hcheck⟩ : ∃ path, barrierPath collectiveOnlyRank = .ok path ∧
      path.segments.any (fun segment => segment.winner = some 1 ∧
        segment.busyNsByDevice = [(1, 0)]) = true :=
    exists_ok_of_check (by decide +kernel)
  obtain ⟨segment, hsegment, hwinner⟩ := List.any_eq_true.mp hcheck
  obtain ⟨hwinner, hbusy⟩ := of_decide_eq_true hwinner
  obtain ⟨races, hraces⟩ := barrierPath_measured hpath
  obtain ⟨attributed, -, hmeasured⟩ := hraces.mem hsegment
  have hlt := h collectiveOnlyRank path hpath segment hsegment 1 hwinner 0 (by decide) (by decide)
  have hzero := hmeasured.busy (1, 0) (hbusy ▸ List.mem_singleton_self _)
  exact Nat.not_lt_zero _ (hzero ▸ hlt)

end ServingSim
