import ServingSim.Analyzer.SegmentRaces

/-
  The barrier path tiles the iteration exactly.

  Where every launch ends no earlier than it starts and every barrier takes part on
  every device, no step of the path fails: an instant stays behind the cursor, a share
  goes to a position there is, and a split has something to split over. What the
  segments and the barriers add then comes to the wall time.

  What is proved:
    1. `barrier_path_tiles` — the path exists, and its identities hold together.
-/

namespace ServingSim

open IntervalUnion

/-! ## Splits that cannot fail -/

theorem sum_rounded_shares_le {K : Type} (total : Nat) (weights : List (K × Nat)) {weight : Nat}
    (hpositive : 0 < weight) (hweight : (weights.map Prod.snd).sum ≤ weight) :
    (weights.map fun e => total * e.2 / weight).sum ≤ total := by
  have hmul : (weights.map fun e => total * e.2 / weight).sum * weight ≤
      total * (weights.map Prod.snd).sum := by
    clear hweight
    induction weights with
    | nil => simp
    | cons e weights ih =>
      simp only [List.map_cons, List.sum_cons, Nat.add_mul, Nat.mul_add]
      exact Nat.add_le_add (Nat.div_mul_le_self _ _) ih
  exact Nat.le_of_mul_le_mul_right (hmul.trans (Nat.mul_le_mul_left total hweight)) hpositive

theorem splitByWeight_ok {K : Type} [LinearOrder K] (total : Nat) {keys : List K}
    (weights : List (K × Nat)) (hkeys : keys ≠ []) :
    ∃ shares, splitByWeight total keys weights = .ok shares ∧
      ∀ share ∈ shares, share.1 ∈ keys ∨ share.1 ∈ weights.map Prod.fst := by
  unfold splitByWeight
  by_cases hzero : (weights.map Prod.snd).sum = 0
  · have hlength : keys.length ≠ 0 := fun h => hkeys (List.length_eq_zero_iff.mp h)
    refine ⟨_, (if_pos hzero).trans (bind_eq_ok_iff.mpr ⟨(), ensure_eq_ok_iff.mpr hlength, rfl⟩),
      fun share hshare => .inl ?_⟩
    obtain ⟨key, hkey, rfl⟩ := List.mem_map.mp hshare
    exact (List.mem_zipIdx hkey).2.2 ▸ List.getElem_mem _
  · set ordered := weights.insertionSort fun left right =>
      toLex (OrderDual.toDual left.2, left.1) ≤ toLex (OrderDual.toDual right.2, right.1)
      with hordered
    have hperm : ordered.Perm weights := List.perm_insertionSort _ _
    have hne : ordered ≠ [] := by
      intro hnil
      rw [hnil, List.nil_perm] at hperm
      exact hzero (by rw [hperm]; rfl)
    have hsum : ((ordered.dropLast.map fun e => (e.1, total * e.2 / (weights.map
        Prod.snd).sum)).map Prod.snd).sum ≤ total := by
      rw [List.map_map]
      refine sum_rounded_shares_le total ordered.dropLast (Nat.pos_of_ne_zero hzero) ?_
      rw [← (hperm.map Prod.snd).sum_eq]
      exact ((List.dropLast_sublist ordered).map Prod.snd).sum_le_sum fun _ _ => Nat.zero_le _
    refine ⟨_, (if_neg hzero).trans (bind_eq_ok_iff.mpr ⟨_, required_eq_ok_iff.mpr
      (List.getLast?_eq_some_getLast hne), bind_eq_ok_iff.mpr ⟨_, checkedSub_of_le hsum, rfl⟩⟩),
      fun share hshare => .inr ?_⟩
    rw [← (hperm.map Prod.fst).mem_iff]
    rcases List.mem_append.mp hshare with hshare | hshare
    · obtain ⟨e, he, rfl⟩ := List.mem_map.mp hshare
      exact List.mem_map.mpr ⟨e, List.mem_of_mem_dropLast he, rfl⟩
    · rw [List.mem_singleton.mp hshare]
      exact List.mem_map.mpr ⟨_, List.getLast_mem hne, rfl⟩

theorem chargePositions_ok {out : List Nat} {shares : List (Nat × Nat)}
    (h : ∀ share ∈ shares, share.1 < out.length) :
    ∃ out', chargePositions out shares = .ok out' ∧ out'.length = out.length := by
  refine foldlM_ok_of_invariant (I := fun middle : List Nat => middle.length = out.length)
    (fun share hshare middle hlength => ?_) rfl
  obtain ⟨out', hout', hlength', -⟩ := bump_spec (i := share.1) (l := middle) share.2
    (hlength ▸ h share hshare)
  exact ⟨out', hout', hlength'.trans hlength⟩

/-! ## Runs of synchronizing positions -/

/-- Every synchronizing run that was launched was launched on every device. -/
def IterationMeasurement.BarriersCover (m : IterationMeasurement) : Prop :=
  ∀ positions ∈ syncRuns 0 [] m.kernels, positions.flatMap m.launchesAt ≠ [] →
    ((positions.flatMap m.launchesAt).map KernelLaunch.deviceId).toFinset = m.deviceIds

theorem syncRuns_lt {kernels : List IterationKernel} {index : Nat} {current positions : List Nat}
    (hmem : positions ∈ syncRuns index current kernels) :
    ∀ position ∈ positions, position ∈ current ∨ position < index + kernels.length := by
  induction kernels generalizing index current with
  | nil =>
    simp only [syncRuns] at hmem
    split at hmem
    · exact (List.not_mem_nil hmem).elim
    · rw [List.mem_singleton.mp hmem]
      exact fun _ => .inl
  | cons kernel kernels ih =>
    intro position hposition
    have hlater : ∀ {current}, positions ∈ syncRuns (index + 1) current kernels →
        position ∈ current ∨ position < index + (kernel :: kernels).length := by
      intro current hmem
      refine (ih hmem position hposition).imp_right fun hlt => ?_
      rw [List.length_cons]
      omega
    have hnone : ∀ {n}, position ∈ [] ∨ position < n → position ∈ current ∨ position < n :=
      fun h => .inr (h.resolve_left List.not_mem_nil)
    simp only [syncRuns] at hmem
    split at hmem
    · rcases hlater hmem with hcurrent | hlt
      · rcases List.mem_append.mp hcurrent with hcurrent | hindex
        · exact .inl hcurrent
        · rw [List.mem_singleton.mp hindex, List.length_cons]
          exact .inr (by omega)
      · exact .inr hlt
    · split at hmem
      · exact hnone (hlater hmem)
      · rcases List.mem_cons.mp hmem with rfl | hmem
        · exact .inl hposition
        · exact hnone (hlater hmem)

/-- A run as it was collected from a measurement. -/
structure RunOf (m : IterationMeasurement) (run : Run) : Prop where
  positions_lt : ∀ position ∈ run.positions, position < m.kernels.length
  positions_ne : run.positions ≠ []
  firstStart : run.firstStart = firstStarts (run.positions.flatMap m.launchesAt)
  lastEnd : run.lastEnd = lastEnds (run.positions.flatMap m.launchesAt)
  launched : run.positions.flatMap m.launchesAt ≠ []
  operations : ∀ operation ∈ run.operationWeights.map Prod.fst,
    operation ∈ run.positions.map m.operationKey

section runs

variable {m : IterationMeasurement}

theorem launchesAt_subset {position : Nat} {launch : KernelLaunch}
    (h : launch ∈ m.launchesAt position) : launch ∈ m.launches := by
  unfold IterationMeasurement.launchesAt at h
  cases hkernel : m.kernels[position]? with
  | none =>
    rw [hkernel] at h
    exact (List.not_mem_nil h).elim
  | some kernel =>
    rw [hkernel] at h
    exact List.mem_flatMap.mpr ⟨kernel, List.mem_of_getElem? hkernel, h⟩

theorem collectRun_ok {positions : List Nat} (hlt : ∀ position ∈ positions,
    position < m.kernels.length) (hcovers : positions.flatMap m.launchesAt ≠ [] →
      ((positions.flatMap m.launchesAt).map KernelLaunch.deviceId).toFinset = m.deviceIds) :
    ∃ run, m.collectRun positions = .ok run ∧ ∀ run' ∈ run, RunOf m run' := by
  have hkeys : (firstStarts (positions.flatMap m.launchesAt)).map Prod.fst =
      Grouped.keys KernelLaunch.deviceId (positions.flatMap m.launchesAt) :=
    Grouped.reduced_keys _
  simp only [IterationMeasurement.collectRun]
  by_cases hempty : (firstStarts (positions.flatMap m.launchesAt)).isEmpty = true
  · refine ⟨none, (if_pos hempty).trans rfl, fun _ hmem => ?_⟩
    cases hmem
  · have hlaunched : positions.flatMap m.launchesAt ≠ [] := by
      intro hnil
      rw [hnil] at hempty
      exact hempty rfl
    have hdevices : ((firstStarts (positions.flatMap m.launchesAt)).map Prod.fst).toFinset =
        m.deviceIds := by
      rw [← hcovers hlaunched, hkeys]
      ext device
      simp only [List.mem_toFinset, Grouped.mem_keys, List.mem_map]
    refine ⟨_, (if_neg hempty).trans (bind_eq_ok_iff.mpr ⟨(), ensure_eq_ok_iff.mpr hdevices,
      rfl⟩), fun run hrun => ?_⟩
    obtain rfl := Option.some.inj hrun
    refine ⟨hlt, ?_, rfl, rfl, hlaunched, fun operation hoperation => ?_⟩
    · rintro rfl
      exact hlaunched rfl
    · rw [List.map_map] at hoperation
      have hmem : operation ∈ Grouped.keys m.operationKey (positions.filter
          fun position => !(m.launchesAt position).isEmpty) := by
        rw [← Grouped.group_keys]
        exact hoperation
      obtain ⟨position, hposition, rfl⟩ := Grouped.mem_keys.mp hmem
      exact List.mem_map_of_mem (List.mem_filter.mp hposition).1

theorem collectRuns_ok (hcovers : m.BarriersCover) :
    ∃ runs, m.collectRuns = .ok runs ∧ ∀ run ∈ runs, RunOf m run := by
  have hcollected : ∀ positions ∈ syncRuns 0 [] m.kernels,
      ∃ run, m.collectRun positions = .ok run ∧ ∀ run' ∈ run, RunOf m run' := by
    intro positions hmem
    refine collectRun_ok (fun position hposition => ?_) (hcovers positions hmem)
    have hlt := (syncRuns_lt hmem position hposition).resolve_left List.not_mem_nil
    omega
  obtain ⟨runs, hruns⟩ := mapM_ok_of_forall fun positions hmem =>
    (hcollected positions hmem).imp fun _ h => h.1
  refine ⟨runs.reduceOption, bind_eq_ok_iff.mpr ⟨runs, hruns, rfl⟩, fun run hrun => ?_⟩
  obtain ⟨positions, hpositions, hcollect⟩ :=
    exists_mem_of_mapM hruns (List.reduceOption_mem_iff.mp hrun)
  obtain ⟨run', hrun', hall⟩ := hcollected positions hpositions
  obtain rfl := Except.ok.inj (hcollect.symm.trans hrun')
  exact hall run rfl

end runs

/-! ## Segments that cannot fail -/

section segment

variable {m : IterationMeasurement} {t : PathTiling} {path : BarrierPath} {lo hi : Nat}

theorem mem_clippedTo {launches : List RankLaunch} {launch : RankLaunch}
    (h : launch ∈ clippedTo launches lo hi) :
    lo ≤ launch.startNs ∧ launch.startNs < launch.endNs ∧ launch.endNs ≤ hi := by
  obtain ⟨source, -, hclip⟩ := List.mem_filterMap.mp (mem_sweepOrdered.mp h)
  obtain ⟨hlt, rfl⟩ := clipLaunch_eq_some hclip
  exact ⟨Nat.le_max_right _ _, hlt, Nat.min_le_right _ _⟩

theorem reach_le {swept : List RankLaunch} (h : ∀ launch ∈ swept, launch.endNs ≤ hi) :
    reach (swept.map RankLaunch.interval) ≤ hi := by
  induction swept with
  | nil => exact Nat.zero_le _
  | cons first swept ih =>
    rw [List.map_cons, reach_cons]
    exact max_le (h first List.mem_cons_self)
      (ih fun launch hmem => h launch (List.mem_cons_of_mem _ hmem))

theorem winnerIdle_ok {launches : List RankLaunch} {won : Attribution}
    (h : Swept (clippedTo launches lo hi) won) (hle : lo ≤ hi) :
    ∃ idle, winnerIdle lo hi won = .ok idle := by
  have hsorted : (clippedTo launches lo hi).Pairwise fun a b => a.startNs ≤ b.startNs :=
    sweepOrdered_sorted _
  have hin : ∀ launch ∈ clippedTo launches lo hi,
      lo ≤ launch.startNs ∧ launch.startNs < launch.endNs ∧ launch.endNs ≤ hi :=
    fun _ hmem => mem_clippedTo hmem
  generalize clippedTo launches lo hi = swept at h hsorted hin
  cases swept with
  | nil =>
    refine ⟨(0, hi - lo), ?_⟩
    simp only [winnerIdle, h.first, h.last, List.head?_nil, Option.map_none]
    exact bind_eq_ok_iff.mpr ⟨_, checkedSub_of_le hle, rfl⟩
  | cons first rest =>
    obtain ⟨hlo, hpositive, -⟩ := hin first List.mem_cons_self
    have hlast : first.endNs ≤ reach ((first :: rest).map RankLaunch.interval) :=
      end_le_reach (List.mem_map_of_mem (f := RankLaunch.interval) List.mem_cons_self)
    have hhi : reach ((first :: rest).map RankLaunch.interval) ≤ hi :=
      reach_le fun launch hmem => (hin launch hmem).2.2
    -- the union lies between the first start and the furthest end
    have hunion : won.unionNs ≤
        reach ((first :: rest).map RankLaunch.interval) - first.startNs := by
      rw [h.union, ← Nat.card_Ico]
      refine Finset.card_le_card fun x hx => ?_
      have hreach := lt_reach_of_mem_cover hx
      obtain ⟨_, hmem, hx⟩ := mem_cover.mp hx
      obtain ⟨launch, hlaunch, rfl⟩ := List.mem_map.mp hmem
      refine Finset.mem_Ico.mpr ⟨le_trans ?_ hx.1, hreach⟩
      rcases List.mem_cons.mp hlaunch with rfl | hlaunch
      · exact le_refl _
      · exact List.rel_of_pairwise_cons hsorted hlaunch
    simp only [winnerIdle, h.first, h.last, List.head?_cons, Option.map_some]
    exact ⟨_, bind_eq_ok_iff.mpr ⟨_, checkedSub_of_le hlo, bind_eq_ok_iff.mpr
      ⟨_, checkedSub_of_le hhi, bind_eq_ok_iff.mpr ⟨_, checkedSub_of_le (by omega),
        bind_eq_ok_iff.mpr ⟨_, checkedSub_of_le hunion, rfl⟩⟩⟩⟩⟩

theorem union_le {launches : List RankLaunch} {out : Attribution}
    (h : Swept (clippedTo launches lo hi) out) : out.unionNs ≤ hi - lo := by
  rw [h.union, ← Nat.card_Ico]
  refine Finset.card_le_card fun x hx => ?_
  obtain ⟨_, hmem, hx⟩ := mem_cover.mp hx
  obtain ⟨launch, hlaunch, rfl⟩ := List.mem_map.mp hmem
  obtain ⟨hlo, -, hhi⟩ := mem_clippedTo hlaunch
  exact Finset.mem_Ico.mpr ⟨hlo.trans hx.1, hx.2.trans_le hhi⟩

theorem position_lt {ranks : List (Int × RankLaunches)} (hranks : m.Ranks ranks)
    {rank : Int × RankLaunches} (hrank : rank ∈ ranks) {launch : RankLaunch}
    (h : launch ∈ clippedTo (rank.2.window lo hi) lo hi) : launch.position < m.kernels.length := by
  obtain ⟨launches, hnew, hleft⟩ := hranks.launches rank hrank
  rw [hnew, window_clipped, clippedTo, mem_sweepOrdered] at h
  obtain ⟨left, hmem, hclip⟩ := List.mem_filterMap.mp h
  obtain ⟨-, rfl⟩ := clipLaunch_eq_some hclip
  obtain ⟨kernel, -, hkernel, -⟩ := (hleft left).mp (mem_sweepOrdered.mp hmem)
  exact (List.getElem?_eq_some_iff.mp hkernel).1

/-- The path has a share for every position. -/
structure Sized (m : IterationMeasurement) (path : BarrierPath) : Prop where
  critical : path.kernelCriticalNs.length = m.kernels.length
  onPath : path.kernelOnPathNs.length = m.kernels.length

theorem chargeWinner_ok (device : Int) {won : Attribution} {swept : List RankLaunch}
    (hsized : Sized m path) (hswept : Swept swept won)
    (hlt : ∀ launch ∈ swept, launch.position < m.kernels.length) :
    ∃ charged, chargeWinner path device won = .ok charged := by
  have hslices : ∀ share ∈ won.slices, share.1 < path.kernelCriticalNs.length := by
    intro share hshare
    obtain ⟨launch, hlaunch, hposition⟩ := hswept.sliced share hshare
    rw [hsized.critical, ← hposition]
    exact hlt launch hlaunch
  have hclipped : ∀ share ∈ won.clipped, share.1 < path.kernelOnPathNs.length := by
    intro share hshare
    rw [hswept.clipped] at hshare
    obtain ⟨launch, hlaunch, rfl⟩ := List.mem_map.mp hshare
    rw [hsized.onPath]
    exact hlt launch hlaunch
  obtain ⟨critical, hcritical, -⟩ := chargePositions_ok hslices
  obtain ⟨onPath, honPath, -⟩ := chargePositions_ok hclipped
  exact ⟨_, bind_eq_ok_iff.mpr ⟨critical, hcritical, bind_eq_ok_iff.mpr ⟨onPath, honPath, rfl⟩⟩⟩

theorem raceSegment_ok {run : Option Run} {enter : Nat} (hranks : m.Ranks t.ranks)
    (hsized : Sized m path) (henter : t.enters run = .ok enter) :
    ∃ raced, t.raceSegment path lo run = .ok raced := by
  set hi := max lo enter with hhi
  have hle : lo ≤ hi := Nat.le_max_left _ _
  obtain ⟨attributed, hattributed⟩ : ∃ attributed, t.ranks.mapM (fun rank => do
      let attribution ← attributeWindow (rank.2.window lo hi) lo hi
      return (rank.1, attribution)) = .ok attributed := by
    refine mapM_ok_of_forall fun rank _ => ?_
    obtain ⟨out, hout, -⟩ := attributeWindow_spec (rank.2.window lo hi) lo hi
    exact ⟨(rank.1, out), bind_eq_ok_iff.mpr ⟨out, hout, rfl⟩⟩
  have hall : ∀ e ∈ attributed, ∃ rank ∈ t.ranks,
      Swept (clippedTo (rank.2.window lo hi) lo hi) e.2 := by
    intro e he
    obtain ⟨rank, hrank, hattribute⟩ := exists_mem_of_mapM hattributed he
    obtain ⟨out, hout, heq⟩ := bind_eq_ok_iff.mp hattribute
    obtain rfl := Except.ok.inj heq
    obtain ⟨out', hout', hswept⟩ := attributeWindow_spec (rank.2.window lo hi) lo hi
    obtain rfl := Except.ok.inj (hout.symm.trans hout')
    exact ⟨rank, hrank, hswept⟩
  set busy := attributed.map fun e => (e.1, e.2.unionNs) with hbusy
  obtain ⟨charged, hcharged⟩ : ∃ charged,
      chargeRace path attributed (Grouped.firstMax busy) lo hi (hi - lo) = .ok charged := by
    cases hwinner : Grouped.firstMax busy with
    | none => exact ⟨_, rfl⟩
    | some device =>
      obtain ⟨ns, before, after, hlargest⟩ := Grouped.firstMax_spec hwinner
      have hmem : (device, ns) ∈ busy := hlargest.eq ▸ List.mem_append_right _ List.mem_cons_self
      obtain ⟨e, he, heq⟩ := List.mem_map.mp hmem
      obtain ⟨won, hwon⟩ : ∃ won, attributed.lookup device = some won := by
        refine Option.isSome_iff_exists.mp (List.lookup_isSome_iff.mpr ⟨e, he, ?_⟩)
        exact beq_iff_eq.mpr (congrArg Prod.fst heq).symm
      obtain ⟨earlier, later, hsplit, -⟩ := List.lookup_eq_some_iff.mp hwon
      obtain ⟨rank, hrank, hswept⟩ := hall (device, won)
        (hsplit ▸ List.mem_append_right _ List.mem_cons_self)
      obtain ⟨charged, hcharged⟩ := chargeWinner_ok device hsized hswept
        fun launch hlaunch => position_lt hranks hrank hlaunch
      obtain ⟨idle, hidle⟩ := winnerIdle_ok hswept hle
      exact ⟨_, bind_eq_ok_iff.mpr ⟨won, required_eq_ok_iff.mpr hwon, bind_eq_ok_iff.mpr
        ⟨charged, hcharged, bind_eq_ok_iff.mpr ⟨idle, hidle, rfl⟩⟩⟩⟩
  have hgap : ∀ gating : Option Int, ∃ gap, gating.elim (.ok (hi - lo))
      (fun device => checkedSub (hi - lo) ((busy.lookup device).getD 0)) = .ok gap := by
    intro gating
    cases gating with
    | none => exact ⟨_, rfl⟩
    | some device =>
      refine ⟨_, checkedSub_of_le ?_⟩
      -- a gating rank without launches left is waited for from end to end
      cases hlookup : busy.lookup device with
      | none => exact Nat.zero_le _
      | some ns =>
        obtain ⟨earlier, later, hsplit, -⟩ := List.lookup_eq_some_iff.mp hlookup
        have hmem : (device, ns) ∈ busy := hsplit ▸ List.mem_append_right _ List.mem_cons_self
        obtain ⟨e, he, heq⟩ := List.mem_map.mp hmem
        obtain ⟨rank, -, hswept⟩ := hall e he
        obtain rfl : e.2.unionNs = ns := congrArg Prod.snd heq
        exact union_le hswept
  obtain ⟨gap, hgap⟩ := hgap (run.elim t.lastFinisher fun run => Grouped.firstMax run.firstStart)
  exact ⟨_, bind_eq_ok_iff.mpr ⟨enter, henter, bind_eq_ok_iff.mpr ⟨attributed, hattributed,
    bind_eq_ok_iff.mpr ⟨_, checkedSub_of_le hle, bind_eq_ok_iff.mpr ⟨charged, hcharged,
      bind_eq_ok_iff.mpr ⟨gap, hgap, rfl⟩⟩⟩⟩⟩⟩

end segment

/-! ## Barriers that cannot fail -/

section barrier

variable {m : IterationMeasurement} {t : PathTiling} {run : Run} {path : BarrierPath}

theorem firstStarts_ne_nil {launches : List KernelLaunch} (h : launches ≠ []) :
    firstStarts launches ≠ [] := by
  obtain ⟨launch, rest, rfl⟩ := List.exists_cons_of_ne_nil h
  have hmem : launch.deviceId ∈ (firstStarts (launch :: rest)).map Prod.fst := by
    rw [firstStarts, Grouped.reduced_keys, Grouped.mem_keys]
    exact ⟨launch, List.mem_cons_self, rfl⟩
  intro hnil
  rw [hnil] at hmem
  exact List.not_mem_nil hmem

theorem lastEnds_ne_nil {launches : List KernelLaunch} (h : launches ≠ []) :
    lastEnds launches ≠ [] := by
  obtain ⟨launch, rest, rfl⟩ := List.exists_cons_of_ne_nil h
  have hmem : launch.deviceId ∈ (lastEnds (launch :: rest)).map Prod.fst := by
    rw [lastEnds, Grouped.reduced_keys, Grouped.mem_keys]
    exact ⟨launch, List.mem_cons_self, rfl⟩
  intro hnil
  rw [hnil] at hmem
  exact List.not_mem_nil hmem

theorem latest_ok {times : List (Int × Nat)} (h : times ≠ []) :
    ∃ late early, latest times = .ok late ∧ earliest times = .ok early ∧ early ≤ late ∧
      ∃ e ∈ times, e.2 = late := by
  have hne : times.map Prod.snd ≠ [] := fun hnil => h (List.map_eq_nil_iff.mp hnil)
  have hmax : (times.map Prod.snd).max? ≠ none := fun hnone => hne (List.max?_eq_none_iff.mp hnone)
  have hmin : (times.map Prod.snd).min? ≠ none := fun hnone => hne (List.min?_eq_none_iff.mp hnone)
  obtain ⟨late, hlate⟩ := Option.ne_none_iff_exists'.mp hmax
  obtain ⟨early, hearly⟩ := Option.ne_none_iff_exists'.mp hmin
  obtain ⟨hmem, hlargest⟩ := List.max?_eq_some_iff.mp hlate
  exact ⟨late, early, required_eq_ok_iff.mpr hlate, required_eq_ok_iff.mpr hearly,
    hlargest early (List.min?_mem hearly), List.mem_map.mp hmem⟩

theorem operationShares_ok (hrun : RunOf m run) (netNs : Nat) :
    ∃ shares, operationShares m run netNs = .ok shares ∧
      ∀ share ∈ shares, share.1 ∈ run.positions.map m.operationKey := by
  have hkeys : ∀ operation, operation ∈ Grouped.keys id (run.positions.map m.operationKey) ↔
      operation ∈ run.positions.map m.operationKey := by
    intro operation
    rw [Grouped.mem_keys]
    simp only [id, exists_eq_right]
  unfold operationShares
  split
  · next operation heq =>
    refine ⟨_, rfl, fun share hshare => ?_⟩
    rw [List.mem_singleton.mp hshare, ← hkeys, heq]
    exact List.mem_singleton_self _
  · have hne : Grouped.keys id (run.positions.map m.operationKey) ≠ [] := by
      obtain ⟨position, hposition⟩ := List.exists_mem_of_ne_nil _ hrun.positions_ne
      exact List.ne_nil_of_mem ((hkeys _).mpr (List.mem_map_of_mem hposition))
    obtain ⟨shares, hshares, hmem⟩ := splitByWeight_ok netNs run.operationWeights hne
    refine ⟨shares, hshares, fun share hshare => ?_⟩
    rcases hmem share hshare with hkey | hweight
    · exact (hkeys _).mp hkey
    · exact hrun.operations _ hweight

theorem chargeBarrier_ok (hrun : RunOf m run) {critical : List Nat}
    (hlength : critical.length = m.kernels.length) (netNs : Nat) :
    ∃ critical', chargeBarrier m run netNs critical = .ok critical' := by
  obtain ⟨operations, hoperations, hkeys⟩ := operationShares_ok hrun netNs
  obtain ⟨critical', hcritical', -⟩ := foldlM_ok_of_invariant
    (I := fun critical : List Nat => critical.length = m.kernels.length)
    (f := fun out (operationShare : String × Nat) => do
      let members := run.positions.filter fun position => m.operationKey position = operationShare.1
      let weights := (run.positions.zip run.positionWeights).filter fun e =>
        e.2 > 0 ∧ e.1 ∈ members
      let shares ← splitByWeight operationShare.2 members weights
      chargePositions out shares) (l := operations) (fun share hshare critical hlength => by
    -- an operation has positions, and its shares go to them
    set members := run.positions.filter fun position => m.operationKey position = share.1
      with hmembers
    have hne : members ≠ [] := by
      obtain ⟨position, hposition, hkey⟩ := List.mem_map.mp (hkeys share hshare)
      exact List.ne_nil_of_mem (List.mem_filter.mpr ⟨hposition, decide_eq_true hkey⟩)
    obtain ⟨shares, hshares, hmem⟩ := splitByWeight_ok share.2
      ((run.positions.zip run.positionWeights).filter fun e => e.2 > 0 ∧ e.1 ∈ members) hne
    have hlt : ∀ share ∈ shares, share.1 < critical.length := by
      intro share hshare
      rw [hlength]
      have hmember : share.1 ∈ members := by
        rcases hmem share hshare with hkey | hweight
        · exact hkey
        · obtain ⟨e, he, heq⟩ := List.mem_map.mp hweight
          rw [← heq]
          exact (of_decide_eq_true (List.mem_filter.mp he).2).2
      exact hrun.positions_lt _ (List.mem_filter.mp hmember).1
    obtain ⟨out, hout, hlength'⟩ := chargePositions_ok hlt
    exact ⟨out, bind_eq_ok_iff.mpr ⟨shares, hshares, hout⟩, hlength'.trans hlength⟩) hlength
  exact ⟨critical', bind_eq_ok_iff.mpr ⟨operations, hoperations, hcritical'⟩⟩

theorem passBarrier_ok (ht : t.measurement = m) (hrun : RunOf m run) (hsized : Sized m path)
    (hi : Nat) : ∃ passed, t.passBarrier path hi run = .ok passed := by
  have hstarts : run.firstStart ≠ [] := hrun.firstStart ▸ firstStarts_ne_nil hrun.launched
  have hends : run.lastEnd ≠ [] := hrun.lastEnd ▸ lastEnds_ne_nil hrun.launched
  obtain ⟨enter, arrival, henter, harrival, hle, -⟩ := latest_ok hstarts
  obtain ⟨exit, -, hexit, -, -, -⟩ := latest_ok hends
  obtain ⟨lastExit, hlast⟩ := Option.isSome_iff_exists.mp (Grouped.firstMax_isSome hends)
  obtain ⟨critical, hcritical⟩ := chargeBarrier_ok hrun hsized.critical (exit - hi)
  rw [← ht] at hcritical
  exact ⟨_, bind_eq_ok_iff.mpr ⟨enter, henter, bind_eq_ok_iff.mpr ⟨exit, hexit,
    bind_eq_ok_iff.mpr ⟨arrival, harrival, bind_eq_ok_iff.mpr ⟨_, checkedSub_of_le hle,
      bind_eq_ok_iff.mpr ⟨lastExit, required_eq_ok_iff.mpr hlast, bind_eq_ok_iff.mpr
        ⟨critical, hcritical, rfl⟩⟩⟩⟩⟩⟩⟩

end barrier

/-! ## The tiling -/

/-- Segments and barriers in turn, each from where the one before it ended: a segment, then a
barrier's length, up to the cursor. -/
inductive PathTiled (tBegin : Nat) : List Segment → List Barrier → Nat → Prop
  | start : PathTiled tBegin [] [] tBegin
  | passed {segments : List Segment} {barriers : List Barrier} {lo : Nat} (segment : Segment)
      (barrier : Barrier) (before : PathTiled tBegin segments barriers lo)
      (starts : segment.startNs = lo) (forward : lo ≤ segment.endNs)
      (net : barrier.netNs = barrier.exitNs - segment.endNs) :
      PathTiled tBegin (segments ++ [segment]) (barriers ++ [barrier])
          (segment.endNs + barrier.netNs)

/-- What the path accounts for, up to a cursor. -/
structure Accounts (m : IterationMeasurement) (path : BarrierPath) (tBegin cursor : Nat) :
    Prop where
  sized : Sized m path
  accounted : tBegin + (path.criticalPathNs + path.idleNs) = cursor
  busy : path.criticalBusyNs + path.hiddenSameStreamNs + path.hiddenCrossStreamNs =
    path.onPathKernelSumNs
  critical : path.kernelCriticalNs.sum = path.criticalPathNs
  onPath : path.kernelOnPathNs.sum = path.onPathKernelSumNs

/-- The identities of a path. -/
structure Tiles (m : IterationMeasurement) (path : BarrierPath) : Prop where
  wall : path.criticalPathNs + path.idleNs = path.wallNs
  busy : path.criticalBusyNs + path.hiddenSameStreamNs + path.hiddenCrossStreamNs =
    path.onPathKernelSumNs
  critical : path.kernelCriticalNs.length = m.kernels.length ∧
    path.kernelCriticalNs.sum = path.criticalPathNs
  onPath : path.kernelOnPathNs.length = m.kernels.length ∧
    path.kernelOnPathNs.sum = path.onPathKernelSumNs
  /-- From the first start to the last end, where anything was launched. -/
  windows : m.launches = [] ∧ path.segments = [] ∧ path.barriers = [] ∨
    ∃ tBegin tEnd segments last, (m.launches.map KernelLaunch.startNs).min? = some tBegin ∧
      (m.launches.map KernelLaunch.endNs).max? = some tEnd ∧ path.wallNs = tEnd - tBegin ∧
      path.segments = segments ++ [last] ∧ PathTiled tBegin segments path.barriers last.startNs ∧
      last.startNs ≤ last.endNs ∧ last.endNs = tEnd

section tiling

variable {m : IterationMeasurement} {t : PathTiling} {path path' : BarrierPath} {tBegin lo hi : Nat}

theorem wonBy_sums {ranks : List (Int × RankLaunches)} {segment : Segment}
    {attributed : List (Int × Attribution)} (h : Race ranks segment attributed) :
    ((wonBy segment.winner attributed).slices.map Prod.snd).sum =
        (wonBy segment.winner attributed).unionNs ∧
      ((wonBy segment.winner attributed).clipped.map Prod.snd).sum =
        (wonBy segment.winner attributed).unionNs +
          (wonBy segment.winner attributed).hiddenSameStreamNs +
          (wonBy segment.winner attributed).hiddenCrossStreamNs := by
  cases hwon : segment.winner.bind fun device => attributed.lookup device with
  | none =>
    rw [wonBy, hwon]
    exact ⟨rfl, rfl⟩
  | some won =>
    obtain ⟨device, -, hlookup⟩ := Option.bind_eq_some_iff.mp hwon
    obtain ⟨before, after, hsplit, -⟩ := List.lookup_eq_some_iff.mp hlookup
    obtain ⟨rank, -, -, hswept⟩ := exists_swept h.attributed (device, won)
      (hsplit ▸ List.mem_append_right _ List.mem_cons_self)
    rw [wonBy, hwon]
    exact ⟨hswept.slices, hswept.hidden⟩

theorem Accounts.raced {ranks : List (Int × RankLaunches)} {segment : Segment}
    {attributed : List (Int × Attribution)} (h : Accounts m path tBegin segment.startNs)
    (hrace : Race ranks segment attributed)
    (hraced : Raced path path' segment (wonBy segment.winner attributed)) :
    Accounts m path' tBegin segment.endNs := by
  obtain ⟨hslices, hclipped⟩ := wonBy_sums hrace
  obtain ⟨-, -, hcollective, hbusy, honPath, hsame, hcross, hcritical, hkernel⟩ := hraced.charged
  have hle := hrace.le
  have hbefore := h.accounted
  have hidle := hraced.accounted
  refine ⟨⟨hcritical.1.trans h.sized.critical, hkernel.1.trans h.sized.onPath⟩, ?_, ?_, ?_, ?_⟩
  · simp only [BarrierPath.criticalPathNs, Segment.windowNs] at hbefore hidle ⊢
    omega
  · rw [hbusy, honPath, hsame, hcross, hclipped, ← h.busy]
    omega
  · have hsum := h.critical
    simp only [BarrierPath.criticalPathNs] at hsum ⊢
    omega
  · rw [hkernel.2, honPath, h.onPath]

theorem Accounts.passed {barrier : Barrier} (h : Accounts m path tBegin hi)
    (hpassed : Passed path path' barrier) : Accounts m path' tBegin (hi + barrier.netNs) := by
  have hbefore := h.accounted
  have hcritical := h.critical
  refine ⟨⟨hpassed.kernelCritical.1.trans h.sized.critical,
    hpassed.kernelOnPath ▸ h.sized.onPath⟩, ?_, ?_, ?_, ?_⟩
  · simp only [BarrierPath.criticalPathNs, hpassed.criticalBusy, hpassed.collective,
      hpassed.idle] at hbefore ⊢
    omega
  · rw [hpassed.criticalBusy, hpassed.sameStream, hpassed.crossStream, hpassed.onPath, h.busy]
  · simp only [BarrierPath.criticalPathNs, hpassed.criticalBusy, hpassed.collective,
      hpassed.kernelCritical.2] at hcritical ⊢
    omega
  · rw [hpassed.kernelOnPath, hpassed.onPath, h.onPath]

/-- What the tiling knows after some barriers. -/
structure TiledTo (m : IterationMeasurement) (tBegin tEnd wallNs : Nat)
    (state : BarrierPath × Nat) : Prop where
  accounts : Accounts m state.1 tBegin state.2
  windows : PathTiled tBegin state.1.segments state.1.barriers state.2
  wall : state.1.wallNs = wallNs
  le : state.2 ≤ tEnd

theorem RunOf.within {run : Run} {tEnd : Nat} (h : RunOf m run) (hforward : m.Forward)
    (hend : ∀ launch ∈ m.launches, launch.endNs ≤ tEnd) :
    (∃ enter, latest run.firstStart = .ok enter ∧ enter ≤ tEnd) ∧
      ∃ exit, latest run.lastEnd = .ok exit ∧ exit ≤ tEnd := by
  have hlaunches : ∀ launch ∈ run.positions.flatMap m.launchesAt, launch ∈ m.launches := by
    intro launch hmem
    obtain ⟨position, -, hmem⟩ := List.mem_flatMap.mp hmem
    exact launchesAt_subset hmem
  constructor
  · obtain ⟨enter, -, henter, -, -, e, he, hvalue⟩ := latest_ok (firstStarts_ne_nil h.launched)
    obtain ⟨launch, hmem, -, hstart⟩ := Grouped.mem_reduced Grouped.min_picks he
    have hlaunch := hlaunches launch hmem
    refine ⟨enter, h.firstStart ▸ henter, ?_⟩
    calc enter = launch.startNs := hvalue.symm.trans hstart.symm
      _ ≤ launch.endNs := hforward launch hlaunch
      _ ≤ tEnd := hend launch hlaunch
  · obtain ⟨exit, -, hexit, -, -, e, he, hvalue⟩ := latest_ok (lastEnds_ne_nil h.launched)
    obtain ⟨launch, hmem, -, hend'⟩ := Grouped.mem_reduced Grouped.max_picks he
    refine ⟨exit, h.lastEnd ▸ hexit, ?_⟩
    calc exit = launch.endNs := hvalue.symm.trans hend'.symm
      _ ≤ tEnd := hend launch (hlaunches launch hmem)

theorem TiledTo.step {state : BarrierPath × Nat} {run : Run} {tEnd wallNs : Nat}
    (h : TiledTo m tBegin tEnd wallNs state) (hranks : m.Ranks t.ranks) (ht : t.measurement = m)
    (hrun : RunOf m run) (hforward : m.Forward)
    (hend : ∀ launch ∈ m.launches, launch.endNs ≤ tEnd) :
    ∃ state', t.tileStep state run = .ok state' ∧ TiledTo m tBegin tEnd wallNs state' := by
  obtain ⟨⟨enter, henter, henterLe⟩, exit, hexit, hexitLe⟩ := hrun.within hforward hend
  obtain ⟨raced, hracedOk⟩ : ∃ raced, t.raceSegment state.1 state.2 (some run) = .ok raced :=
    raceSegment_ok hranks h.accounts.sized henter
  obtain ⟨enter', segment, attributed, henter', hhi, hlo, hsegmentEnd, hrace, hraced⟩ :=
    PathTiling.raceSegment_spec hracedOk
  obtain rfl := Except.ok.inj (henter.symm.trans henter')
  have haccounts :=
    (hlo ▸ h.accounts : Accounts m state.1 tBegin segment.startNs).raced hrace hraced
  obtain ⟨passed, hpassedOk⟩ := passBarrier_ok ht hrun haccounts.sized raced.2
  obtain ⟨barrier, hbarrierExit, hnet, hcursor, hpassed⟩ := PathTiling.passBarrier_spec hpassedOk
  obtain rfl := Except.ok.inj (hexit.symm.trans hbarrierExit)
  have hnext : passed.2 = segment.endNs + barrier.netNs := by
    rw [hcursor, hnet, hsegmentEnd]
    omega
  refine ⟨passed, bind_eq_ok_iff.mpr ⟨raced, hracedOk, hpassedOk⟩, ?_, ?_, ?_, ?_⟩
  · rw [hnext]
    exact haccounts.passed hpassed
  · rw [hnext, hpassed.segments, hraced.segments, hpassed.barriers, hraced.charged.barriers]
    exact .passed segment barrier h.windows hlo (hlo ▸ hrace.le) (hsegmentEnd ▸ hnet)
  · rw [hpassed.wall, hraced.charged.wall, h.wall]
  · rw [hcursor, hhi]
    exact max_le (max_le h.le henterLe) hexitLe

theorem TiledTo.finish {state : BarrierPath × Nat} {tEnd wallNs : Nat}
    (h : TiledTo m tBegin tEnd wallNs state) (hranks : m.Ranks t.ranks) (ht : t.tEnd = tEnd) :
    ∃ raced segments last, t.raceSegment state.1 state.2 none = .ok raced ∧
      Accounts m raced.1 tBegin tEnd ∧ raced.1.wallNs = wallNs ∧
      raced.1.segments = segments ++ [last] ∧
      PathTiled tBegin segments raced.1.barriers last.startNs ∧ last.startNs ≤ last.endNs ∧
      last.endNs = tEnd := by
  have henter : t.enters none = .ok tEnd := congrArg Except.ok ht
  obtain ⟨raced, hracedOk⟩ : ∃ raced, t.raceSegment state.1 state.2 none = .ok raced :=
    raceSegment_ok hranks h.accounts.sized henter
  obtain ⟨enter, segment, attributed, henter', hhi, hlo, hend, hrace, hraced⟩ :=
    PathTiling.raceSegment_spec hracedOk
  obtain rfl := Except.ok.inj (henter.symm.trans henter')
  have hlast : segment.endNs = tEnd := hend.trans (hhi.trans (Nat.max_eq_right h.le))
  have haccounts :=
    (hlo ▸ h.accounts : Accounts m state.1 tBegin segment.startNs).raced hrace hraced
  refine ⟨raced, state.1.segments, segment, hracedOk, hlast ▸ haccounts,
    hraced.charged.wall.trans h.wall, hraced.segments, ?_, hrace.le, hlast⟩
  rw [hraced.charged.barriers, hlo]
  exact h.windows

theorem tilingOf_ok (hforward : m.Forward) (tEnd : Nat) :
    ∃ tiling, tilingOf m tEnd = .ok tiling ∧ tiling.1.measurement = m ∧ tiling.1.tEnd = tEnd := by
  obtain ⟨trimmed, htrimmed⟩ : ∃ trimmed, m.rawLaunches.mapM m.trimLaunch = .ok trimmed := by
    refine mapM_ok_of_forall fun raw hraw => ?_
    obtain ⟨kernel, launch, hkernel, -, hlaunch, -, heq⟩ :=
      IterationMeasurement.mem_rawLaunches.mp (show (raw.1, raw.2) ∈ m.rawLaunches from hraw)
    have hle : raw.2.startNs ≤ raw.2.endNs := by
      rw [heq]
      exact hforward launch (List.mem_flatMap.mpr ⟨kernel, List.mem_of_getElem? hkernel, hlaunch⟩)
    obtain ⟨free, hfree, ⟨hge, -⟩, -⟩ := m.trimmed_firstFree raw.1 raw.2.stream raw.2.startNs
    unfold IterationMeasurement.trimLaunch
    rw [hfree]
    by_cases hgone : free ≥ raw.2.endNs
    · exact ⟨_, (if_pos hgone).trans (bind_eq_ok_iff.mpr ⟨_, checkedSub_of_le hle, rfl⟩)⟩
    · exact ⟨_, (if_neg hgone).trans (bind_eq_ok_iff.mpr ⟨_, checkedSub_of_le hge, rfl⟩)⟩
  exact ⟨_, bind_eq_ok_iff.mpr ⟨trimmed, htrimmed, rfl⟩, rfl, rfl⟩

end tiling

/-- The path of a forward iteration whose barriers cover every device exists and tiles it. -/
theorem barrier_path_tiles {m : IterationMeasurement} (hforward : m.Forward)
    (hcovers : m.BarriersCover) : ∃ path, barrierPath m = .ok path ∧ Tiles m path := by
  by_cases hnone : m.launches = []
  · -- nothing was launched: an empty path
    refine ⟨_, by rw [barrierPath, hnone]; rfl, ⟨rfl, rfl, ⟨?_, ?_⟩, ⟨?_, ?_⟩,
      .inl ⟨hnone, rfl, rfl⟩⟩⟩
    · exact List.length_replicate
    · exact List.sum_replicate_nat.trans (Nat.mul_zero _)
    · exact List.length_replicate
    · exact List.sum_replicate_nat.trans (Nat.mul_zero _)
  obtain ⟨tBegin, hbegin⟩ : ∃ tBegin, (m.launches.map KernelLaunch.startNs).min? = some tBegin := by
    refine Option.ne_none_iff_exists'.mp fun h => hnone ?_
    exact List.map_eq_nil_iff.mp (List.min?_eq_none_iff.mp h)
  obtain ⟨tEnd, htEnd⟩ : ∃ tEnd, (m.launches.map KernelLaunch.endNs).max? = some tEnd := by
    refine Option.ne_none_iff_exists'.mp fun h => hnone ?_
    exact List.map_eq_nil_iff.mp (List.max?_eq_none_iff.mp h)
  have hend : ∀ launch ∈ m.launches, launch.endNs ≤ tEnd := fun launch hmem =>
    (List.max?_eq_some_iff.mp htEnd).2 _ (List.mem_map_of_mem hmem)
  have hle : tBegin ≤ tEnd := by
    obtain ⟨launch, hmem, rfl⟩ := List.mem_map.mp (List.min?_mem hbegin)
    exact (hforward launch hmem).trans (hend launch hmem)
  obtain ⟨durations, hdurations⟩ : ∃ durations,
      m.launches.mapM (fun launch => checkedSub launch.endNs launch.startNs) = .ok durations :=
    mapM_ok_of_forall fun launch hmem => ⟨_, checkedSub_of_le (hforward launch hmem)⟩
  obtain ⟨runs, hruns, hall⟩ := collectRuns_ok hcovers
  obtain ⟨⟨t, waitNs⟩, ht, hmeasurement, htEnd'⟩ := tilingOf_ok hforward tEnd
  have hranks := IterationMeasurement.tilingOf_ranks ht
  -- the tiling starts with nothing accounted for
  have hstart : TiledTo m tBegin tEnd (tEnd - tBegin) ({
      kernelCriticalNs := List.replicate m.kernels.length 0
      kernelOnPathNs := List.replicate m.kernels.length 0
      wallNs := tEnd - tBegin
      allRankKernelSumNs := durations.sum
      pdlWaitUnderCollectiveNs := waitNs }, tBegin) := by
    refine ⟨⟨⟨List.length_replicate, List.length_replicate⟩, rfl, rfl, ?_, ?_⟩, .start, rfl, hle⟩
    · exact List.sum_replicate_nat.trans (Nat.mul_zero _)
    · exact List.sum_replicate_nat.trans (Nat.mul_zero _)
  obtain ⟨tiled, htiled, hstate⟩ := foldlM_ok_of_invariant (f := t.tileStep) (l := runs)
    (fun run hrun state h => h.step hranks hmeasurement (hall run hrun) hforward hend) hstart
  obtain ⟨raced, segments, last, hraced, haccounts, hwall, hsegments, htiles, hforward', hlast⟩ :=
    hstate.finish hranks htEnd'
  have haccounted := haccounts.accounted
  have hwall' : raced.1.criticalPathNs + raced.1.idleNs = raced.1.wallNs := by omega
  refine ⟨{ raced.1 with criticalRankSwitches := rankSwitches raced.1.segments }, ?_,
    ⟨hwall', haccounts.busy, ⟨haccounts.sized.critical, haccounts.critical⟩,
      ⟨haccounts.sized.onPath, haccounts.onPath⟩, .inr ⟨tBegin, tEnd, segments, last, hbegin,
        htEnd, hwall, hsegments, htiles, hforward', hlast⟩⟩⟩
  have htiling : tileIteration {
      kernelCriticalNs := List.replicate m.kernels.length 0
      kernelOnPathNs := List.replicate m.kernels.length 0
      wallNs := tEnd - tBegin
      allRankKernelSumNs := durations.sum
      pdlWaitUnderCollectiveNs := waitNs } tBegin t runs =
        .ok { raced.1 with criticalRankSwitches := rankSwitches raced.1.segments } :=
    bind_eq_ok_iff.mpr ⟨tiled, htiled, bind_eq_ok_iff.mpr ⟨raced, hraced, rfl⟩⟩
  simp only [barrierPath, hbegin, htEnd]
  exact bind_eq_ok_iff.mpr ⟨_, checkedSub_of_le hle, bind_eq_ok_iff.mpr ⟨_, hdurations,
    bind_eq_ok_iff.mpr ⟨_, hruns, bind_eq_ok_iff.mpr ⟨_, ht, bind_eq_ok_iff.mpr ⟨_, htiling,
      bind_eq_ok_iff.mpr ⟨(), ensure_eq_ok_iff.mpr hwall', rfl⟩⟩⟩⟩⟩⟩

/-- A barrier of two operations that starts inside the one before it, and a straddling launch. -/
def nestedBarriers : IterationMeasurement where
  kernels := [⟨some "attention", false, [⟨0, 0, 4, 0, some 1⟩, ⟨1, 1, 12, 1, none⟩]⟩,
    ⟨some "reduce", true, [⟨0, 4, 10, 0, some 1⟩, ⟨1, 5, 10, 0, some 1⟩]⟩,
    ⟨some "norm", false, [⟨0, 10, 11, 0, some 1⟩]⟩,
    ⟨some "gather", true, [⟨0, 6, 15, 2, some 3⟩, ⟨1, 6, 15, 2, some 3⟩]⟩,
    ⟨some "scatter", true, [⟨0, 15, 18, 2, some 3⟩, ⟨1, 15, 17, 2, some 3⟩]⟩,
    ⟨none, false, [⟨0, 16, 20, 0, some 1⟩]⟩]
  deviceIds := {0, 1}

theorem barrier_path_tiles_nested :
    ∃ path, barrierPath nestedBarriers = .ok path ∧ Tiles nestedBarriers path :=
  barrier_path_tiles (by unfold IterationMeasurement.Forward; decide)
    (by unfold IterationMeasurement.BarriersCover; decide +kernel)

end ServingSim
