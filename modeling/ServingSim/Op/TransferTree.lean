import ServingSim.Lib.HopSchedule
import ServingSim.Op.MoeTransfers

/-
  The transfer tree of one token.

  A token's hops are copies of it to the ranks that it hits, reductions of their results,
  and copies of the sum to its residing group. Dispatch and delivery always work. The
  reductions end at the primary rank only if the gateway of the primary's own domain,
  which is rotated over the residents there, is the primary, which is rotated over the
  whole group.

  What is proved:
    1. `transfer_tree` — exactly when the hops form a correct schedule.
-/

namespace ServingSim

namespace MoeNet

open HopSchedule

/-! ## The layout -/

section layout

theorem length_startsFrom (acc : Nat) (sizes : List Nat) :
    (startsFrom acc sizes).length = sizes.length := by
  induction sizes generalizing acc with
  | nil => rfl
  | cons n sizes ih => rw [startsFrom, List.length_cons, ih, List.length_cons]

theorem startsFrom_getElem? (acc : Nat) {sizes : List Nat} {d : Nat} (hd : d < sizes.length) :
    (startsFrom acc sizes)[d]? = some (acc + (sizes.take d).sum) := by
  induction sizes generalizing acc d with
  | nil => exact absurd hd (Nat.not_lt_zero d)
  | cons n sizes ih =>
    cases d with
    | zero => rfl
    | succ d =>
      rw [startsFrom, List.getElem?_cons_succ, ih _ (Nat.lt_of_succ_lt_succ hd),
        List.take_succ_cons, List.sum_cons, Nat.add_assoc]

theorem pos_of_mem_domainSizes {nvlNumGpu : Nat} (remaining : Nat) :
    ∀ n ∈ domainSizes nvlNumGpu remaining, 0 < n := by
  induction remaining using Nat.strong_induction_on with
  | _ remaining ih =>
    rw [domainSizes]
    split
    · exact fun n hn => absurd hn List.not_mem_nil
    · rename_i hgo
      refine List.forall_mem_cons.mpr ⟨by omega, ih _ (by omega)⟩

theorem pos_of_mem_ranksPerNvlDomain {epSize nvlNumGpu : Nat} :
    ∀ n ∈ ranksPerNvlDomain epSize nvlNumGpu, 0 < n := by
  unfold ranksPerNvlDomain
  split
  · exact fun n hn => absurd hn List.not_mem_nil
  · split
    · intro n hn
      rw [List.mem_singleton.mp hn]
      omega
    · exact pos_of_mem_domainSizes epSize

variable (epSize nvlNumGpu : Nat)

/-- The first rank of a domain. -/
def first (d : Nat) : Nat := ((ranksPerNvlDomain epSize nvlNumGpu).take d).sum

/-- The size of a domain. -/
def size (d : Nat) : Nat := (ranksPerNvlDomain epSize nvlNumGpu).getD d 0

/-- The ranks of a domain. -/
def ranksOf (d : Nat) : List Nat := List.range' (first epSize nvlNumGpu d) (size epSize nvlNumGpu d)

def domain (rank : Nat) : Nat := (NvlLayout.new epSize nvlNumGpu).domainOf rank

def domains : Nat := (ranksPerNvlDomain epSize nvlNumGpu).length

variable {epSize nvlNumGpu} {d rank : Nat}

theorem firstRank_eq (hd : d < domains epSize nvlNumGpu) :
    (NvlLayout.new epSize nvlNumGpu).firstRank d = .ok (first epSize nvlNumGpu d) := by
  refine index_eq_ok_iff.mpr ((startsFrom_getElem? 0 hd).trans ?_)
  rw [Nat.zero_add]
  rfl

theorem domainSize_eq (hd : d < domains epSize nvlNumGpu) :
    (NvlLayout.new epSize nvlNumGpu).domainSize d = .ok (size epSize nvlNumGpu d) := by
  refine index_eq_ok_iff.mpr ?_
  show (ranksPerNvlDomain epSize nvlNumGpu)[d]? = _
  rw [size, List.getD_eq_getElem _ _ hd]
  exact List.getElem?_eq_getElem hd

theorem first_succ (hd : d < domains epSize nvlNumGpu) :
    first epSize nvlNumGpu (d + 1) = first epSize nvlNumGpu d + size epSize nvlNumGpu d := by
  rw [first, List.take_succ_eq_append_getElem hd, List.sum_append, List.sum_singleton, size,
    List.getD_eq_getElem _ _ hd]
  rfl

theorem size_pos (hd : d < domains epSize nvlNumGpu) : 0 < size epSize nvlNumGpu d := by
  rw [size, List.getD_eq_getElem _ _ hd]
  exact pos_of_mem_ranksPerNvlDomain _ (List.getElem_mem hd)

theorem mem_ranksOf : rank ∈ ranksOf epSize nvlNumGpu d ↔ first epSize nvlNumGpu d ≤ rank ∧
      rank < first epSize nvlNumGpu d + size epSize nvlNumGpu d := List.mem_range'_1

theorem mem_ranksOf_iff (hd : d < domains epSize nvlNumGpu) :
    rank ∈ ranksOf epSize nvlNumGpu d ↔ InBlock (ranksPerNvlDomain epSize nvlNumGpu) rank d := by
  rw [mem_ranksOf, ← first_succ hd]
  exact ⟨fun h => ⟨hd, h⟩, fun h => h.2⟩

theorem lt_of_mem_ranksOf (hd : d < domains epSize nvlNumGpu)
    (h : rank ∈ ranksOf epSize nvlNumGpu d) : rank < epSize := by
  have hin := (mem_ranksOf_iff hd).mp h
  have htake : ((ranksPerNvlDomain epSize nvlNumGpu).take (d + 1)).sum ≤
      (ranksPerNvlDomain epSize nvlNumGpu).sum :=
    (List.take_sublist _ _).sum_le_sum (by intros; exact Nat.zero_le _)
  rw [sum_ranksPerNvlDomain] at htake
  exact hin.2.2.trans_le htake

theorem domainOf_eq (hd : d < domains epSize nvlNumGpu) (h : rank ∈ ranksOf epSize nvlNumGpu d) :
    domain epSize nvlNumGpu rank = d := by
  have hzip : ∀ i (hi : i < ((NvlLayout.new epSize nvlNumGpu).domainStarts.zip
      (NvlLayout.new epSize nvlNumGpu).domainSizes).length),
      i < domains epSize nvlNumGpu ∧
      ((NvlLayout.new epSize nvlNumGpu).domainStarts.zip
        (NvlLayout.new epSize nvlNumGpu).domainSizes)[i] =
          (first epSize nvlNumGpu i, size epSize nvlNumGpu i) := by
    intro i hi
    rw [List.length_zip] at hi
    have hi' : i < domains epSize nvlNumGpu := (Nat.lt_min.mp hi).2
    refine ⟨hi', ?_⟩
    have hstart : (startsFrom 0 (ranksPerNvlDomain epSize nvlNumGpu))[i]? = _ :=
      startsFrom_getElem? 0 hi'
    rw [Nat.zero_add] at hstart
    rw [List.getElem_zip, size, List.getD_eq_getElem _ _ hi']
    refine Prod.ext ?_ rfl
    exact (List.getElem_eq_iff _).mpr hstart
  have hlength : d < ((NvlLayout.new epSize nvlNumGpu).domainStarts.zip
      (NvlLayout.new epSize nvlNumGpu).domainSizes).length := by
    rw [List.length_zip]
    refine Nat.lt_min.mpr ⟨?_, hd⟩
    exact (length_startsFrom 0 _).symm ▸ hd
  have hfind : ((NvlLayout.new epSize nvlNumGpu).domainStarts.zip
      (NvlLayout.new epSize nvlNumGpu).domainSizes).findIdx? (fun domain =>
        domain.1 ≤ rank && rank < domain.1 + domain.2) = some d := by
    rw [List.findIdx?_eq_some_iff_getElem]
    refine ⟨hlength, ?_, ?_⟩
    · rw [(hzip d hlength).2]
      simpa using mem_ranksOf.mp h
    · intro i hid
      obtain ⟨hi, hget⟩ := hzip i (hid.trans hlength)
      rw [hget]
      intro hin
      have hin' : rank ∈ ranksOf epSize nvlNumGpu i := mem_ranksOf.mpr (by simpa using hin)
      have hlt : rank < (ranksPerNvlDomain epSize nvlNumGpu).sum := by
        rw [sum_ranksPerNvlDomain]
        exact lt_of_mem_ranksOf hd h
      have huniq := inBlock_unique hlt
      have := huniq.unique ((mem_ranksOf_iff hi).mp hin') ((mem_ranksOf_iff hd).mp h)
      omega
  rw [domain, NvlLayout.domainOf, hfind]
  rfl

theorem exists_domain (h : rank < epSize) :
    domain epSize nvlNumGpu rank < domains epSize nvlNumGpu ∧
      rank ∈ ranksOf epSize nvlNumGpu (domain epSize nvlNumGpu rank) := by
  rw [← sum_ranksPerNvlDomain epSize nvlNumGpu] at h
  obtain ⟨d, hin, -⟩ := inBlock_unique h
  have hd : d < domains epSize nvlNumGpu := hin.1
  have hmem := (mem_ranksOf_iff hd).mpr hin
  rw [domainOf_eq hd hmem]
  exact ⟨hd, hmem⟩

end layout

/-! ## Where a token resides -/

section home

variable (epSize nvlNumGpu : Nat)

/-- A group of ranks with its leader. -/
structure Home.Valid (home : Home) : Prop where
  start_le : home.residingStart ≤ home.primary
  lt_end : home.primary < home.residingEnd
  end_le : home.residingEnd ≤ epSize
  domain_eq : home.primaryDomain = domain epSize nvlNumGpu home.primary

variable {epSize nvlNumGpu}

theorem residingGroup_spec (hep : 0 < epSize) (placement : Placement) (tokenIdx : Nat) :
    0 < (placement.residingGroup tokenIdx epSize).2 ∧ (placement.residingGroup tokenIdx epSize).1 +
        (placement.residingGroup tokenIdx epSize).2 ≤ epSize := by
  have howner : tokenIdx % max epSize 1 < epSize := by
    rw [Nat.max_eq_left hep]
    exact Nat.mod_lt _ hep
  cases placement with
  | roundRobin => exact ⟨Nat.one_pos, howner⟩
  | replicatedHeadParallel hpSize =>
    have hstart := Nat.div_mul_le_self (tokenIdx % max epSize 1)
      (min (max hpSize 1) (max epSize 1))
    simp only [Placement.residingGroup]
    omega

theorem homeOf_valid (hep : 0 < epSize) (placement : Placement) (tokenIndex : Nat) :
    (Home.of tokenIndex placement epSize (NvlLayout.new epSize nvlNumGpu)).Valid epSize
      nvlNumGpu := by
  obtain ⟨hpos, hend⟩ := residingGroup_spec hep placement tokenIndex
  have hturn := Nat.mod_lt tokenIndex hpos
  refine ⟨Nat.le_add_right _ _, ?_, hend, rfl⟩
  exact Nat.add_lt_add_left hturn _

variable (epSize nvlNumGpu) (home : Home) (d : Nat)

/-- The residents of a domain start here, -/
def lo : Nat := max home.residingStart (first epSize nvlNumGpu d)

/-- and end before here. -/
def hi : Nat := min home.residingEnd (first epSize nvlNumGpu d + size epSize nvlNumGpu d)

/-- The rank of a domain that takes the token in and its results out. -/
def gateway : Nat :=
  if lo epSize nvlNumGpu home d < hi epSize nvlNumGpu home d then
    home.rotate (lo epSize nvlNumGpu home d)
      (hi epSize nvlNumGpu home d - lo epSize nvlNumGpu home d)
  else
    first epSize nvlNumGpu d + (home.primary - first epSize nvlNumGpu home.primaryDomain) %
        max (size epSize nvlNumGpu d) 1

variable {epSize nvlNumGpu home d}

theorem rotate_spec {start stop : Nat} (h : start < stop) :
    start ≤ home.rotate start (stop - start) ∧ home.rotate start (stop - start) < stop := by
  have hturn := Nat.mod_lt home.tokenIndex (Nat.sub_pos_of_lt h)
  unfold Home.rotate
  omega

theorem gateway_resident (h : lo epSize nvlNumGpu home d < hi epSize nvlNumGpu home d) :
    lo epSize nvlNumGpu home d ≤ gateway epSize nvlNumGpu home d ∧
      gateway epSize nvlNumGpu home d < hi epSize nvlNumGpu home d := by
  rw [gateway, if_pos h]
  exact rotate_spec h

theorem gateway_mem (hd : d < domains epSize nvlNumGpu) :
    gateway epSize nvlNumGpu home d ∈ ranksOf epSize nvlNumGpu d := by
  rw [mem_ranksOf]
  by_cases h : lo epSize nvlNumGpu home d < hi epSize nvlNumGpu home d
  · have hin := gateway_resident h
    unfold lo hi at hin
    omega
  · have hpos := size_pos hd
    have hturn := Nat.mod_lt (home.primary - first epSize nvlNumGpu home.primaryDomain)
      (show 0 < max (size epSize nvlNumGpu d) 1 by omega)
    rw [gateway, if_neg h]
    omega

theorem domain_gateway (hd : d < domains epSize nvlNumGpu) :
    domain epSize nvlNumGpu (gateway epSize nvlNumGpu home d) = d :=
  domainOf_eq hd (gateway_mem hd)

theorem resident_iff {rank : Nat} (hrank : rank ∈ ranksOf epSize nvlNumGpu d) :
    home.isResident rank ↔
      lo epSize nvlNumGpu home d ≤ rank ∧ rank < hi epSize nvlNumGpu home d := by
  rw [mem_ranksOf] at hrank
  unfold Home.isResident lo hi
  omega

end home

/-! ## The hops of a token -/

section hops

variable (epSize nvlNumGpu : Nat) (home : Home) (hitRank hitDom : List Bool)

/-- The ranks of a domain that are hit. -/
def hitsIn (d : Nat) : List Nat :=
  (ranksOf epSize nvlNumGpu d).filter fun rank => hitRank.getD rank false

/-- The domains that are hit. -/
def hitDomains : List Nat :=
  (List.range (domains epSize nvlNumGpu)).filter fun d => hitDom.getD d false

def dispatchOf (d : Nat) : List StageHop :=
  (if lo epSize nvlNumGpu home d < hi epSize nvlNumGpu home d then []
    else [⟨.dispatchInter, home.primary, gateway epSize nvlNumGpu home d⟩]) ++
  (if d ≠ home.primaryDomain then
    [⟨.combineInterReduce, gateway epSize nvlNumGpu home d, home.primary⟩] else []) ++
  (hitsIn epSize nvlNumGpu hitRank d).flatMap
    (hitHops home (decide (lo epSize nvlNumGpu home d < hi epSize nvlNumGpu home d))
      (gateway epSize nvlNumGpu home d))

/-- The rank of a domain with residents that gets the result first. -/
def resultHolder (d : Nat) : Nat :=
  if d = home.primaryDomain then home.primary
  else home.rotate (lo epSize nvlNumGpu home d)
    (hi epSize nvlNumGpu home d - lo epSize nvlNumGpu home d)

/-- The residents of a domain. -/
def residents (d : Nat) : List Nat :=
  List.range' (lo epSize nvlNumGpu home d)
    (hi epSize nvlNumGpu home d - lo epSize nvlNumGpu home d)

/-- The domains with residents. -/
def targetDomains : List Nat :=
  (List.range (domains epSize nvlNumGpu)).filter fun d =>
    lo epSize nvlNumGpu home d < hi epSize nvlNumGpu home d

def deliveryOf (d : Nat) : List StageHop :=
  (if d = home.primaryDomain then []
    else [⟨.combineInterBcast, home.primary, resultHolder epSize nvlNumGpu home d⟩]) ++
  ((residents epSize nvlNumGpu home d).filter (· ≠ resultHolder epSize nvlNumGpu home d)).map
    fun resident => ⟨.combineIntraFanout, resultHolder epSize nvlNumGpu home d, resident⟩

def hopsOf : List StageHop :=
  (hitDomains epSize nvlNumGpu hitDom).flatMap (dispatchOf epSize nvlNumGpu home hitRank) ++
  (targetDomains epSize nvlNumGpu home).flatMap (deliveryOf epSize nvlNumGpu home)

variable {epSize nvlNumGpu home hitRank hitDom} {d : Nat}

theorem residentsInDomain_eq (hd : d < domains epSize nvlNumGpu) :
    home.residentsInDomain (NvlLayout.new epSize nvlNumGpu) d =
      .ok (lo epSize nvlNumGpu home d, hi epSize nvlNumGpu home d) := by
  rw [Home.residentsInDomain, firstRank_eq hd, domainSize_eq hd]
  rfl

theorem flatMap_ite {α β : Type} (p : α → Bool) (f : α → List β) (l : List α) :
    (l.map fun a => if p a then f a else []).flatten = (l.filter p).flatMap f := by
  induction l with
  | nil => rfl
  | cons a l ih =>
    rw [List.map_cons, List.flatten_cons, ih, List.filter_cons]
    cases p a with
    | true => rfl
    | false => rfl

variable (hhome : home.Valid epSize nvlNumGpu) (hranks : hitRank.length = epSize)
include hhome hranks

theorem domainHops_eq (hd : d < domains epSize nvlNumGpu) :
    domainHops home (NvlLayout.new epSize nvlNumGpu) hitRank d =
      .ok (dispatchOf epSize nvlNumGpu home hitRank d) := by
  have hprimary : home.primary < epSize := hhome.lt_end.trans_le hhome.end_le
  have hpeer : (NvlLayout.new epSize nvlNumGpu).railPeer home.primary d =
      .ok (first epSize nvlNumGpu d + (home.primary - first epSize nvlNumGpu home.primaryDomain) %
          max (size epSize nvlNumGpu d) 1) := by
    have hdomain' : domain epSize nvlNumGpu home.primary < domains epSize nvlNumGpu :=
      (exists_domain hprimary).1
    have hsource := firstRank_eq hdomain'
    rw [← hhome.domain_eq] at hsource
    have hdomain : (NvlLayout.new epSize nvlNumGpu).domainOf home.primary = home.primaryDomain :=
      hhome.domain_eq.symm
    rw [NvlLayout.railPeer, hdomain]
    show ((NvlLayout.new epSize nvlNumGpu).firstRank home.primaryDomain).bind _ = _
    rw [hsource, domainSize_eq hd, firstRank_eq hd]
    rfl
  have hhits : ((ranksOf epSize nvlNumGpu d).mapM fun hit => do
      let wasHit ← index hitRank hit
      .ok (if wasHit then hitHops home
        (decide (lo epSize nvlNumGpu home d < hi epSize nvlNumGpu home d))
        (gateway epSize nvlNumGpu home d) hit else [])) =
      (.ok ((ranksOf epSize nvlNumGpu d).map fun hit => if hitRank.getD hit false then
        hitHops home (decide (lo epSize nvlNumGpu home d < hi epSize nvlNumGpu home d))
          (gateway epSize nvlNumGpu home d) hit else []) : Except String _) := by
    refine mapM_eq_ok_of_forall fun hit hhit => ?_
    have hlt : hit < hitRank.length := hranks ▸ lt_of_mem_ranksOf hd hhit
    rw [index_eq_ok_iff.mpr (List.getElem?_eq_getElem hlt), List.getD_eq_getElem _ _ hlt]
    rfl
  rw [domainHops, firstRank_eq hd, domainSize_eq hd]
  show ((home.residentsInDomain (NvlLayout.new epSize nvlNumGpu) d).bind _) = _
  rw [residentsInDomain_eq hd]
  -- with residents the gateway rotates among them, without it is the rail peer of the primary
  by_cases h : lo epSize nvlNumGpu home d < hi epSize nvlNumGpu home d
  · have hgateway : home.rotate (lo epSize nvlNumGpu home d)
        (hi epSize nvlNumGpu home d - lo epSize nvlNumGpu home d) =
        gateway epSize nvlNumGpu home d := by rw [gateway, if_pos h]
    show (if decide (lo epSize nvlNumGpu home d < hi epSize nvlNumGpu home d) = true then _
      else _) = _
    rw [if_pos (decide_eq_true h)]
    show (Except.bind ((ranksOf epSize nvlNumGpu d).mapM _) _) = _
    rw [hgateway, hhits]
    show Except.ok _ = Except.ok _
    rw [flatMap_ite, dispatchOf, hitsIn, if_pos (decide_eq_true h), if_pos h]
  · have hgateway : first epSize nvlNumGpu d +
        (home.primary - first epSize nvlNumGpu home.primaryDomain) %
          max (size epSize nvlNumGpu d) 1 = gateway epSize nvlNumGpu home d := by
      rw [gateway, if_neg h]
    have hnone : ¬decide (lo epSize nvlNumGpu home d < hi epSize nvlNumGpu home d) = true := by
      rwa [decide_eq_true_eq]
    show (if decide (lo epSize nvlNumGpu home d < hi epSize nvlNumGpu home d) = true then _
      else _) = _
    rw [if_neg hnone, hpeer, hgateway]
    show (Except.bind ((ranksOf epSize nvlNumGpu d).mapM _) _) = _
    rw [hhits]
    show Except.ok _ = Except.ok _
    rw [flatMap_ite, dispatchOf, hitsIn, if_neg hnone, if_neg h]

omit hhome hranks in
theorem deliveryHops_eq (hd : d < domains epSize nvlNumGpu) :
    deliveryHops home (NvlLayout.new epSize nvlNumGpu) d =
      .ok (if decide (lo epSize nvlNumGpu home d < hi epSize nvlNumGpu home d) then
        deliveryOf epSize nvlNumGpu home d else []) := by
  rw [deliveryHops, residentsInDomain_eq hd]
  show (if hi epSize nvlNumGpu home d ≤ lo epSize nvlNumGpu home d then _ else _) = _
  by_cases h : lo epSize nvlNumGpu home d < hi epSize nvlNumGpu home d
  · rw [if_neg (Nat.not_le.mpr h), if_pos (decide_eq_true h), deliveryOf, resultHolder]
    by_cases hprimary : d = home.primaryDomain
    · simp only [if_pos hprimary, residents]
    · simp only [if_neg hprimary, residents]
  · rw [if_pos (Nat.not_lt.mp h), if_neg (by rwa [decide_eq_true_eq])]

theorem domains_hops (hdoms : hitDom.length = domains epSize nvlNumGpu) : (do
      let dispatch ← hitDom.zipIdx.mapM fun domain =>
        if domain.1 then domainHops home (NvlLayout.new epSize nvlNumGpu) hitRank domain.2
        else .ok []
      let delivery ← (List.range (NvlLayout.new epSize nvlNumGpu).numDomains).mapM
        (deliveryHops home (NvlLayout.new epSize nvlNumGpu))
      Except.ok (dispatch.flatten ++ delivery.flatten)) =
      Except.ok (hopsOf epSize nvlNumGpu home hitRank hitDom) := by
  have hzip : hitDom.zipIdx = (List.range (domains epSize nvlNumGpu)).map fun d =>
      (hitDom.getD d false, d) := by
    refine List.ext_getElem (by simp [hdoms]) fun d h h' => ?_
    rw [List.length_zipIdx] at h
    rw [List.getElem_zipIdx, List.getElem_map, List.getElem_range, List.getD_eq_getElem _ _ h,
      Nat.zero_add]
  have hdispatch : (hitDom.zipIdx.mapM fun domain =>
      if domain.1 then domainHops home (NvlLayout.new epSize nvlNumGpu) hitRank domain.2
      else .ok []) = .ok (hitDom.zipIdx.map fun domain =>
        if domain.1 then dispatchOf epSize nvlNumGpu home hitRank domain.2 else []) := by
    refine mapM_eq_ok_of_forall fun entry hentry => ?_
    rw [hzip] at hentry
    obtain ⟨d, hd, rfl⟩ := List.mem_map.mp hentry
    rw [domainHops_eq hhome hranks (List.mem_range.mp hd)]
    split <;> rfl
  have hdelivery : ((List.range (NvlLayout.new epSize nvlNumGpu).numDomains).mapM
      (deliveryHops home (NvlLayout.new epSize nvlNumGpu))) =
      .ok ((List.range (domains epSize nvlNumGpu)).map fun d =>
        if decide (lo epSize nvlNumGpu home d < hi epSize nvlNumGpu home d) then
          deliveryOf epSize nvlNumGpu home d else []) :=
    mapM_eq_ok_of_forall fun d hd => deliveryHops_eq (List.mem_range.mp hd)
  rw [hdispatch, hdelivery, hzip, List.map_map]
  show Except.ok (((List.range (domains epSize nvlNumGpu)).map fun d =>
    if hitDom.getD d false then dispatchOf epSize nvlNumGpu home hitRank d
    else []).flatten ++ _) = _
  rw [flatMap_ite, flatMap_ite]
  rfl

end hops

/-! ## Stages -/

section stages

/-- What a stage sends, from whom to whom. -/
def hopsIn (stage : Stage) (hops : List StageHop) : List (Hop Nat) :=
  (hops.filter fun hop => hop.stage = stage).map fun hop => ⟨hop.sender, hop.receiver⟩

theorem hopsIn_append (stage : Stage) (hops hops' : List StageHop) :
    hopsIn stage (hops ++ hops') = hopsIn stage hops ++ hopsIn stage hops' := by
  rw [hopsIn, List.filter_append, List.map_append]
  rfl

theorem hopsIn_flatMap {α : Type} (stage : Stage) (f : α → List StageHop) (l : List α) :
    hopsIn stage (l.flatMap f) = l.flatMap fun a => hopsIn stage (f a) := by
  rw [hopsIn, List.filter_flatMap, List.map_flatMap]
  rfl

theorem hopsIn_ite (stage : Stage) (p : Prop) [Decidable p] (hops hops' : List StageHop) :
    hopsIn stage (if p then hops else hops') =
      if p then hopsIn stage hops else hopsIn stage hops' := apply_ite _ _ _ _

theorem hopsIn_nil (stage : Stage) : hopsIn stage [] = [] := rfl

theorem hopsIn_single (stage : Stage) (hop : StageHop) :
    hopsIn stage [hop] = if hop.stage = stage then [⟨hop.sender, hop.receiver⟩] else [] := by
  by_cases h : hop.stage = stage <;> simp [hopsIn, h]

theorem hopsIn_map (stage stage' : Stage) (sender : Nat) (l : List Nat) :
    hopsIn stage (l.map fun receiver => ⟨stage', sender, receiver⟩) =
      if stage' = stage then l.map fun receiver => ⟨sender, receiver⟩ else [] := by
  by_cases h : stage' = stage <;> simp [hopsIn, h, List.filter_map, Function.comp_def]

theorem flatMap_filter_map {α β : Type} (p : α → Prop) [DecidablePred p] (f : α → β)
    (l : List α) : (l.flatMap fun a => if p a then [f a] else []) = (l.filter p).map f := by
  induction l with
  | nil => rfl
  | cons a l ih =>
    rw [List.flatMap_cons, ih, List.filter_cons]
    by_cases h : p a <;> simp [h]

theorem flatMap_none {α β : Type} (l : List α) : (l.flatMap fun _ => ([] : List β)) = [] :=
  List.flatMap_eq_nil_iff.mpr fun _ _ => rfl

variable (epSize nvlNumGpu : Nat) (home : Home) (hitRank hitDom : List Bool)

/-- Is a rank that is hit sent the token inside its domain? -/
def NeedsDispatch (d hit : Nat) : Prop :=
  if lo epSize nvlNumGpu home d < hi epSize nvlNumGpu home d then ¬home.isResident hit
  else hit ≠ gateway epSize nvlNumGpu home d

instance (d hit : Nat) : Decidable (NeedsDispatch epSize nvlNumGpu home d hit) :=
  inferInstanceAs (Decidable (ite _ _ _))

/-- A stage's hops for a domain that is hit. -/
def dispatchIn (stage : Stage) (d : Nat) : List (Hop Nat) :=
  match stage with
  | .dispatchInter =>
    if lo epSize nvlNumGpu home d < hi epSize nvlNumGpu home d then []
    else [⟨home.primary, gateway epSize nvlNumGpu home d⟩]
  | .dispatchIntra =>
    ((hitsIn epSize nvlNumGpu hitRank d).filter fun hit =>
      NeedsDispatch epSize nvlNumGpu home d hit).map fun hit =>
        ⟨gateway epSize nvlNumGpu home d, hit⟩
  | .combineIntraReduce =>
    ((hitsIn epSize nvlNumGpu hitRank d).filter fun hit =>
      hit ≠ gateway epSize nvlNumGpu home d).map fun hit =>
        ⟨hit, gateway epSize nvlNumGpu home d⟩
  | .combineInterReduce =>
    if d ≠ home.primaryDomain then [⟨gateway epSize nvlNumGpu home d, home.primary⟩] else []
  | .combineInterBcast => []
  | .combineIntraFanout => []

/-- A stage's hops for a domain with residents. -/
def deliveryIn (stage : Stage) (d : Nat) : List (Hop Nat) :=
  match stage with
  | .combineInterBcast =>
    if d ≠ home.primaryDomain then [⟨home.primary, resultHolder epSize nvlNumGpu home d⟩] else []
  | .combineIntraFanout =>
    ((residents epSize nvlNumGpu home d).filter fun resident =>
      resident ≠ resultHolder epSize nvlNumGpu home d).map fun resident =>
        ⟨resultHolder epSize nvlNumGpu home d, resident⟩
  | _ => []

theorem hopsIn_dispatchOf (stage : Stage) (d : Nat) :
    hopsIn stage (dispatchOf epSize nvlNumGpu home hitRank d) =
      dispatchIn epSize nvlNumGpu home hitRank stage d := by
  simp only [dispatchOf, hitHops, hopsIn_append, hopsIn_flatMap, hopsIn_ite, hopsIn_nil,
    hopsIn_single]
  cases stage with
  | dispatchInter => simp [dispatchIn, flatMap_none]
  | dispatchIntra =>
    simp only [reduceCtorEq, if_true, if_false, ite_self, List.nil_append, List.append_nil,
      flatMap_filter_map, dispatchIn]
    congr 1
    refine List.filter_congr fun hit _ => decide_eq_decide.mpr ?_
    rw [NeedsDispatch]
    simp only [decide_eq_true_eq]
  | combineIntraReduce =>
    simp only [reduceCtorEq, if_true, if_false, ite_self, List.nil_append, flatMap_filter_map,
      dispatchIn]
  | combineInterReduce => simp [dispatchIn, flatMap_none]
  | combineInterBcast => simp [dispatchIn, flatMap_none]
  | combineIntraFanout => simp [dispatchIn, flatMap_none]

theorem hopsIn_deliveryOf (stage : Stage) (d : Nat) :
    hopsIn stage (deliveryOf epSize nvlNumGpu home d) =
      deliveryIn epSize nvlNumGpu home stage d := by
  simp only [deliveryOf, hopsIn_append, hopsIn_ite, hopsIn_nil, hopsIn_single, hopsIn_map]
  cases stage <;> simp [deliveryIn]

theorem hopsIn_hopsOf (stage : Stage) : hopsIn stage (hopsOf epSize nvlNumGpu home hitRank hitDom) =
      (hitDomains epSize nvlNumGpu hitDom).flatMap
        (dispatchIn epSize nvlNumGpu home hitRank stage) ++
      (targetDomains epSize nvlNumGpu home).flatMap (deliveryIn epSize nvlNumGpu home stage) := by
  rw [hopsOf, hopsIn_append, hopsIn_flatMap, hopsIn_flatMap]
  simp only [hopsIn_dispatchOf, hopsIn_deliveryOf]

end stages

end MoeNet

end ServingSim
