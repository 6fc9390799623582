import ServingSim.Op.TokenDelivery

/-
  What the six stages account for.

  A simulation adds up the hops of its tokens, so what a stage sends is what it receives,
  inside the domains or between them as its tier says. Where a token has a single home, the
  hops of a reduction are those of the dispatch, the other way round, and nothing is
  delivered.

  What is proved:
    1. `stage_accounting` — the accounts of the six stages.
-/

namespace ServingSim

namespace MoeNet

open HopSchedule

/-! ## Hops of a simulation -/

/-- The hops of the tokens of a simulation. -/
def simulatedHops (ppm : List Nat) (topK : Nat) (params : MoeNetParams) (placement : Placement)
    (nTokens : Nat) (seed : SplitMix.Word) : Except String (List StageHop) :=
  if params.epSize = 0 ∨ params.hiddenBytes = 0 ∨ ppm = [] ∨ nTokens = 0 then .ok []
  else do
    let layout := NvlLayout.new params.epSize params.nvlNumGpu
    let routed ← forEachRoutedToken ppm topK params.epSize params.nvlNumGpu nTokens
      (RoutingRng.new seed)
    let hops ← routed.1.zipIdx.mapM fun token =>
      tokenHops token.2 token.1.hitRank token.1.hitDom placement params.epSize layout
    .ok hops.flatten

open SystematicCells in
/-- The tokens of a feasible distribution, with masks of the run's size. -/
theorem forEachRoutedToken_masks {ppm : List Nat} {topK : Nat} (htop : topK ≤ ppm.length)
    (hsum : ppm.sum = totalPpm) (hfeasible : ∀ mass ∈ ppm, topK * mass ≤ totalPpm)
    {epSize : Nat} (hep : 0 < epSize) (nvlNumGpu nTokens : Nat) (seed : SplitMix.Word) :
    ∃ tokens rng, forEachRoutedToken ppm topK epSize nvlNumGpu nTokens (RoutingRng.new seed) =
        .ok (tokens, rng) ∧
      ∀ token ∈ tokens, token.hitRank.length = epSize ∧
        token.hitDom.length = domains epSize nvlNumGpu := by
  have hlength : (balancedExpertCounts ppm.length epSize).length = epSize :=
    length_balancedExpertCounts
  have hsplit : (balancedExpertCounts ppm.length epSize).sum = ppm.length :=
    sum_balancedExpertCounts hep
  have hdomains := sum_ranksPerNvlDomain epSize nvlNumGpu
  obtain ⟨expertRank, hfill, hexpertRank⟩ := fillOwners_spec hsplit
  obtain ⟨rankDomain, hfill', hrankDomain⟩ := fillOwners_spec hdomains
  obtain ⟨order, cells, rng, hperm, hcells, hnew⟩ :=
    new_spec htop hsum hfeasible (RoutingRng.new seed)
  obtain ⟨built, hbuilt, h⟩ := ofOrder_exact hperm hsum hfeasible
  obtain rfl : cells = built := Except.ok.inj (hcells.symm.trans hbuilt)
  obtain ⟨-, -, tokens, rng', -, hroute, -, -, -, -, -, himages⟩ :=
    routeTokens_spec h hsplit (hdomains.trans hlength.symm) hexpertRank
      (fun i hi => hrankDomain i (hlength ▸ hi)) nTokens
          (List.replicate cells.upperOffsets.length 0) rng List.length_replicate
  refine ⟨tokens, rng', ?_, fun token htoken => ?_⟩
  · refine bind_eq_ok_iff.mpr ⟨_, hfill, ?_⟩
    refine bind_eq_ok_iff.mpr ⟨_, hfill', ?_⟩
    refine bind_eq_ok_iff.mpr ⟨_, hnew, ?_⟩
    rw [hlength] at hroute
    exact hroute
  · exact ⟨(himages token htoken).ranks.trans hlength, (himages token htoken).domains⟩

section run

variable (params : MoeNetParams) (placement : Placement)

/-- The hops of one routed token. -/
def hopsOfToken (token : RoutedToken × Nat) : List StageHop :=
  hopsOf params.epSize params.nvlNumGpu
    (Home.of token.2 placement params.epSize (NvlLayout.new params.epSize params.nvlNumGpu))
    token.1.hitRank token.1.hitDom

variable {params placement}

theorem priceToken_eq (hep : 0 < params.epSize) {token : RoutedToken × Nat}
    (hranks : token.1.hitRank.length = params.epSize)
    (hdoms : token.1.hitDom.length = domains params.epSize params.nvlNumGpu) (steps : Steps) :
    priceToken token.2 token.1.hitRank token.1.hitDom placement params.epSize params.hiddenBytes
      (NvlLayout.new params.epSize params.nvlNumGpu) steps =
      (hopsOfToken params placement token).foldlM (charge params.hiddenBytes) steps := by
  rw [priceToken, tokenHops_eq hep placement token.2 hranks hdoms]
  rfl

theorem priceTokens_eq (hep : 0 < params.epSize) {tokens : List (RoutedToken × Nat)}
    (hmasks : ∀ token ∈ tokens, token.1.hitRank.length = params.epSize ∧
      token.1.hitDom.length = domains params.epSize params.nvlNumGpu) (steps : Steps) :
    tokens.foldlM (fun steps token => priceToken token.2 token.1.hitRank token.1.hitDom placement
      params.epSize params.hiddenBytes (NvlLayout.new params.epSize params.nvlNumGpu) steps) steps =
      (tokens.flatMap (hopsOfToken params placement)).foldlM (charge params.hiddenBytes) steps := by
  induction tokens generalizing steps with
  | nil => rfl
  | cons token tokens ih =>
    obtain ⟨hhead, hrest⟩ := List.forall_mem_cons.mp hmasks
    rw [List.foldlM_cons, priceToken_eq hep hhead.1 hhead.2, List.flatMap_cons, List.foldlM_append]
    exact congrArg _ (funext fun steps => ih hrest steps)

variable (params placement) in
/-- A simulation charges the hops of its tokens. -/
theorem simulateOnce_eq {ppm : List Nat} {topK : Nat} (htop : topK ≤ ppm.length)
    (hsum : ppm.sum = totalPpm) (hfeasible : ∀ mass ∈ ppm, topK * mass ≤ totalPpm)
    (nTokens : Nat) (seed : SplitMix.Word) :
    ∃ tokens : List (RoutedToken × Nat), (tokens = [] ∨ 0 < params.epSize) ∧
      simulatedHops ppm topK params placement nTokens seed =
        .ok (tokens.flatMap (hopsOfToken params placement)) ∧
      simulateOnce ppm topK params placement nTokens seed =
        (tokens.flatMap (hopsOfToken params placement)).foldlM (charge params.hiddenBytes)
          fun stage => MoeStep.empty stage params.epSize := by
  by_cases hnone : params.epSize = 0 ∨ params.hiddenBytes = 0 ∨ ppm = [] ∨ nTokens = 0
  · exact ⟨[], .inl rfl, if_pos hnone, if_pos hnone⟩
  · have hep : 0 < params.epSize := Nat.pos_of_ne_zero fun h => hnone (.inl h)
    obtain ⟨tokens, rng, hroute, hmasks⟩ := forEachRoutedToken_masks htop hsum hfeasible hep
      params.nvlNumGpu nTokens seed
    have hmasks' : ∀ token ∈ tokens.zipIdx, token.1.hitRank.length = params.epSize ∧
        token.1.hitDom.length = domains params.epSize params.nvlNumGpu := fun token htoken =>
      hmasks token.1 (List.fst_mem_of_mem_zipIdx htoken)
    refine ⟨tokens.zipIdx, .inr hep, ?_, ?_⟩
    · have hhops : tokens.zipIdx.mapM (fun token => tokenHops token.2 token.1.hitRank
          token.1.hitDom placement params.epSize
          (NvlLayout.new params.epSize params.nvlNumGpu)) =
          .ok (tokens.zipIdx.map (hopsOfToken params placement)) :=
        mapM_eq_ok_of_forall fun token htoken =>
          tokenHops_eq hep placement token.2 (hmasks' token htoken).1 (hmasks' token htoken).2
      rw [simulatedHops, if_neg hnone, hroute]
      show (Except.bind (tokens.zipIdx.mapM _) _) = _
      rw [hhops]
      rfl
    · rw [simulateOnce, if_neg hnone, hroute]
      exact priceTokens_eq hep hmasks' _

end run

/-! ## A single home -/

section single

/-- The other way round. -/
def back (hop : Hop Nat) : Hop Nat := ⟨hop.receiver, hop.sender⟩

variable {epSize nvlNumGpu : Nat} {home : Home} {hitRank hitDom : List Bool}
  (hhome : home.Valid epSize nvlNumGpu) (hone : home.residingEnd = home.residingStart + 1)
include hhome hone

theorem isResident_iff (rank : Nat) : home.isResident rank ↔ rank = home.primary := by
  have hstart := hhome.start_le
  have hend := hhome.lt_end
  unfold Home.isResident
  omega

theorem hasResident_iff {d : Nat} (hd : d < domains epSize nvlNumGpu) :
    lo epSize nvlNumGpu home d < hi epSize nvlNumGpu home d ↔ d = home.primaryDomain := by
  constructor
  · intro h
    have hmem : gateway epSize nvlNumGpu home d ∈ ranksOf epSize nvlNumGpu d := gateway_mem hd
    have hresident := (resident_iff hmem).mpr (gateway_resident h)
    rw [isResident_iff hhome hone] at hresident
    rw [hhome.domain_eq, ← hresident, domainOf_eq hd hmem]
  · rintro rfl
    have hin : domain epSize nvlNumGpu home.primary < domains epSize nvlNumGpu ∧
        home.primary ∈ ranksOf epSize nvlNumGpu (domain epSize nvlNumGpu home.primary) :=
      exists_domain (hhome.lt_end.trans_le hhome.end_le)
    rw [← hhome.domain_eq] at hin
    have hwindow := (resident_iff hin.2).mp ⟨hhome.start_le, hhome.lt_end⟩
    omega

theorem gateway_eq_primary (hd : home.primaryDomain < domains epSize nvlNumGpu) :
    gateway epSize nvlNumGpu home home.primaryDomain = home.primary := by
  have hmem : gateway epSize nvlNumGpu home home.primaryDomain ∈
      ranksOf epSize nvlNumGpu home.primaryDomain := gateway_mem hd
  have hsome := (hasResident_iff hhome hone hd).mpr rfl
  exact (isResident_iff hhome hone _).mp ((resident_iff hmem).mpr (gateway_resident hsome))

theorem mirror_inter : hopsIn .combineInterReduce (hopsOf epSize nvlNumGpu home hitRank hitDom) =
      (hopsIn .dispatchInter (hopsOf epSize nvlNumGpu home hitRank hitDom)).map back := by
  rw [hopsIn_hopsOf, hopsIn_hopsOf]
  show _ ++ (targetDomains epSize nvlNumGpu home).flatMap (fun _ => []) =
    (_ ++ (targetDomains epSize nvlNumGpu home).flatMap (fun _ => [])).map back
  rw [flatMap_none, List.append_nil, List.append_nil, List.map_flatMap]
  refine List.flatMap_congr fun d hd => ?_
  have hiff := hasResident_iff hhome hone (mem_hitDomains.mp hd).1
  rw [dispatchIn, dispatchIn]
  by_cases h : d = home.primaryDomain
  · rw [if_neg (not_not.mpr h), if_pos (hiff.mpr h)]
    rfl
  · rw [if_pos h, if_neg (fun hsome => h (hiff.mp hsome))]
    rfl

theorem mirror_intra : hopsIn .combineIntraReduce (hopsOf epSize nvlNumGpu home hitRank hitDom) =
      (hopsIn .dispatchIntra (hopsOf epSize nvlNumGpu home hitRank hitDom)).map back := by
  rw [hopsIn_hopsOf, hopsIn_hopsOf]
  show _ ++ (targetDomains epSize nvlNumGpu home).flatMap (fun _ => []) =
    (_ ++ (targetDomains epSize nvlNumGpu home).flatMap (fun _ => [])).map back
  rw [flatMap_none, List.append_nil, List.append_nil, List.map_flatMap]
  refine List.flatMap_congr fun d hd => ?_
  have hdlt := (mem_hitDomains.mp hd).1
  rw [dispatchIn, dispatchIn, List.map_map]
  -- with one home, the copies that a hit rank needs are those that a gateway does not
  have hneeds : ∀ hit, NeedsDispatch epSize nvlNumGpu home d hit ↔
      hit ≠ gateway epSize nvlNumGpu home d := by
    intro hit
    unfold NeedsDispatch
    split
    · next h =>
      have hpd := (hasResident_iff hhome hone hdlt).mp h
      subst hpd
      rw [isResident_iff hhome hone, gateway_eq_primary hhome hone hdlt]
    · exact Iff.rfl
  have hfilter : ((hitsIn epSize nvlNumGpu hitRank d).filter fun hit =>
      NeedsDispatch epSize nvlNumGpu home d hit) =
      (hitsIn epSize nvlNumGpu hitRank d).filter fun hit =>
        hit ≠ gateway epSize nvlNumGpu home d :=
    List.filter_congr fun hit _ => decide_eq_decide.mpr (hneeds hit)
  rw [hfilter]
  rfl

theorem no_delivery : hopsIn .combineInterBcast (hopsOf epSize nvlNumGpu home hitRank hitDom) = [] ∧
      hopsIn .combineIntraFanout (hopsOf epSize nvlNumGpu home hitRank hitDom) = [] := by
  rw [hopsIn_bcast, hopsIn_fanout, List.map_eq_nil_iff, List.filter_eq_nil_iff,
    List.flatMap_eq_nil_iff]
  have htarget : ∀ d ∈ targetDomains epSize nvlNumGpu home, d = home.primaryDomain := by
    intro d hd
    obtain ⟨hdlt, hsome⟩ := mem_targetDomains.mp hd
    exact (hasResident_iff hhome hone hdlt).mp hsome
  constructor
  · intro d hd
    rw [htarget d hd]
    simp
  · intro d hd
    rw [List.map_eq_nil_iff, List.filter_eq_nil_iff]
    intro rank hrank
    have hprimary := (isResident_iff hhome hone rank).mp (mem_residents.mp hrank).2
    rw [resultHolder, if_pos (htarget d hd), hprimary]
    simp

end single

/-! ## Accounts -/

/-- The accounts of a simulation that charges some hops. -/
structure StageAccounts (params : MoeNetParams) (placement : Placement) (steps : Steps)
    (hops : List StageHop) : Prop where
  /-- A rank sends and receives a hidden vector for every hop of the stage. -/
  charged : ∀ stage rank, (steps stage).sendBytes.getD rank 0 =
      (hops.countP fun hop => hop.stage = stage ∧ hop.sender = rank) * params.hiddenBytes ∧
    (steps stage).recvBytes.getD rank 0 =
      (hops.countP fun hop => hop.stage = stage ∧ hop.receiver = rank) * params.hiddenBytes
  balanced : ∀ stage, (steps stage).sendBytes.sum = (steps stage).recvBytes.sum ∧
    params.hiddenBytes ∣ (steps stage).sendBytes.sum ∧
    params.hiddenBytes ∣ (steps stage).recvBytes.sum
  /-- The hops of a stage stay in a domain or leave it as the stage's tier says. -/
  placed : ∀ hop ∈ hops, hop.WellPlaced params.epSize params.nvlNumGpu
  one_domain : domains params.epSize params.nvlNumGpu = 1 → ∀ stage, stage.tier = .interDomain →
    (steps stage).sendBytes = List.replicate params.epSize 0 ∧
    (steps stage).recvBytes = List.replicate params.epSize 0
  mirror : placement = .roundRobin →
    (steps .combineInterReduce).sendBytes = (steps .dispatchInter).recvBytes ∧
    (steps .combineInterReduce).recvBytes = (steps .dispatchInter).sendBytes ∧
    (steps .combineIntraReduce).sendBytes = (steps .dispatchIntra).recvBytes ∧
    (steps .combineIntraReduce).recvBytes = (steps .dispatchIntra).sendBytes
  no_delivery : placement = .roundRobin → ∀ stage ∈ [Stage.combineInterBcast, .combineIntraFanout],
    (steps stage).sendBytes = List.replicate params.epSize 0 ∧
    (steps stage).recvBytes = List.replicate params.epSize 0

section accounts

theorem countP_sender (stage : Stage) (rank : Nat) (hops : List StageHop) :
    (hops.countP fun hop => hop.stage = stage ∧ hop.sender = rank) =
      (hopsIn stage hops).countP fun hop => hop.sender = rank := by
  rw [hopsIn, List.countP_map, List.countP_filter]
  refine List.countP_congr fun hop _ => ?_
  simp [and_comm]

theorem countP_receiver (stage : Stage) (rank : Nat) (hops : List StageHop) :
    (hops.countP fun hop => hop.stage = stage ∧ hop.receiver = rank) =
      (hopsIn stage hops).countP fun hop => hop.receiver = rank := by
  rw [hopsIn, List.countP_map, List.countP_filter]
  refine List.countP_congr fun hop _ => ?_
  simp [and_comm]

theorem bytes_ext {n : Nat} {bytes bytes' : List Nat} (h : bytes.length = n)
    (h' : bytes'.length = n) (hget : ∀ rank, bytes.getD rank 0 = bytes'.getD rank 0) :
    bytes = bytes' := by
  refine List.ext_getElem (h.trans h'.symm) fun rank hrank hrank' => ?_
  have hsame := hget rank
  rwa [List.getD_eq_getElem _ _ hrank, List.getD_eq_getElem _ _ hrank'] at hsame

theorem accounts_of_charged {params : MoeNetParams} {placement : Placement} {steps : Steps}
    {tokens : List (RoutedToken × Nat)} (hep : tokens = [] ∨ 0 < params.epSize)
    (hsized : Sized params.epSize steps)
    (hsum : ∀ stage, (steps stage).sendBytes.sum =
        ((tokens.flatMap (hopsOfToken params placement)).countP fun hop => hop.stage = stage) *
          params.hiddenBytes ∧
      (steps stage).recvBytes.sum =
        ((tokens.flatMap (hopsOfToken params placement)).countP fun hop => hop.stage = stage) *
          params.hiddenBytes)
    (hcharged : ∀ stage rank, (steps stage).sendBytes.getD rank 0 =
        ((tokens.flatMap (hopsOfToken params placement)).countP fun hop =>
          hop.stage = stage ∧ hop.sender = rank) * params.hiddenBytes ∧
      (steps stage).recvBytes.getD rank 0 =
        ((tokens.flatMap (hopsOfToken params placement)).countP fun hop =>
          hop.stage = stage ∧ hop.receiver = rank) * params.hiddenBytes) :
    StageAccounts params placement steps (tokens.flatMap (hopsOfToken params placement)) := by
  set hops := tokens.flatMap (hopsOfToken params placement) with hhops
  have hhome : ∀ token ∈ tokens, (Home.of token.2 placement params.epSize
      (NvlLayout.new params.epSize params.nvlNumGpu)).Valid params.epSize params.nvlNumGpu := by
    intro token htoken
    refine homeOf_valid (hep.resolve_left ?_) placement token.2
    rintro rfl
    cases htoken
  have hplaced : ∀ hop ∈ hops, hop.WellPlaced params.epSize params.nvlNumGpu := by
    intro hop hhop
    obtain ⟨token, htoken, hhop⟩ := List.mem_flatMap.mp hhop
    exact hops_wellPlaced (hhome token htoken) hop hhop
  have hzero : ∀ stage, hopsIn stage hops = [] →
      (steps stage).sendBytes = List.replicate params.epSize 0 ∧
      (steps stage).recvBytes = List.replicate params.epSize 0 := by
    intro stage hnone
    have hgetD : ∀ rank, (List.replicate params.epSize 0).getD rank 0 = 0 := fun rank => by
      rw [List.getD_eq_getElem?_getD, List.getElem?_replicate]
      split <;> rfl
    constructor
    · refine bytes_ext (hsized stage).1 List.length_replicate fun rank => ?_
      rw [(hcharged stage rank).1, countP_sender, hnone, hgetD]
      exact Nat.zero_mul _
    · refine bytes_ext (hsized stage).2 List.length_replicate fun rank => ?_
      rw [(hcharged stage rank).2, countP_receiver, hnone, hgetD]
      exact Nat.zero_mul _
  -- a stage that runs the hops of another backwards swaps what is sent and received
  have hmirror : ∀ stage stage', hopsIn stage' hops = (hopsIn stage hops).map back →
      (steps stage').sendBytes = (steps stage).recvBytes ∧
      (steps stage').recvBytes = (steps stage).sendBytes := by
    intro stage stage' hback
    constructor
    · refine bytes_ext (hsized stage').1 (hsized stage).2 fun rank => ?_
      rw [(hcharged stage' rank).1, (hcharged stage rank).2, countP_sender, countP_receiver, hback,
        List.countP_map]
      rfl
    · refine bytes_ext (hsized stage').2 (hsized stage).1 fun rank => ?_
      rw [(hcharged stage' rank).2, (hcharged stage rank).1, countP_sender, countP_receiver, hback,
        List.countP_map]
      rfl
  refine ⟨hcharged, fun stage => ?_, hplaced, ?_, ?_, ?_⟩
  · rw [(hsum stage).1, (hsum stage).2]
    exact ⟨rfl, Nat.dvd_mul_left _ _, Nat.dvd_mul_left _ _⟩
  · intro hdomains stage hstage
    refine hzero stage ?_
    rw [hopsIn, List.map_eq_nil_iff, List.filter_eq_nil_iff]
    intro hop hhop hsame
    obtain ⟨hsender, hreceiver, hiff⟩ := hplaced hop hhop
    -- one domain only, so both ends of the hop are in it
    have hsame' : domain params.epSize params.nvlNumGpu hop.sender =
        domain params.epSize params.nvlNumGpu hop.receiver := by
      have h : domain params.epSize params.nvlNumGpu hop.sender <
        domains params.epSize params.nvlNumGpu := (exists_domain hsender).1
      have h' : domain params.epSize params.nvlNumGpu hop.receiver <
        domains params.epSize params.nvlNumGpu := (exists_domain hreceiver).1
      omega
    have htier := hiff.mp hsame'
    rw [of_decide_eq_true hsame, hstage] at htier
    cases htier
  · rintro rfl
    have hinter : hopsIn .combineInterReduce hops = (hopsIn .dispatchInter hops).map back := by
      rw [hhops, hopsIn_flatMap, hopsIn_flatMap, List.map_flatMap]
      exact List.flatMap_congr fun token htoken => mirror_inter (hhome token htoken) rfl
    have hintra : hopsIn .combineIntraReduce hops = (hopsIn .dispatchIntra hops).map back := by
      rw [hhops, hopsIn_flatMap, hopsIn_flatMap, List.map_flatMap]
      exact List.flatMap_congr fun token htoken => mirror_intra (hhome token htoken) rfl
    exact ⟨(hmirror _ _ hinter).1, (hmirror _ _ hinter).2, (hmirror _ _ hintra).1,
      (hmirror _ _ hintra).2⟩
  · rintro rfl stage hstage
    refine hzero stage ?_
    rw [hhops, hopsIn_flatMap, List.flatMap_eq_nil_iff]
    intro token htoken
    rcases List.mem_cons.mp hstage with rfl | hstage
    · exact (no_delivery (hhome token htoken) rfl).1
    · rw [List.mem_singleton.mp hstage]
      exact (no_delivery (hhome token htoken) rfl).2

end accounts

/-- **Stage accounting.** Every simulation of a feasible distribution succeeds, and its six
stages account for the hops of its tokens. -/
theorem stage_accounting {ppm : List Nat} {topK : Nat} (htop : topK ≤ ppm.length)
    (hsum : ppm.sum = totalPpm) (hfeasible : ∀ mass ∈ ppm, topK * mass ≤ totalPpm)
    (params : MoeNetParams) (placement : Placement) (nTokens : Nat) (seed : SplitMix.Word) :
    ∃ steps hops, simulateOnce ppm topK params placement nTokens seed = .ok steps ∧
      simulatedHops ppm topK params placement nTokens seed = .ok hops ∧
      StageAccounts params placement steps hops := by
  obtain ⟨tokens, hep, hhops, hsteps⟩ :=
    simulateOnce_eq params placement htop hsum hfeasible nTokens seed
  have hempty : Sized params.epSize fun stage => MoeStep.empty stage params.epSize := fun stage =>
    ⟨List.length_replicate, List.length_replicate⟩
  have hbounds : ∀ hop ∈ tokens.flatMap (hopsOfToken params placement),
      hop.sender < params.epSize ∧ hop.receiver < params.epSize := by
    intro hop hhop
    obtain ⟨token, htoken, hhop⟩ := List.mem_flatMap.mp hhop
    have hpos : 0 < params.epSize := hep.resolve_left fun h => by
      rw [h] at htoken
      cases htoken
    have hplaced := hops_wellPlaced (homeOf_valid hpos placement token.2) hop hhop
    exact ⟨hplaced.1, hplaced.2.1⟩
  obtain ⟨steps, hcharges, hsized, hsums, hcharged⟩ :=
    charges_spec hempty params.hiddenBytes hbounds
  refine ⟨steps, _, hsteps.trans hcharges, hhops, accounts_of_charged hep hsized ?_ ?_⟩
  · intro stage
    have h := hsums stage
    rwa [show (MoeStep.empty stage params.epSize).sendBytes.sum = 0 by simp [MoeStep.empty],
      show (MoeStep.empty stage params.epSize).recvBytes.sum = 0 by simp [MoeStep.empty],
      Nat.zero_add] at h
  · intro stage rank
    have hzero : (List.replicate params.epSize 0).getD rank 0 = 0 := by
      rw [List.getD_eq_getElem?_getD, List.getElem?_replicate]
      split <;> rfl
    have h := hcharged stage rank
    rwa [show (MoeStep.empty stage params.epSize).sendBytes.getD rank 0 = 0 from hzero,
      show (MoeStep.empty stage params.epSize).recvBytes.getD rank 0 = 0 from hzero,
      Nat.zero_add, Nat.zero_add] at h

/-- Four experts on three ranks in two domains, the last one ragged. -/
theorem stage_accounting_ragged :
    ∃ steps hops, simulateOnce [400000, 300000, 200000, 100000] 2 ⟨3, 2, 8192⟩ .roundRobin 5 7 =
        .ok steps ∧
      simulatedHops [400000, 300000, 200000, 100000] 2 ⟨3, 2, 8192⟩ .roundRobin 5 7 = .ok hops ∧
      StageAccounts ⟨3, 2, 8192⟩ .roundRobin steps hops :=
  stage_accounting (by decide) (by decide) (by decide) ⟨3, 2, 8192⟩ .roundRobin 5 7

end MoeNet

end ServingSim
