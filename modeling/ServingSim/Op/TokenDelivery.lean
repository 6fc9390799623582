import ServingSim.Op.TransferTree

/-
  What the transfers of one token deliver.

  Dispatch reaches every rank that is hit and delivery every rank of the residing group, at
  every placement. The partial results of a domain meet at its gateway; those of the other
  domains go on to the primary rank, but those of the primary's own domain stay where they
  are, so its gateway has to be the primary.

  What is proved:
    1. `transfer_tree` — exactly when the hops form a correct schedule.
-/

namespace ServingSim

namespace MoeNet

open HopSchedule

/-- The hops of a token deliver it, its partial results and its result. -/
structure Delivers (home : Home) (epSize : Nat) (hits : List Nat) (hops : List StageHop) :
    Prop where
  /-- From the residing ranks, every sender holds the token, and every hit rank gets it. -/
  dispatch : ∃ inter intra,
    copyAlong ((Finset.range epSize).filter home.isResident) (hopsIn .dispatchInter hops) =
      some inter ∧
    copyAlong inter (hopsIn .dispatchIntra hops) = some intra ∧ ∀ hit ∈ hits, hit ∈ intra
  /-- The primary rank gathers the part of every hit rank once, and nothing else. -/
  reduce : moveAlong (moveAlong (fun rank => if rank ∈ hits then {rank} else 0)
      (hopsIn .combineIntraReduce hops)) (hopsIn .combineInterReduce hops) home.primary =
    (hits : Multiset Nat)
  /-- From the primary, every sender holds the result, and the other ranks of the group get
  it once, ranks outside never. -/
  deliver : ∃ inter intra, copyAlong {home.primary} (hopsIn .combineInterBcast hops) = some inter ∧
    copyAlong inter (hopsIn .combineIntraFanout hops) = some intra ∧
    ∀ rank, ((hopsIn .combineInterBcast hops ++ hopsIn .combineIntraFanout hops).map
      Hop.receiver).count rank = if home.isResident rank ∧ rank ≠ home.primary then 1 else 0

/-- The rotated resident of the primary's domain is the primary. -/
def GatewayIsPrimary (epSize nvlNumGpu : Nat) (home : Home) : Prop :=
  home.rotate (lo epSize nvlNumGpu home home.primaryDomain)
    (hi epSize nvlNumGpu home home.primaryDomain - lo epSize nvlNumGpu home home.primaryDomain) =
      home.primary

instance (epSize nvlNumGpu : Nat) (home : Home) :
    Decidable (GatewayIsPrimary epSize nvlNumGpu home) :=
  inferInstanceAs (Decidable (_ = _))

/-! ## Hits by domain -/

section hits

variable {epSize nvlNumGpu : Nat} {home : Home} {hitRank hitDom : List Bool}

/-- Is a domain hit exactly when one of its ranks is? -/
def DomainMask (epSize nvlNumGpu : Nat) (hitRank hitDom : List Bool) : Prop :=
  hitDom.length = domains epSize nvlNumGpu ∧ ∀ d < domains epSize nvlNumGpu,
    hitDom.getD d false = true ↔ ∃ rank ∈ ranksOf epSize nvlNumGpu d, hitRank.getD rank false = true

/-- The ranks that are hit, domain by domain. -/
def hitsOf (epSize nvlNumGpu : Nat) (hitRank hitDom : List Bool) : List Nat :=
  (hitDomains epSize nvlNumGpu hitDom).flatMap (hitsIn epSize nvlNumGpu hitRank)

instance (epSize nvlNumGpu : Nat) (hitRank hitDom : List Bool) :
    Decidable (DomainMask epSize nvlNumGpu hitRank hitDom) :=
  inferInstanceAs (Decidable (_ ∧ ∀ d < domains epSize nvlNumGpu, (_ ↔ _)))

theorem mem_hitDomains {d : Nat} : d ∈ hitDomains epSize nvlNumGpu hitDom ↔
    d < domains epSize nvlNumGpu ∧ hitDom.getD d false = true := by
  rw [hitDomains, List.mem_filter, List.mem_range]

theorem mem_hitsIn {d rank : Nat} : rank ∈ hitsIn epSize nvlNumGpu hitRank d ↔
    rank ∈ ranksOf epSize nvlNumGpu d ∧ hitRank.getD rank false = true := List.mem_filter

theorem mem_targetDomains {d : Nat} : d ∈ targetDomains epSize nvlNumGpu home ↔
    d < domains epSize nvlNumGpu ∧ lo epSize nvlNumGpu home d < hi epSize nvlNumGpu home d := by
  rw [targetDomains, List.mem_filter, List.mem_range, decide_eq_true_eq]

theorem nodup_flatMap_domains {ds : List Nat} {part : Nat → List Nat} (hds : ds.Nodup)
    (hlt : ∀ d ∈ ds, d < domains epSize nvlNumGpu) (hpart : ∀ d ∈ ds, (part d).Nodup)
    (hin : ∀ d ∈ ds, ∀ rank ∈ part d, rank ∈ ranksOf epSize nvlNumGpu d) :
    (ds.flatMap part).Nodup := by
  rw [List.nodup_flatMap]
  refine ⟨hpart, List.Nodup.pairwise_of_forall_ne hds fun d hd d' hd' hne => ?_⟩
  intro rank hrank hrank'
  have h := domainOf_eq (hlt d hd) (hin d hd rank hrank)
  rw [domainOf_eq (hlt d' hd') (hin d' hd' rank hrank')] at h
  exact hne h.symm

theorem nodup_hitDomains : (hitDomains epSize nvlNumGpu hitDom).Nodup :=
  List.nodup_range.filter _

theorem nodup_hitsOf : (hitsOf epSize nvlNumGpu hitRank hitDom).Nodup :=
  nodup_flatMap_domains nodup_hitDomains (fun _ hd => (mem_hitDomains.mp hd).1)
    (fun _ _ => List.Nodup.filter _ List.nodup_range') fun _ _ _ hrank => (mem_hitsIn.mp hrank).1

theorem domain_of_hitsIn {d rank : Nat} (hd : d ∈ hitDomains epSize nvlNumGpu hitDom)
    (hrank : rank ∈ hitsIn epSize nvlNumGpu hitRank d) : domain epSize nvlNumGpu rank = d :=
  domainOf_eq (mem_hitDomains.mp hd).1 (mem_hitsIn.mp hrank).1

theorem mem_hitsOf {rank : Nat} (h : rank ∈ hitsOf epSize nvlNumGpu hitRank hitDom) :
    domain epSize nvlNumGpu rank ∈ hitDomains epSize nvlNumGpu hitDom ∧
      rank ∈ hitsIn epSize nvlNumGpu hitRank (domain epSize nvlNumGpu rank) := by
  obtain ⟨d, hd, hrank⟩ := List.mem_flatMap.mp h
  rw [domain_of_hitsIn hd hrank]
  exact ⟨hd, hrank⟩

theorem mem_hitsOf_iff (hmask : DomainMask epSize nvlNumGpu hitRank hitDom) {rank : Nat} :
    rank ∈ hitsOf epSize nvlNumGpu hitRank hitDom ↔
      rank < epSize ∧ hitRank.getD rank false = true := by
  constructor
  · intro h
    obtain ⟨hd, hrank⟩ := mem_hitsOf h
    obtain ⟨hin, hhit⟩ := mem_hitsIn.mp hrank
    exact ⟨lt_of_mem_ranksOf (mem_hitDomains.mp hd).1 hin, hhit⟩
  · rintro ⟨hlt, hhit⟩
    have hdom : domain epSize nvlNumGpu rank < domains epSize nvlNumGpu ∧
      rank ∈ ranksOf epSize nvlNumGpu (domain epSize nvlNumGpu rank) := exists_domain hlt
    refine List.mem_flatMap.mpr ⟨_, mem_hitDomains.mpr ⟨hdom.1, ?_⟩, mem_hitsIn.mpr ⟨hdom.2, hhit⟩⟩
    exact (hmask.2 _ hdom.1).mpr ⟨rank, hdom.2, hhit⟩

theorem hitsOf_perm (hmask : DomainMask epSize nvlNumGpu hitRank hitDom) :
    (hitsOf epSize nvlNumGpu hitRank hitDom).Perm
      ((List.range epSize).filter fun rank => hitRank.getD rank false) := by
  refine (List.perm_ext_iff_of_nodup nodup_hitsOf (List.nodup_range.filter _)).mpr fun rank => ?_
  rw [mem_hitsOf_iff hmask, List.mem_filter, List.mem_range]

end hits

/-! ## Dispatch -/

section dispatch

variable {epSize nvlNumGpu : Nat} {home : Home} {hitRank hitDom : List Bool}
  (hhome : home.Valid epSize nvlNumGpu)
include hhome

theorem dispatch_delivers : ∃ inter intra, copyAlong ((Finset.range epSize).filter home.isResident)
        (hopsIn .dispatchInter (hopsOf epSize nvlNumGpu home hitRank hitDom)) = some inter ∧
      copyAlong inter
        (hopsIn .dispatchIntra (hopsOf epSize nvlNumGpu home hitRank hitDom)) = some intra ∧
      ∀ hit ∈ hitsOf epSize nvlNumGpu hitRank hitDom, hit ∈ intra := by
  have hinter : ∀ hop, hop ∈ hopsIn .dispatchInter (hopsOf epSize nvlNumGpu home hitRank hitDom) ↔
      ∃ d ∈ hitDomains epSize nvlNumGpu hitDom,
        ¬lo epSize nvlNumGpu home d < hi epSize nvlNumGpu home d ∧
        hop = ⟨home.primary, gateway epSize nvlNumGpu home d⟩ := by
    intro hop
    rw [hopsIn_hopsOf]
    show hop ∈ _ ++ (targetDomains epSize nvlNumGpu home).flatMap (fun _ => []) ↔ _
    rw [flatMap_none, List.append_nil, List.mem_flatMap]
    refine exists_congr fun d => and_congr_right fun _ => ?_
    rw [dispatchIn]
    split
    · next h => simp [h]
    · next h => simp [h]
  have hintra : ∀ hop, hop ∈ hopsIn .dispatchIntra (hopsOf epSize nvlNumGpu home hitRank hitDom) ↔
      ∃ d ∈ hitDomains epSize nvlNumGpu hitDom, ∃ hit ∈ hitsIn epSize nvlNumGpu hitRank d,
        NeedsDispatch epSize nvlNumGpu home d hit ∧
        hop = ⟨gateway epSize nvlNumGpu home d, hit⟩ := by
    intro hop
    rw [hopsIn_hopsOf]
    show hop ∈ _ ++ (targetDomains epSize nvlNumGpu home).flatMap (fun _ => []) ↔ _
    rw [flatMap_none, List.append_nil, List.mem_flatMap]
    refine exists_congr fun d => and_congr_right fun _ => ?_
    rw [dispatchIn, List.mem_map]
    refine exists_congr fun hit => ?_
    rw [List.mem_filter, decide_eq_true_eq, and_assoc, eq_comm]
  have hprimary : home.primary ∈ (Finset.range epSize).filter home.isResident :=
    Finset.mem_filter.mpr ⟨Finset.mem_range.mpr (hhome.lt_end.trans_le hhome.end_le),
      hhome.start_le, hhome.lt_end⟩
  -- a gateway resides there, or the first stage reaches it
  have hgateway : ∀ d ∈ hitDomains epSize nvlNumGpu hitDom, gateway epSize nvlNumGpu home d ∈
      (Finset.range epSize).filter home.isResident ∪
        ((hopsIn .dispatchInter (hopsOf epSize nvlNumGpu home hitRank hitDom)).map
          Hop.receiver).toFinset := by
    intro d hd
    have hdlt := (mem_hitDomains.mp hd).1
    have hmem : gateway epSize nvlNumGpu home d ∈ ranksOf epSize nvlNumGpu d := gateway_mem hdlt
    rw [Finset.mem_union]
    by_cases h : lo epSize nvlNumGpu home d < hi epSize nvlNumGpu home d
    · refine .inl (Finset.mem_filter.mpr ⟨Finset.mem_range.mpr (lt_of_mem_ranksOf hdlt hmem), ?_⟩)
      exact (resident_iff hmem).mpr (gateway_resident h)
    · exact .inr (List.mem_toFinset.mpr (List.mem_map.mpr
        ⟨_, (hinter _).mpr ⟨d, hd, h, rfl⟩, rfl⟩))
  refine ⟨_, _, copyAlong_eq ?_, copyAlong_eq ?_, ?_⟩
  · intro hop hhop
    obtain ⟨d, -, -, rfl⟩ := (hinter hop).mp hhop
    exact hprimary
  · intro hop hhop
    obtain ⟨d, hd, hit, -, -, rfl⟩ := (hintra hop).mp hhop
    exact hgateway d hd
  · intro hit hhit
    obtain ⟨hd, hin⟩ := mem_hitsOf hhit
    have hdlt := (mem_hitDomains.mp hd).1
    have hmem := (mem_hitsIn.mp hin).1
    rw [Finset.mem_union]
    by_cases hneeds : NeedsDispatch epSize nvlNumGpu home (domain epSize nvlNumGpu hit) hit
    · exact .inr (List.mem_toFinset.mpr (List.mem_map.mpr
        ⟨_, (hintra _).mpr ⟨_, hd, hit, hin, hneeds, rfl⟩, rfl⟩))
    · refine .inl ?_
      unfold NeedsDispatch at hneeds
      split at hneeds
      · rw [not_not] at hneeds
        exact Finset.mem_union_left _ (Finset.mem_filter.mpr
          ⟨Finset.mem_range.mpr (lt_of_mem_ranksOf hdlt hmem), hneeds⟩)
      · rw [ne_eq, not_not] at hneeds
        have hreached := hgateway _ hd
        rwa [← hneeds] at hreached

end dispatch

/-! ## Reduction -/

section reduce

variable (epSize nvlNumGpu : Nat) (home : Home) (hitRank hitDom : List Bool)

/-- What the ranks have gathered inside the domains. -/
def reducedIntra : Nat → Multiset Nat :=
  moveAlong
    (fun rank => if rank ∈ hitsOf epSize nvlNumGpu hitRank hitDom then {rank} else 0)
    (hopsIn .combineIntraReduce (hopsOf epSize nvlNumGpu home hitRank hitDom))

variable {epSize nvlNumGpu home hitRank hitDom}

theorem hopsIn_intraReduce :
    hopsIn .combineIntraReduce (hopsOf epSize nvlNumGpu home hitRank hitDom) =
      ((hitsOf epSize nvlNumGpu hitRank hitDom).filter fun hit =>
        hit ≠ gateway epSize nvlNumGpu home (domain epSize nvlNumGpu hit)).map fun hit =>
          ⟨hit, gateway epSize nvlNumGpu home (domain epSize nvlNumGpu hit)⟩ := by
  rw [hopsIn_hopsOf]
  show _ ++ (targetDomains epSize nvlNumGpu home).flatMap (fun _ => []) = _
  rw [flatMap_none, List.append_nil, hitsOf, List.filter_flatMap, List.map_flatMap]
  refine List.flatMap_congr fun d hd => ?_
  rw [dispatchIn]
  have hfilter : ((hitsIn epSize nvlNumGpu hitRank d).filter fun hit =>
      hit ≠ gateway epSize nvlNumGpu home d) =
      (hitsIn epSize nvlNumGpu hitRank d).filter fun hit =>
        hit ≠ gateway epSize nvlNumGpu home (domain epSize nvlNumGpu hit) :=
    List.filter_congr fun hit hhit => by rw [domain_of_hitsIn hd hhit]
  rw [hfilter]
  refine List.map_congr_left fun hit hhit => ?_
  rw [domain_of_hitsIn hd (List.mem_of_mem_filter hhit)]

theorem hopsIn_interReduce :
    hopsIn .combineInterReduce (hopsOf epSize nvlNumGpu home hitRank hitDom) =
      ((hitDomains epSize nvlNumGpu hitDom).filter fun d => d ≠ home.primaryDomain).map fun d =>
        ⟨gateway epSize nvlNumGpu home d, home.primary⟩ := by
  rw [hopsIn_hopsOf]
  show (hitDomains epSize nvlNumGpu hitDom).flatMap (fun d => if d ≠ home.primaryDomain then _
    else []) ++ (targetDomains epSize nvlNumGpu home).flatMap (fun _ => []) = _
  rw [flatMap_none, List.append_nil, flatMap_filter_map]

theorem sum_singletons (l : List Nat) :
    (l.map fun rank => ({rank} : Multiset Nat)).sum = (l : Multiset Nat) := by
  induction l with
  | nil => rfl
  | cons rank l ih =>
    rw [List.map_cons, List.sum_cons, ih]
    rfl

theorem reducedIntra_eq (rank : Nat) : reducedIntra epSize nvlNumGpu home hitRank hitDom rank =
      if rank ∈ hitsOf epSize nvlNumGpu hitRank hitDom ∧
        rank ≠ gateway epSize nvlNumGpu home (domain epSize nvlNumGpu rank) then 0
      else (if rank ∈ hitsOf epSize nvlNumGpu hitRank hitDom then {rank} else 0) +
        (((hitsOf epSize nvlNumGpu hitRank hitDom).filter fun hit =>
          hit ≠ gateway epSize nvlNumGpu home (domain epSize nvlNumGpu hit) ∧
          gateway epSize nvlNumGpu home (domain epSize nvlNumGpu hit) = rank : List Nat) :
            Multiset Nat) := by
  have hdom : ∀ hit ∈ hitsOf epSize nvlNumGpu hitRank hitDom,
      domain epSize nvlNumGpu (gateway epSize nvlNumGpu home (domain epSize nvlNumGpu hit)) =
        domain epSize nvlNumGpu hit := fun hit hhit =>
    domain_gateway (mem_hitDomains.mp (mem_hitsOf hhit).1).1
  have hsenders : (hopsIn .combineIntraReduce
      (hopsOf epSize nvlNumGpu home hitRank hitDom)).map Hop.sender =
      (hitsOf epSize nvlNumGpu hitRank hitDom).filter fun hit =>
        hit ≠ gateway epSize nvlNumGpu home (domain epSize nvlNumGpu hit) := by
    rw [hopsIn_intraReduce, List.map_map]
    exact List.map_id _
  rw [reducedIntra, moveAlong_eq]
  · rw [hsenders]
    simp only [List.mem_filter, decide_eq_true_eq]
    congr 2
    rw [sentTo, hopsIn_intraReduce, List.filter_map, List.map_map, List.filter_filter]
    have hparts : ∀ hit ∈ (hitsOf epSize nvlNumGpu hitRank hitDom).filter fun hit =>
        hit ≠ gateway epSize nvlNumGpu home (domain epSize nvlNumGpu hit) ∧
        gateway epSize nvlNumGpu home (domain epSize nvlNumGpu hit) = rank,
        (if hit ∈ hitsOf epSize nvlNumGpu hitRank hitDom then ({hit} : Multiset Nat) else 0) =
          {hit} := fun hit hhit => if_pos (List.mem_of_mem_filter hhit)
    rw [← sum_singletons, ← List.map_congr_left hparts]
    congr 2
    refine List.filter_congr fun hit _ => ?_
    rw [Bool.decide_and, Bool.and_comm]
    rfl
  · rw [hsenders]
    exact nodup_hitsOf.filter _
  · intro hop hhop hop' hhop' heq
    rw [hopsIn_intraReduce] at hhop hhop'
    obtain ⟨hit, hhit, rfl⟩ := List.mem_map.mp hhop
    obtain ⟨hit', hhit', rfl⟩ := List.mem_map.mp hhop'
    obtain ⟨-, hne⟩ := List.mem_filter.mp hhit
    change hit = gateway epSize nvlNumGpu home (domain epSize nvlNumGpu hit') at heq
    have hsame := hdom hit' (List.mem_of_mem_filter hhit')
    rw [← heq] at hsame
    rw [decide_eq_true_eq, hsame] at hne
    exact hne heq

theorem count_part (hits : List Nat) (rank x : Nat) :
    (if rank ∈ hits then ({rank} : Multiset Nat) else 0).count x =
      if x ∈ hits ∧ x = rank then 1 else 0 := by
  by_cases hx : x = rank
  · subst hx
    by_cases hin : x ∈ hits <;> simp [hin]
  · by_cases hin : rank ∈ hits <;> simp [hin, hx]

theorem count_gateway {d : Nat} (hd : d ∈ hitDomains epSize nvlNumGpu hitDom) (x : Nat) :
    (reducedIntra epSize nvlNumGpu home hitRank hitDom (gateway epSize nvlNumGpu home d)).count x =
      if x ∈ hitsOf epSize nvlNumGpu hitRank hitDom ∧ domain epSize nvlNumGpu x = d then 1
      else 0 := by
  have hdom : domain epSize nvlNumGpu (gateway epSize nvlNumGpu home d) = d :=
    domain_gateway (mem_hitDomains.mp hd).1
  have hsame : ∀ hit ∈ hitsOf epSize nvlNumGpu hitRank hitDom,
      gateway epSize nvlNumGpu home (domain epSize nvlNumGpu hit) =
        gateway epSize nvlNumGpu home d ↔ domain epSize nvlNumGpu hit = d := by
    intro hit hhit
    constructor
    · intro h
      have h' := congrArg (domain epSize nvlNumGpu) h
      rwa [domain_gateway (mem_hitDomains.mp (mem_hitsOf hhit).1).1, hdom] at h'
    · exact fun h => by rw [h]
  rw [reducedIntra_eq, hdom, if_neg (fun h => h.2 rfl), Multiset.count_add, count_part,
    Multiset.coe_count, (nodup_hitsOf.filter _).count]
  simp only [List.mem_filter, decide_eq_true_eq]
  by_cases hx : x ∈ hitsOf epSize nvlNumGpu hitRank hitDom
  · by_cases hxd : domain epSize nvlNumGpu x = d
    · by_cases hxg : x = gateway epSize nvlNumGpu home d
      · rw [if_pos ⟨hx, hxg⟩, if_neg (by rw [hxd]; exact fun h => h.2.1 hxg), if_pos ⟨hx, hxd⟩]
      · rw [if_neg (fun h => hxg h.2), if_pos ⟨hx, by rw [hxd]; exact hxg, (hsame x hx).mpr hxd⟩,
          if_pos ⟨hx, hxd⟩]
    · rw [if_neg (fun h => hxd (by rw [h.2, hdom])),
        if_neg (fun h => hxd ((hsame x hx).mp h.2.2)), if_neg (fun h => hxd h.2)]
  · rw [if_neg (fun h => hx h.1), if_neg (fun h => hx h.1), if_neg (fun h => hx h.1)]

theorem count_reduced (hhome : home.Valid epSize nvlNumGpu) (x : Nat) :
    (moveAlong (reducedIntra epSize nvlNumGpu home hitRank hitDom)
      (hopsIn .combineInterReduce (hopsOf epSize nvlNumGpu home hitRank hitDom))
      home.primary).count x =
      (reducedIntra epSize nvlNumGpu home hitRank hitDom home.primary).count x +
        if x ∈ hitsOf epSize nvlNumGpu hitRank hitDom ∧
          domain epSize nvlNumGpu x ≠ home.primaryDomain then 1 else 0 := by
  set others := (hitDomains epSize nvlNumGpu hitDom).filter fun d => d ≠ home.primaryDomain
    with hothers
  have hmem : ∀ d ∈ others, d ∈ hitDomains epSize nvlNumGpu hitDom ∧ d ≠ home.primaryDomain :=
    fun d hd => ⟨List.mem_of_mem_filter hd, of_decide_eq_true (List.mem_filter.mp hd).2⟩
  have hgateway : ∀ d ∈ others,
      domain epSize nvlNumGpu (gateway epSize nvlNumGpu home d) = d := fun d hd =>
    domain_gateway (mem_hitDomains.mp (hmem d hd).1).1
  have hne : ∀ d ∈ others, gateway epSize nvlNumGpu home d ≠ home.primary := fun d hd heq => by
    have h := hgateway d hd
    rw [heq, ← hhome.domain_eq] at h
    exact (hmem d hd).2 h.symm
  rw [hopsIn_interReduce, ← hothers, moveAlong_eq]
  · rw [if_neg, Multiset.count_add]
    · congr 1
      have hall : (others.map fun d => (⟨gateway epSize nvlNumGpu home d, home.primary⟩ :
          Hop Nat)).filter (fun hop => hop.receiver = home.primary) =
          others.map fun d => ⟨gateway epSize nvlNumGpu home d, home.primary⟩ := by
        refine List.filter_eq_self.mpr fun hop hhop => ?_
        obtain ⟨d, -, rfl⟩ := List.mem_map.mp hhop
        exact decide_eq_true rfl
      -- of the other domains only the rank's own gateway brings its partial
      have hcounts : ∀ d ∈ others, (reducedIntra epSize nvlNumGpu home hitRank hitDom
          (gateway epSize nvlNumGpu home d)).count x =
          if d = domain epSize nvlNumGpu x then
            if x ∈ hitsOf epSize nvlNumGpu hitRank hitDom then 1 else 0 else 0 := by
        intro d hd
        rw [count_gateway (hmem d hd).1]
        by_cases hx : x ∈ hitsOf epSize nvlNumGpu hitRank hitDom
        · simp only [hx, true_and, if_true, eq_comm]
        · simp only [hx, false_and, if_false, ite_self]
      rw [sentTo, hall, List.map_map]
      have hsum : (others.map ((fun hop : Hop Nat =>
          reducedIntra epSize nvlNumGpu home hitRank hitDom hop.sender) ∘ fun d =>
            ⟨gateway epSize nvlNumGpu home d, home.primary⟩)).sum.count x =
          (others.map fun d => (reducedIntra epSize nvlNumGpu home hitRank hitDom
            (gateway epSize nvlNumGpu home d)).count x).sum := by
        rw [← Multiset.coe_countAddMonoidHom, map_list_sum, List.map_map]
        rfl
      rw [hsum, List.map_congr_left hcounts, SystematicCells.sum_ite_eq,
        (nodup_hitDomains.filter _).count]
      by_cases hx : x ∈ hitsOf epSize nvlNumGpu hitRank hitDom
      · have hin := (mem_hitsOf hx).1
        simp [hx, List.mem_filter, hin]
      · simp [hx]
    · rw [List.map_map]
      intro h
      obtain ⟨d, hd, heq⟩ := List.mem_map.mp h
      exact hne d hd heq
  · rw [List.map_map]
    refine (nodup_hitDomains.filter _).map_on fun d hd d' hd' heq => ?_
    have h := congrArg (domain epSize nvlNumGpu) heq
    change domain epSize nvlNumGpu (gateway epSize nvlNumGpu home d) =
      domain epSize nvlNumGpu (gateway epSize nvlNumGpu home d') at h
    rwa [hgateway d hd, hgateway d' hd'] at h
  · intro hop hhop hop' hhop'
    obtain ⟨d, hd, rfl⟩ := List.mem_map.mp hhop
    obtain ⟨d', hd', rfl⟩ := List.mem_map.mp hhop'
    exact hne d hd

theorem gateway_primaryDomain (hhome : home.Valid epSize nvlNumGpu) :
    GatewayIsPrimary epSize nvlNumGpu home ↔
      gateway epSize nvlNumGpu home home.primaryDomain = home.primary := by
  have hprimary : home.primary ∈ ranksOf epSize nvlNumGpu home.primaryDomain := by
    rw [hhome.domain_eq]
    have hin : domain epSize nvlNumGpu home.primary < domains epSize nvlNumGpu ∧ _ :=
      exists_domain (hhome.lt_end.trans_le hhome.end_le)
    exact hin.2
  have hresident := (resident_iff hprimary).mp ⟨hhome.start_le, hhome.lt_end⟩
  rw [GatewayIsPrimary, gateway, if_pos (by omega)]

theorem reducedIntra_primary
    (haway : ∀ hit ∈ hitsOf epSize nvlNumGpu hitRank hitDom,
      gateway epSize nvlNumGpu home (domain epSize nvlNumGpu hit) ≠ home.primary) :
    reducedIntra epSize nvlNumGpu home hitRank hitDom home.primary = 0 := by
  rw [reducedIntra_eq]
  by_cases hin : home.primary ∈ hitsOf epSize nvlNumGpu hitRank hitDom
  · exact if_pos ⟨hin, (haway _ hin).symm⟩
  · have hnone : ((hitsOf epSize nvlNumGpu hitRank hitDom).filter fun hit =>
        hit ≠ gateway epSize nvlNumGpu home (domain epSize nvlNumGpu hit) ∧
        gateway epSize nvlNumGpu home (domain epSize nvlNumGpu hit) = home.primary) = [] :=
      List.filter_eq_nil_iff.mpr fun hit hhit hsent =>
        haway hit hhit (of_decide_eq_true hsent).2
    rw [if_neg (fun h => hin h.1), if_neg hin, hnone]
    rfl

theorem reduced_iff (hhome : home.Valid epSize nvlNumGpu)
    (hmask : DomainMask epSize nvlNumGpu hitRank hitDom) :
    moveAlong (reducedIntra epSize nvlNumGpu home hitRank hitDom)
      (hopsIn .combineInterReduce (hopsOf epSize nvlNumGpu home hitRank hitDom)) home.primary =
      (hitsOf epSize nvlNumGpu hitRank hitDom : Multiset Nat) ↔
    (hitDom.getD home.primaryDomain false = true → GatewayIsPrimary epSize nvlNumGpu home) := by
  have hpd : home.primaryDomain < domains epSize nvlNumGpu := by
    rw [hhome.domain_eq]
    exact (exists_domain (hhome.lt_end.trans_le hhome.end_le)).1
  have hcount : ∀ x, (hitsOf epSize nvlNumGpu hitRank hitDom : Multiset Nat).count x =
      if x ∈ hitsOf epSize nvlNumGpu hitRank hitDom then 1 else 0 := fun x => by
    rw [Multiset.coe_count, nodup_hitsOf.count]
  -- what meets at the primary is of its domain
  have hdom : ∀ hit ∈ hitsOf epSize nvlNumGpu hitRank hitDom,
      gateway epSize nvlNumGpu home (domain epSize nvlNumGpu hit) = home.primary →
      domain epSize nvlNumGpu hit = home.primaryDomain := by
    intro hit hin heq
    have h := congrArg (domain epSize nvlNumGpu) heq
    rwa [domain_gateway (mem_hitDomains.mp (mem_hitsOf hin).1).1, ← hhome.domain_eq] at h
  rw [gateway_primaryDomain hhome]
  constructor
  · intro h hhit
    by_contra hne
    -- a part of the primary's own domain is nowhere on its way to it
    obtain ⟨x, hx, hxhit⟩ := (hmask.2 _ hpd).mp hhit
    have hxd := domainOf_eq hpd hx
    have hxin : x ∈ hitsOf epSize nvlNumGpu hitRank hitDom :=
      (mem_hitsOf_iff hmask).mpr ⟨lt_of_mem_ranksOf hpd hx, hxhit⟩
    have hnothing := reducedIntra_primary fun hit hin h => hne (hdom hit hin h ▸ h)
    have hx := congrArg (Multiset.count x) h
    rw [count_reduced hhome, hnothing, hcount, if_pos hxin, if_neg (fun h => h.2 hxd)] at hx
    exact absurd hx (by simp)
  · intro hcond
    refine Multiset.ext.mpr fun x => ?_
    rw [count_reduced hhome, hcount]
    by_cases hhit : hitDom.getD home.primaryDomain false = true
    · have hgathered : (reducedIntra epSize nvlNumGpu home hitRank hitDom
          (gateway epSize nvlNumGpu home home.primaryDomain)).count x = _ :=
        count_gateway (mem_hitDomains.mpr ⟨hpd, hhit⟩) x
      rw [hcond hhit] at hgathered
      rw [hgathered]
      by_cases hx : x ∈ hitsOf epSize nvlNumGpu hitRank hitDom
      · by_cases hxd : domain epSize nvlNumGpu x = home.primaryDomain
        · rw [if_pos ⟨hx, hxd⟩, if_neg (fun h => h.2 hxd), if_pos hx]
        · rw [if_neg (fun h => hxd h.2), if_pos ⟨hx, hxd⟩, if_pos hx]
      · rw [if_neg (fun h => hx h.1), if_neg (fun h => hx h.1), if_neg hx]
    · have haway : ∀ hit ∈ hitsOf epSize nvlNumGpu hitRank hitDom,
          domain epSize nvlNumGpu hit ≠ home.primaryDomain := fun hit hin h =>
        hhit (h ▸ (mem_hitDomains.mp (mem_hitsOf hin).1).2)
      have hnothing := reducedIntra_primary fun hit hin h => haway hit hin (hdom hit hin h)
      rw [hnothing, Multiset.count_zero, Nat.zero_add]
      by_cases hx : x ∈ hitsOf epSize nvlNumGpu hitRank hitDom
      · rw [if_pos ⟨hx, haway x hx⟩, if_pos hx]
      · rw [if_neg (fun h => hx h.1), if_neg hx]

end reduce

/-! ## Delivery -/

section deliver

variable {epSize nvlNumGpu : Nat} {home : Home} {hitRank hitDom : List Bool}

theorem hopsIn_bcast : hopsIn .combineInterBcast (hopsOf epSize nvlNumGpu home hitRank hitDom) =
      ((targetDomains epSize nvlNumGpu home).filter fun d => d ≠ home.primaryDomain).map fun d =>
        ⟨home.primary, resultHolder epSize nvlNumGpu home d⟩ := by
  rw [hopsIn_hopsOf]
  show (hitDomains epSize nvlNumGpu hitDom).flatMap (fun _ => []) ++
    (targetDomains epSize nvlNumGpu home).flatMap (fun d => if d ≠ home.primaryDomain then _
      else []) = _
  rw [flatMap_none, List.nil_append, flatMap_filter_map]

theorem hopsIn_fanout : hopsIn .combineIntraFanout (hopsOf epSize nvlNumGpu home hitRank hitDom) =
      (targetDomains epSize nvlNumGpu home).flatMap fun d =>
        ((residents epSize nvlNumGpu home d).filter fun resident =>
          resident ≠ resultHolder epSize nvlNumGpu home d).map fun resident =>
            ⟨resultHolder epSize nvlNumGpu home d, resident⟩ := by
  rw [hopsIn_hopsOf]
  show (hitDomains epSize nvlNumGpu hitDom).flatMap (fun _ => []) ++ _ = _
  rw [flatMap_none, List.nil_append]
  rfl

theorem mem_residents {d rank : Nat} : rank ∈ residents epSize nvlNumGpu home d ↔
      rank ∈ ranksOf epSize nvlNumGpu d ∧ home.isResident rank := by
  rw [residents, List.mem_range'_1]
  constructor
  · intro h
    have hmem : rank ∈ ranksOf epSize nvlNumGpu d := by
      rw [mem_ranksOf]
      unfold lo hi at h
      omega
    exact ⟨hmem, (resident_iff hmem).mpr (by omega)⟩
  · rintro ⟨hmem, hresident⟩
    have h := (resident_iff hmem).mp hresident
    omega

variable (hhome : home.Valid epSize nvlNumGpu)
include hhome

theorem resultHolder_mem {d : Nat} (hd : d ∈ targetDomains epSize nvlNumGpu home) :
    resultHolder epSize nvlNumGpu home d ∈ residents epSize nvlNumGpu home d := by
  obtain ⟨hdlt, hsome⟩ := mem_targetDomains.mp hd
  rw [resultHolder]
  split
  · next h =>
    rw [mem_residents, h, hhome.domain_eq]
    exact ⟨(exists_domain (hhome.lt_end.trans_le hhome.end_le)).2, hhome.start_le, hhome.lt_end⟩
  · rw [residents, List.mem_range'_1]
    have hturn : _ ∧ home.rotate _ _ < _ := rotate_spec hsome
    omega

theorem residents_of_resident {rank : Nat} (h : home.isResident rank) :
    domain epSize nvlNumGpu rank ∈ targetDomains epSize nvlNumGpu home ∧
      rank ∈ residents epSize nvlNumGpu home (domain epSize nvlNumGpu rank) := by
  have hin : domain epSize nvlNumGpu rank < domains epSize nvlNumGpu ∧
      rank ∈ ranksOf epSize nvlNumGpu (domain epSize nvlNumGpu rank) :=
    exists_domain (h.2.trans_le hhome.end_le)
  have hwindow := (resident_iff hin.2).mp h
  exact ⟨mem_targetDomains.mpr ⟨hin.1, by omega⟩, mem_residents.mpr ⟨hin.2, h⟩⟩

theorem domain_resultHolder {d : Nat} (hd : d ∈ targetDomains epSize nvlNumGpu home) :
    domain epSize nvlNumGpu (resultHolder epSize nvlNumGpu home d) = d := by
  have hdlt := (mem_targetDomains.mp hd).1
  exact domainOf_eq hdlt (mem_residents.mp (resultHolder_mem hhome hd)).1

theorem count_bcast (rank : Nat) :
    ((hopsIn .combineInterBcast (hopsOf epSize nvlNumGpu home hitRank hitDom)).map
      Hop.receiver).count rank =
      if home.isResident rank ∧ domain epSize nvlNumGpu rank ≠ home.primaryDomain ∧
        rank = resultHolder epSize nvlNumGpu home (domain epSize nvlNumGpu rank) then 1 else 0 := by
  have hreceivers : (hopsIn .combineInterBcast
      (hopsOf epSize nvlNumGpu home hitRank hitDom)).map Hop.receiver =
      ((targetDomains epSize nvlNumGpu home).filter fun d => d ≠ home.primaryDomain).map
        (resultHolder epSize nvlNumGpu home) := by
    rw [hopsIn_bcast, List.map_map]
    rfl
  have hnodup : (((targetDomains epSize nvlNumGpu home).filter fun d =>
      d ≠ home.primaryDomain).map (resultHolder epSize nvlNumGpu home)).Nodup := by
    refine ((List.nodup_range.filter _).filter _).map_on fun _ hd _ hd' heq => ?_
    have h := congrArg (domain epSize nvlNumGpu) heq
    rwa [domain_resultHolder hhome (List.mem_of_mem_filter hd),
      domain_resultHolder hhome (List.mem_of_mem_filter hd')] at h
  rw [hreceivers, hnodup.count]
  refine if_congr ?_ rfl rfl
  rw [List.mem_map]
  constructor
  · rintro ⟨d, hd, rfl⟩
    obtain ⟨hd, hne⟩ := List.mem_filter.mp hd
    rw [domain_resultHolder hhome hd]
    have hmem := mem_residents.mp (resultHolder_mem hhome hd)
    exact ⟨hmem.2, of_decide_eq_true hne, rfl⟩
  · rintro ⟨hresident, hne, heq⟩
    exact ⟨_, List.mem_filter.mpr ⟨(residents_of_resident hhome hresident).1,
      decide_eq_true hne⟩, heq.symm⟩

theorem count_fanout (rank : Nat) :
    ((hopsIn .combineIntraFanout (hopsOf epSize nvlNumGpu home hitRank hitDom)).map
      Hop.receiver).count rank =
      if home.isResident rank ∧
        rank ≠ resultHolder epSize nvlNumGpu home (domain epSize nvlNumGpu rank) then 1 else 0 := by
  have hreceivers : (hopsIn .combineIntraFanout
      (hopsOf epSize nvlNumGpu home hitRank hitDom)).map Hop.receiver =
      (targetDomains epSize nvlNumGpu home).flatMap fun d =>
        (residents epSize nvlNumGpu home d).filter fun resident =>
          resident ≠ resultHolder epSize nvlNumGpu home d := by
    rw [hopsIn_fanout, List.map_flatMap]
    refine List.flatMap_congr fun d _ => ?_
    rw [List.map_map]
    exact List.map_id _
  have hnodup : ((targetDomains epSize nvlNumGpu home).flatMap fun d =>
      (residents epSize nvlNumGpu home d).filter fun resident =>
        resident ≠ resultHolder epSize nvlNumGpu home d).Nodup :=
    nodup_flatMap_domains (List.nodup_range.filter _) (fun d hd => (mem_targetDomains.mp hd).1)
      (fun _ _ => List.Nodup.filter _ List.nodup_range') fun _ hd _ hrank =>
        (mem_residents.mp (List.mem_of_mem_filter hrank)).1
  rw [hreceivers, hnodup.count]
  refine if_congr ?_ rfl rfl
  rw [List.mem_flatMap]
  constructor
  · rintro ⟨d, hd, hrank⟩
    obtain ⟨hrank, hne⟩ := List.mem_filter.mp hrank
    have hdlt := (mem_targetDomains.mp hd).1
    obtain ⟨hmem, hresident⟩ := mem_residents.mp hrank
    rw [domainOf_eq hdlt hmem]
    exact ⟨hresident, of_decide_eq_true hne⟩
  · rintro ⟨hresident, hne⟩
    obtain ⟨hd, hrank⟩ := residents_of_resident hhome hresident
    exact ⟨_, hd, List.mem_filter.mpr ⟨hrank, decide_eq_true hne⟩⟩

theorem result_delivered : ∃ inter intra, copyAlong {home.primary}
        (hopsIn .combineInterBcast (hopsOf epSize nvlNumGpu home hitRank hitDom)) = some inter ∧
      copyAlong inter
        (hopsIn .combineIntraFanout (hopsOf epSize nvlNumGpu home hitRank hitDom)) = some intra ∧
      ∀ rank, ((hopsIn .combineInterBcast (hopsOf epSize nvlNumGpu home hitRank hitDom) ++
        hopsIn .combineIntraFanout (hopsOf epSize nvlNumGpu home hitRank hitDom)).map
          Hop.receiver).count rank =
        if home.isResident rank ∧ rank ≠ home.primary then 1 else 0 := by
  refine ⟨_, _, copyAlong_eq ?_, copyAlong_eq ?_, fun rank => ?_⟩
  · intro hop hhop
    rw [hopsIn_bcast] at hhop
    obtain ⟨d, -, rfl⟩ := List.mem_map.mp hhop
    exact Finset.mem_singleton_self _
  · intro hop hhop
    rw [hopsIn_fanout] at hhop
    obtain ⟨d, hd, hhop⟩ := List.mem_flatMap.mp hhop
    obtain ⟨resident, -, rfl⟩ := List.mem_map.mp hhop
    -- the holder is the primary, or the first stage has reached it
    show resultHolder epSize nvlNumGpu home d ∈ _
    rw [Finset.mem_union]
    by_cases h : d = home.primaryDomain
    · refine .inl (Finset.mem_singleton.mpr ?_)
      rw [resultHolder, if_pos h]
    · refine .inr (List.mem_toFinset.mpr (List.mem_map.mpr
        ⟨⟨home.primary, resultHolder epSize nvlNumGpu home d⟩, ?_, rfl⟩))
      rw [hopsIn_bcast]
      exact List.mem_map.mpr ⟨d, List.mem_filter.mpr ⟨hd, decide_eq_true h⟩, rfl⟩
  · rw [List.map_append, List.count_append, count_bcast hhome, count_fanout hhome]
    have hprimary : resultHolder epSize nvlNumGpu home home.primaryDomain = home.primary :=
      if_pos rfl
    by_cases hresident : home.isResident rank
    · by_cases hd : domain epSize nvlNumGpu rank = home.primaryDomain
      · by_cases heq : rank = home.primary
        · rw [if_neg (fun h => h.2.1 hd), if_neg (fun h => h.2 (by rw [hd, hprimary, heq])),
            if_neg (fun h => h.2 heq)]
        · simp [hd, hprimary, heq, hresident]
      · have hne : rank ≠ home.primary := fun h => hd (by rw [h, hhome.domain_eq])
        by_cases heq : rank = resultHolder epSize nvlNumGpu home (domain epSize nvlNumGpu rank)
        · rw [if_pos ⟨hresident, hd, heq⟩, if_neg (fun h => h.2 heq), if_pos ⟨hresident, hne⟩]
        · rw [if_neg (fun h => heq h.2.2), if_pos ⟨hresident, heq⟩, if_pos ⟨hresident, hne⟩]
    · rw [if_neg (fun h => hresident h.1), if_neg (fun h => hresident h.1),
        if_neg (fun h => hresident h.1)]

end deliver

/-! ## Bounds -/

section bounds

variable {epSize nvlNumGpu : Nat} {home : Home} {hitRank hitDom : List Bool}

/-- A hop between two ranks of the run, inside a domain or between two as its stage says. -/
def StageHop.WellPlaced (epSize nvlNumGpu : Nat) (hop : StageHop) : Prop :=
  hop.sender < epSize ∧ hop.receiver < epSize ∧
    (domain epSize nvlNumGpu hop.sender = domain epSize nvlNumGpu hop.receiver ↔
      hop.stage.tier = .intraDomain)

theorem wellPlaced_intra {d sender receiver : Nat} {stage : Stage}
    (hd : d < domains epSize nvlNumGpu) (hstage : stage.tier = .intraDomain)
    (hsender : sender ∈ ranksOf epSize nvlNumGpu d)
    (hreceiver : receiver ∈ ranksOf epSize nvlNumGpu d) :
    StageHop.WellPlaced epSize nvlNumGpu ⟨stage, sender, receiver⟩ := by
  refine ⟨lt_of_mem_ranksOf hd hsender, lt_of_mem_ranksOf hd hreceiver, iff_of_true ?_ hstage⟩
  show domain epSize nvlNumGpu sender = domain epSize nvlNumGpu receiver
  rw [domainOf_eq hd hsender, domainOf_eq hd hreceiver]

theorem wellPlaced_inter {d d' sender receiver : Nat} {stage : Stage}
    (hd : d < domains epSize nvlNumGpu) (hd' : d' < domains epSize nvlNumGpu) (hne : d ≠ d')
    (hstage : stage.tier = .interDomain) (hsender : sender ∈ ranksOf epSize nvlNumGpu d)
    (hreceiver : receiver ∈ ranksOf epSize nvlNumGpu d') :
    StageHop.WellPlaced epSize nvlNumGpu ⟨stage, sender, receiver⟩ := by
  have hdiffer : domain epSize nvlNumGpu sender ≠ domain epSize nvlNumGpu receiver := by
    rwa [domainOf_eq hd hsender, domainOf_eq hd' hreceiver]
  refine ⟨lt_of_mem_ranksOf hd hsender, lt_of_mem_ranksOf hd' hreceiver, iff_of_false hdiffer ?_⟩
  show stage.tier ≠ .intraDomain
  rw [hstage]
  decide

theorem eq_of_mem_ite {α : Type} {p : Prop} [Decidable p] {a x : α}
    (h : a ∈ if p then [x] else []) : p ∧ a = x := by
  by_cases hp : p
  · rw [if_pos hp] at h
    exact ⟨hp, List.mem_singleton.mp h⟩
  · rw [if_neg hp] at h
    cases h

theorem hops_wellPlaced (hhome : home.Valid epSize nvlNumGpu) :
    ∀ hop ∈ hopsOf epSize nvlNumGpu home hitRank hitDom, hop.WellPlaced epSize nvlNumGpu := by
  have hpd : home.primaryDomain < domains epSize nvlNumGpu ∧
      home.primary ∈ ranksOf epSize nvlNumGpu home.primaryDomain := by
    rw [hhome.domain_eq]
    exact exists_domain (hhome.lt_end.trans_le hhome.end_le)
  intro hop hhop
  rcases List.mem_append.mp hhop with hhop | hhop
  · obtain ⟨d, hd, hhop⟩ := List.mem_flatMap.mp hhop
    have hdlt := (mem_hitDomains.mp hd).1
    have hgateway : gateway epSize nvlNumGpu home d ∈ ranksOf epSize nvlNumGpu d := gateway_mem hdlt
    rcases List.mem_append.mp hhop with hhop | hhop
    · rcases List.mem_append.mp hhop with hhop | hhop
      · split at hhop
        · cases hhop
        · next hnone =>
          rw [List.mem_singleton.mp hhop]
          -- the primary's domain has a resident, the primary
          have hne : home.primaryDomain ≠ d := by
            rintro rfl
            have := (resident_iff hpd.2).mp ⟨hhome.start_le, hhome.lt_end⟩
            omega
          exact wellPlaced_inter hpd.1 hdlt hne rfl hpd.2 hgateway
      · obtain ⟨hne, heq⟩ := eq_of_mem_ite hhop
        rw [heq]
        exact wellPlaced_inter hdlt hpd.1 hne rfl hgateway hpd.2
    · obtain ⟨hit, hhit, hhop⟩ := List.mem_flatMap.mp hhop
      have hmem := (mem_hitsIn.mp hhit).1
      rcases List.mem_append.mp hhop with hhop | hhop
      · obtain ⟨-, heq⟩ := eq_of_mem_ite hhop
        rw [heq]
        exact wellPlaced_intra hdlt rfl hgateway hmem
      · obtain ⟨-, heq⟩ := eq_of_mem_ite hhop
        rw [heq]
        exact wellPlaced_intra hdlt rfl hmem hgateway
  · obtain ⟨d, hd, hhop⟩ := List.mem_flatMap.mp hhop
    have hdlt := (mem_targetDomains.mp hd).1
    have hholder := (mem_residents.mp (resultHolder_mem hhome hd)).1
    rcases List.mem_append.mp hhop with hhop | hhop
    · split at hhop
      · cases hhop
      · next hne =>
        rw [List.mem_singleton.mp hhop]
        exact wellPlaced_inter hpd.1 hdlt (Ne.symm hne) rfl hpd.2 hholder
    · obtain ⟨resident, hresident, rfl⟩ := List.mem_map.mp hhop
      have hmem := (mem_residents.mp (List.mem_of_mem_filter hresident)).1
      exact wellPlaced_intra hdlt rfl hholder hmem

/-- Bytes for every rank. -/
def Sized (epSize : Nat) (steps : Steps) : Prop :=
  ∀ stage, (steps stage).sendBytes.length = epSize ∧ (steps stage).recvBytes.length = epSize

theorem charge_spec {steps : Steps} (hsized : Sized epSize steps) (hiddenBytes : Nat)
    {hop : StageHop} (hsender : hop.sender < epSize) (hreceiver : hop.receiver < epSize) :
    ∃ steps', charge hiddenBytes steps hop = .ok steps' ∧ Sized epSize steps' ∧ (∀ stage,
        (steps' stage).sendBytes.sum = (steps stage).sendBytes.sum +
          (if hop.stage = stage then hiddenBytes else 0) ∧
        (steps' stage).recvBytes.sum = (steps stage).recvBytes.sum +
          (if hop.stage = stage then hiddenBytes else 0)) ∧
      ∀ stage rank, (steps' stage).sendBytes.getD rank 0 = (steps stage).sendBytes.getD rank 0 +
          (if hop.stage = stage ∧ hop.sender = rank then hiddenBytes else 0) ∧
        (steps' stage).recvBytes.getD rank 0 = (steps stage).recvBytes.getD rank 0 +
          (if hop.stage = stage ∧ hop.receiver = rank then hiddenBytes else 0) := by
  obtain ⟨send, hsend, hlength, hsum, hget⟩ := bump_spec hiddenBytes
    (show hop.sender < (steps hop.stage).sendBytes.length by rwa [(hsized hop.stage).1])
  obtain ⟨recv, hrecv, hlength', hsum', hget'⟩ := bump_spec hiddenBytes
    (show hop.receiver < (steps hop.stage).recvBytes.length by rwa [(hsized hop.stage).2])
  refine ⟨Function.update steps hop.stage
    { steps hop.stage with sendBytes := send, recvBytes := recv }, ?_, fun stage => ?_,
    fun stage => ?_, fun stage rank => ?_⟩
  · rw [charge, hsend, hrecv]
    rfl
  · by_cases h : stage = hop.stage
    · subst h
      rw [Function.update_self]
      exact ⟨hlength.trans (hsized hop.stage).1, hlength'.trans (hsized hop.stage).2⟩
    · rw [Function.update_of_ne h]
      exact hsized stage
  · by_cases h : stage = hop.stage
    · subst h
      rw [Function.update_self, if_pos rfl]
      exact ⟨hsum, hsum'⟩
    · rw [Function.update_of_ne h, if_neg (Ne.symm h)]
      exact ⟨rfl, rfl⟩
  · by_cases h : stage = hop.stage
    · subst h
      rw [Function.update_self]
      simp only [true_and, eq_comm (b := rank), hget, hget']
    · rw [Function.update_of_ne h]
      simp [Ne.symm h]

theorem charges_spec {steps : Steps} (hsized : Sized epSize steps) (hiddenBytes : Nat)
    {hops : List StageHop} (hbounds : ∀ hop ∈ hops, hop.sender < epSize ∧ hop.receiver < epSize) :
    ∃ steps', hops.foldlM (charge hiddenBytes) steps = .ok steps' ∧ Sized epSize steps' ∧ (∀ stage,
        (steps' stage).sendBytes.sum = (steps stage).sendBytes.sum +
          (hops.countP fun hop => hop.stage = stage) * hiddenBytes ∧
        (steps' stage).recvBytes.sum = (steps stage).recvBytes.sum +
          (hops.countP fun hop => hop.stage = stage) * hiddenBytes) ∧
      ∀ stage rank, (steps' stage).sendBytes.getD rank 0 = (steps stage).sendBytes.getD rank 0 +
          (hops.countP fun hop => hop.stage = stage ∧ hop.sender = rank) * hiddenBytes ∧
        (steps' stage).recvBytes.getD rank 0 = (steps stage).recvBytes.getD rank 0 +
          (hops.countP fun hop => hop.stage = stage ∧ hop.receiver = rank) * hiddenBytes := by
  induction hops generalizing steps with
  | nil => exact ⟨steps, rfl, hsized, fun stage => by simp, fun stage rank => by simp⟩
  | cons hop hops ih =>
    obtain ⟨hhead, hrest⟩ := List.forall_mem_cons.mp hbounds
    obtain ⟨steps₁, hcharge, hsized₁, hsum₁, hget₁⟩ :=
      charge_spec hsized hiddenBytes hhead.1 hhead.2
    obtain ⟨steps₂, hcharges, hsized₂, hsum₂, hget₂⟩ := ih hsized₁ hrest
    refine ⟨steps₂, ?_, hsized₂, fun stage => ?_, fun stage rank => ?_⟩
    · rw [List.foldlM_cons, hcharge]
      exact hcharges
    · rw [(hsum₂ stage).1, (hsum₂ stage).2, (hsum₁ stage).1, (hsum₁ stage).2, List.countP_cons]
      simp only [decide_eq_true_eq, Nat.add_mul, ite_mul, Nat.one_mul, Nat.zero_mul]
      omega
    · rw [(hget₂ stage rank).1, (hget₂ stage rank).2, (hget₁ stage rank).1, (hget₁ stage rank).2,
        List.countP_cons, List.countP_cons]
      simp only [decide_eq_true_eq, Nat.add_mul, ite_mul, Nat.one_mul, Nat.zero_mul]
      omega

end bounds

/-! ## The transfer tree -/

theorem tokenHops_eq {epSize nvlNumGpu : Nat} (hep : 0 < epSize) (placement : Placement)
    (tokenIndex : Nat) {hitRank hitDom : List Bool} (hranks : hitRank.length = epSize)
    (hdoms : hitDom.length = domains epSize nvlNumGpu) :
    tokenHops tokenIndex hitRank hitDom placement epSize (NvlLayout.new epSize nvlNumGpu) =
      .ok (hopsOf epSize nvlNumGpu
        (Home.of tokenIndex placement epSize (NvlLayout.new epSize nvlNumGpu)) hitRank hitDom) :=
  domains_hops (homeOf_valid hep placement tokenIndex) hranks hdoms

theorem delivers_iff {epSize nvlNumGpu : Nat} {home : Home} {hitRank hitDom : List Bool}
    (hhome : home.Valid epSize nvlNumGpu) (hmask : DomainMask epSize nvlNumGpu hitRank hitDom) :
    Delivers home epSize ((List.range epSize).filter fun rank => hitRank.getD rank false)
      (hopsOf epSize nvlNumGpu home hitRank hitDom) ↔
      (hitDom.getD home.primaryDomain false = true → GatewayIsPrimary epSize nvlNumGpu home) := by
  have hperm := hitsOf_perm hmask
  rw [← reduced_iff hhome hmask, reducedIntra, Multiset.coe_eq_coe.mpr hperm]
  simp only [hperm.mem_iff]
  constructor
  · exact fun h => h.reduce
  · intro h
    obtain ⟨inter, intra, hinter, hintra, hreached⟩ :
        ∃ inter intra, _ ∧ _ ∧ ∀ hit ∈ hitsOf epSize nvlNumGpu hitRank hitDom, hit ∈ intra :=
      dispatch_delivers hhome
    exact ⟨⟨inter, intra, hinter, hintra, fun hit hhit => hreached hit (hperm.mem_iff.mpr hhit)⟩,
      h, result_delivered hhome⟩

/-! ## Where the gateway is the primary -/

section turns

variable {epSize nvlNumGpu : Nat} (hep : 0 < epSize) (placement : Placement) (tokenIndex : Nat)

include hep

theorem gatewayIsPrimary_of_dvd {home : Home}
    (hof : home = Home.of tokenIndex placement epSize (NvlLayout.new epSize nvlNumGpu))
    {start stop : Nat} (hlo : lo epSize nvlNumGpu home home.primaryDomain = start)
    (hhi : hi epSize nvlNumGpu home home.primaryDomain = stop)
    (hstart : stop - start ∣ start - home.residingStart)
    (hgroup : stop - start ∣ home.residingEnd - home.residingStart) :
    GatewayIsPrimary epSize nvlNumGpu home := by
  have hhome : home.Valid epSize nvlNumGpu := hof ▸ homeOf_valid hep placement tokenIndex
  have hturn : home.primary =
      home.residingStart + home.tokenIndex % (home.residingEnd - home.residingStart) := by
    subst hof
    simp only [Home.of, Nat.add_sub_cancel_left]
  have hprimary : home.primary ∈ ranksOf epSize nvlNumGpu home.primaryDomain := by
    rw [hhome.domain_eq]
    exact (exists_domain (hhome.lt_end.trans_le hhome.end_le)).2
  have hresident := (resident_iff hprimary).mp ⟨hhome.start_le, hhome.lt_end⟩
  have hle : home.residingStart ≤ lo epSize nvlNumGpu home home.primaryDomain := le_max_left _ _
  rw [hlo, hhi] at hresident
  rw [hlo] at hle
  obtain ⟨before, hbefore⟩ := hstart
  have hturns : home.tokenIndex % (stop - start) = home.primary - start := by
    have hsplit : home.primary - home.residingStart =
        (home.primary - start) + (stop - start) * before := by omega
    calc home.tokenIndex % (stop - start)
        = home.tokenIndex % (home.residingEnd - home.residingStart) % (stop - start) :=
          (Nat.mod_mod_of_dvd _ hgroup).symm
      _ = (home.primary - home.residingStart) % (stop - start) := by
          rw [hturn, Nat.add_sub_cancel_left]
      _ = home.primary - start := by
          rw [hsplit, Nat.add_mul_mod_self_left, Nat.mod_eq_of_lt (by omega)]
  rw [GatewayIsPrimary, hlo, hhi, Home.rotate, hturns]
  omega

theorem gatewayIsPrimary_of_inside {home : Home}
    (hof : home = Home.of tokenIndex placement epSize (NvlLayout.new epSize nvlNumGpu))
    (hfirst : first epSize nvlNumGpu home.primaryDomain ≤ home.residingStart)
    (hend : home.residingEnd ≤ first epSize nvlNumGpu home.primaryDomain +
      size epSize nvlNumGpu home.primaryDomain) :
    GatewayIsPrimary epSize nvlNumGpu home :=
  gatewayIsPrimary_of_dvd hep placement tokenIndex hof (max_eq_left hfirst) (min_eq_left hend)
    (by simp) (dvd_refl _)

theorem gatewayIsPrimary_roundRobin : GatewayIsPrimary epSize nvlNumGpu
      (Home.of tokenIndex .roundRobin epSize (NvlLayout.new epSize nvlNumGpu)) := by
  have hhome : (Home.of tokenIndex .roundRobin epSize (NvlLayout.new epSize nvlNumGpu)).Valid
      epSize nvlNumGpu := homeOf_valid hep .roundRobin tokenIndex
  obtain ⟨-, hprimary⟩ : _ < domains epSize nvlNumGpu ∧ _ :=
    exists_domain (hhome.lt_end.trans_le hhome.end_le)
  rw [← hhome.domain_eq, mem_ranksOf] at hprimary
  have hrank : (Home.of tokenIndex .roundRobin epSize (NvlLayout.new epSize nvlNumGpu)).primary =
      (Home.of tokenIndex .roundRobin epSize
        (NvlLayout.new epSize nvlNumGpu)).residingStart := by
    simp only [Home.of, Placement.residingGroup, Nat.mod_one, Nat.add_zero]
  rw [hrank] at hprimary
  exact gatewayIsPrimary_of_inside hep .roundRobin tokenIndex rfl hprimary.1
    (Nat.succ_le_of_lt hprimary.2)

theorem gatewayIsPrimary_of_whole {home : Home}
    (hof : home = Home.of tokenIndex placement epSize (NvlLayout.new epSize nvlNumGpu))
    {before group : Nat}
    (hfirst : first epSize nvlNumGpu home.primaryDomain =
      home.residingStart + size epSize nvlNumGpu home.primaryDomain * before)
    (hend : home.residingEnd =
      home.residingStart + size epSize nvlNumGpu home.primaryDomain * group)
    (hlt : before < group) : GatewayIsPrimary epSize nvlNumGpu home := by
  have hstop : first epSize nvlNumGpu home.primaryDomain +
      size epSize nvlNumGpu home.primaryDomain ≤ home.residingEnd := by
    rw [hfirst, hend, Nat.add_assoc, ← Nat.mul_succ]
    exact Nat.add_le_add_left (Nat.mul_le_mul_left _ hlt) _
  refine gatewayIsPrimary_of_dvd hep placement tokenIndex hof (max_eq_right (by omega))
    (min_eq_right hstop) ?_ ?_
  · rw [Nat.add_sub_cancel_left]
    exact ⟨before, by omega⟩
  · rw [Nat.add_sub_cancel_left]
    exact ⟨group, by omega⟩

end turns

/-- **The transfer tree.** A token's hops are in bounds, and they dispatch it, reduce its
parts and deliver its result as they should exactly if the primary's domain is not hit or
its gateway is the primary. -/
theorem transfer_tree {epSize : Nat} (hep : 0 < epSize) (nvlNumGpu : Nat) (placement : Placement)
    (tokenIndex : Nat) {hitRank hitDom : List Bool} (hranks : hitRank.length = epSize)
    (hmask : DomainMask epSize nvlNumGpu hitRank hitDom) :
    let layout := NvlLayout.new epSize nvlNumGpu
    let home := Home.of tokenIndex placement epSize layout
    ∃ hops, tokenHops tokenIndex hitRank hitDom placement epSize layout = .ok hops ∧
      (∀ hop ∈ hops, hop.sender < epSize ∧ hop.receiver < epSize) ∧
      (∀ hiddenBytes steps, Sized epSize steps → ∃ steps', priceToken tokenIndex hitRank hitDom
        placement epSize hiddenBytes layout steps = .ok steps') ∧
      (Delivers home epSize ((List.range epSize).filter fun rank => hitRank.getD rank false) hops ↔
        (hitDom.getD home.primaryDomain false = true →
          GatewayIsPrimary epSize nvlNumGpu home)) := by
  intro layout home
  have hhome : home.Valid epSize nvlNumGpu := homeOf_valid hep placement tokenIndex
  have hhops := tokenHops_eq hep placement tokenIndex hranks hmask.1
  have hbounds : ∀ hop ∈ hopsOf epSize nvlNumGpu home hitRank hitDom,
      hop.sender < epSize ∧ hop.receiver < epSize := fun hop hhop =>
    ⟨(hops_wellPlaced hhome hop hhop).1, (hops_wellPlaced hhome hop hhop).2.1⟩
  refine ⟨_, hhops, hbounds, fun hiddenBytes steps hsized => ?_, ?_⟩
  · obtain ⟨steps', hsteps, -⟩ := charges_spec hsized hiddenBytes hbounds
    refine ⟨steps', ?_⟩
    rw [priceToken, hhops]
    exact hsteps
  · exact delivers_iff hhome hmask

/-- A ragged second domain: the group is all six ranks, and the token's turn is its own. -/
theorem transfer_tree_ragged :
    ∃ hops, tokenHops 1 [true, false, false, false, false, true] [true, true]
      (.replicatedHeadParallel 6) 6 (NvlLayout.new 6 4) = .ok hops ∧
      Delivers (Home.of 1 (.replicatedHeadParallel 6) 6 (NvlLayout.new 6 4)) 6 [0, 5] hops := by
  obtain ⟨hops, hhops, -, -, h⟩ := transfer_tree (show 0 < 6 by decide) 4
    (.replicatedHeadParallel 6) 1
    (show [true, false, false, false, false, true].length = 6 from rfl)
    (show DomainMask 6 4 [true, false, false, false, false, true] [true, true] by decide +kernel)
  exact ⟨hops, hhops, h.mpr (by decide +kernel)⟩

/-- The next turn of the group is not the next turn of the first domain: rank 0 is the primary
and sends its own part to rank 2, where it stays. -/
theorem part_stays : ∃ hops, tokenHops 6 [true, false, false, false, false, false] [true, false]
      (.replicatedHeadParallel 6) 6 (NvlLayout.new 6 4) = .ok hops ∧
      ¬Delivers (Home.of 6 (.replicatedHeadParallel 6) 6 (NvlLayout.new 6 4)) 6 [0] hops := by
  have hmask : DomainMask 6 4 [true, false, false, false, false, false] [true, false] := by
    decide +kernel
  refine ⟨_, tokenHops_eq (by decide) _ _ rfl hmask.1, fun h => ?_⟩
  have hturn := (delivers_iff (homeOf_valid (by decide) _ _) hmask).mp h
  revert hturn
  decide +kernel

end MoeNet

end ServingSim
