import Mathlib.Data.List.GetD
import ServingSim.Timing.SystematicMarginals

/-
  Routing token by token (`timing::routing::for_each_routed_token`): what the
  communication cost sees of the routing law that the compute cost sees as a histogram.

  Both draw an offset for each token and look up its cell. The histogram first counts
  the tokens of each cell and then gives every expert of a cell that many; the other
  path hands out the cell's experts at once. The two run over one generator and draw
  the same offsets, so they see the same cells.

  What is proved:
    1. `routing_agrees` — the histogram is the sum of the tokens' experts, and the masks
       of a token are the images of its experts.

  The callback borrows neither the cells nor the generator, so what it does with a
  token has no effect on the next one.
-/

namespace ServingSim

/-! ## Splits -/

/-- The first `numExperts % buckets` ranks get one more than the others. -/
def balancedExpertCounts (numExperts buckets : Nat) : List Nat :=
  if buckets = 0 then []
  else (List.range buckets).map fun idx =>
    numExperts / buckets + if idx < numExperts % buckets then 1 else 0

/-- `while remaining > 0`. -/
def domainSizes (nvlNumGpu remaining : Nat) : List Nat :=
  if remaining = 0 ∨ nvlNumGpu = 0 then []
  else min remaining nvlNumGpu :: domainSizes nvlNumGpu (remaining - min remaining nvlNumGpu)
termination_by remaining
decreasing_by omega

def ranksPerNvlDomain (epSize nvlNumGpu : Nat) : List Nat :=
  if epSize = 0 then []
  else if nvlNumGpu = 0 ∨ epSize ≤ nvlNumGpu then [epSize]
  else domainSizes nvlNumGpu epSize

/-- `table[idx] = value`. -/
def write {α : Type} (table : List α) (idx : Nat) (value : α) : Except String (List α) := do
  ensure (idx < table.length) "index out of bounds"
  return table.set idx value

/-- Give the next `copies` entries to one owner. -/
def fillOwner (owner : Nat) : Nat → Nat → List Nat → Except String (Nat × List Nat)
  | 0, idx, table => .ok (idx, table)
  | copies + 1, idx, table => do
    let table ← write table idx owner
    fillOwner owner copies (idx + 1) table

/-- Give the entries of a table to owners in turn, `counts` of them to each. -/
def fillOwners : List Nat → Nat → Nat → List Nat → Except String (List Nat)
  | [], _, _, table => .ok table
  | copies :: counts, owner, idx, table => do
    let (idx, table) ← fillOwner owner copies idx table
    fillOwners counts (owner + 1) idx table

/-! ## Tokens -/

/-- One `on_token` call: the masks, and the experts they come from. -/
structure RoutedToken where
  experts : List Nat
  hitRank : List Bool
  hitDom : List Bool
  deriving DecidableEq, Repr

namespace SystematicCells

def draw (cells : SystematicCells) (rng : RoutingRng) : Except String (List Nat × RoutingRng) := do
  let (offset, rng) ← rng.below totalPpm
  let cell := cells.cellOf offset
  ensure ((cell + 1) * cells.topK ≤ cells.experts.length) "range end index out of range"
  return (cells.cellExperts cell, rng)

end SystematicCells

/-- Mark the rank of an expert and that rank's domain. -/
def markExpert (expertRank rankDomain : List Nat) (masks : List Bool × List Bool) (expert : Nat) :
    Except String (List Bool × List Bool) := do
  let rank ← index expertRank expert
  let hitRank ← write masks.1 rank true
  let domain ← index rankDomain rank
  let hitDom ← write masks.2 domain true
  return (hitRank, hitDom)

/-- The calls of `on_token`, one for each token. -/
def routeTokens (cells : SystematicCells) (expertRank rankDomain : List Nat)
    (ranks domains : Nat) : Nat → RoutingRng → Except String (List RoutedToken × RoutingRng)
  | 0, rng => .ok ([], rng)
  | nTokens + 1, rng => do
    let (experts, rng) ← cells.draw rng
    let (hitRank, hitDom) ← experts.foldlM (markExpert expertRank rankDomain)
      (List.replicate ranks false, List.replicate domains false)
    let (tokens, rng) ← routeTokens cells expertRank rankDomain ranks domains nTokens rng
    return ({ experts, hitRank, hitDom } :: tokens, rng)

def forEachRoutedToken (ppm : List Nat) (topK epSize nvlNumGpu nTokens : Nat)
    (rng : RoutingRng) : Except String (List RoutedToken × RoutingRng) := do
  let counts := balancedExpertCounts ppm.length epSize
  let expertRank ← fillOwners counts 0 0 (List.replicate ppm.length 0)
  let ranksPerDomain := ranksPerNvlDomain epSize nvlNumGpu
  let rankDomain ← fillOwners ranksPerDomain 0 0 (List.replicate epSize 0)
  let (cells, rng) ← SystematicCells.new ppm topK rng
  routeTokens cells expertRank rankDomain epSize ranksPerDomain.length nTokens rng

/-! ## Blocks -/

/-- Entry `i` lies in block `b` of consecutive blocks of the given sizes. -/
def InBlock (sizes : List Nat) (i b : Nat) : Prop :=
  b < sizes.length ∧ (sizes.take b).sum ≤ i ∧ i < (sizes.take (b + 1)).sum

/-- The owners in the order of the entries. -/
def owners : List Nat → Nat → List Nat
  | [], _ => []
  | copies :: counts, owner => List.replicate copies owner ++ owners counts (owner + 1)

theorem owners_inBlock (counts : List Nat) (owner : Nat) {i : Nat} (hi : i < counts.sum) :
    ∃ b, (owners counts owner)[i]? = some (owner + b) ∧ InBlock counts i b := by
  induction counts generalizing owner i with
  | nil => exact absurd hi (Nat.not_lt_zero i)
  | cons copies counts ih =>
    rw [List.sum_cons] at hi
    rw [owners]
    by_cases hfirst : i < copies
    · refine ⟨0, ?_, by simp, by simp, by simpa using hfirst⟩
      rw [List.getElem?_append_left (by simpa using hfirst), List.getElem?_replicate,
        if_pos hfirst, Nat.add_zero]
    · have hrest : i - copies < counts.sum := by omega
      obtain ⟨b, hget, hlt, hlower, hupper⟩ := ih (owner + 1) hrest
      refine ⟨b + 1, ?_, by simpa using hlt, ?_, ?_⟩
      · rw [List.getElem?_append_right (by simpa using hfirst), List.length_replicate, hget]
        congr 1
        omega
      · rw [List.take_succ_cons, List.sum_cons]
        omega
      · rw [List.take_succ_cons, List.sum_cons]
        omega

theorem sum_take_mono (sizes : List Nat) {a b : Nat} (h : a ≤ b) :
    (sizes.take a).sum ≤ (sizes.take b).sum :=
  (List.take_sublist_take_left h).sum_le_sum (by intros; exact Nat.zero_le _)

theorem inBlock_unique {sizes : List Nat} {i : Nat} (hi : i < sizes.sum) :
    ∃! b, InBlock sizes i b := by
  obtain ⟨b, _, hb⟩ := owners_inBlock sizes 0 hi
  refine ⟨b, hb, ?_⟩
  intro c hc
  obtain ⟨_, hlower, hupper⟩ := hb
  obtain ⟨_, hlower', hupper'⟩ := hc
  obtain hlt | heq | hgt := Nat.lt_trichotomy c b
  · have := sum_take_mono sizes (Nat.succ_le_of_lt hlt)
    simp only [Nat.succ_eq_add_one] at this
    omega
  · exact heq
  · have := sum_take_mono sizes (Nat.succ_le_of_lt hgt)
    simp only [Nat.succ_eq_add_one] at this
    omega

theorem fillOwner_spec (owner copies : Nat) {idx : Nat} {table : List Nat}
    (hfits : idx + copies ≤ table.length) :
    fillOwner owner copies idx table = .ok (idx + copies,
      table.take idx ++ List.replicate copies owner ++ table.drop (idx + copies)) := by
  induction copies generalizing idx table with
  | zero => simp [fillOwner]
  | succ copies ih =>
    have hidx : idx < table.length := by omega
    have hnext : idx + 1 + copies ≤ (table.set idx owner).length := by
      rw [List.length_set]
      omega
    rw [fillOwner, write, ensure_eq_ok_iff.mpr hidx]
    change fillOwner owner copies (idx + 1) (table.set idx owner) = _
    rw [ih hnext]
    congr 2
    · omega
    · rw [List.take_succ_eq_append_getElem (by simpa using hidx), List.getElem_set_self,
        List.take_set_of_le (Nat.le_refl _), List.drop_set_of_lt (by omega),
        List.replicate_succ, show idx + 1 + copies = idx + (copies + 1) by omega]
      simp

theorem fillOwners_eq (counts : List Nat) (owner : Nat) {idx : Nat} {table : List Nat}
    (hfits : idx + counts.sum = table.length) :
    fillOwners counts owner idx table = .ok (table.take idx ++ owners counts owner) := by
  induction counts generalizing owner idx table with
  | nil =>
    rw [List.sum_nil] at hfits
    rw [fillOwners, owners, List.append_nil, List.take_of_length_le (by omega)]
  | cons copies counts ih =>
    rw [List.sum_cons] at hfits
    have hlength : (table.take idx ++ List.replicate copies owner).length = idx + copies := by
      rw [List.length_append, List.length_take, List.length_replicate]
      omega
    rw [fillOwners, fillOwner_spec owner copies (by omega)]
    change fillOwners counts (owner + 1) (idx + copies) _ = _
    rw [ih (owner + 1) (by
      rw [List.length_append, hlength, List.length_drop]
      omega)]
    rw [List.take_append_of_le_length (by omega), List.take_of_length_le (by omega), owners,
      List.append_assoc]

theorem fillOwners_spec {counts : List Nat} {n : Nat} (hsum : counts.sum = n) :
    ∃ table, fillOwners counts 0 0 (List.replicate n 0) = .ok table ∧
      ∀ i, i < n → ∀ b, table[i]? = some b ↔ InBlock counts i b := by
  refine ⟨owners counts 0, ?_, ?_⟩
  · rw [fillOwners_eq counts 0 (by rw [Nat.zero_add, hsum, List.length_replicate]),
      List.take_zero, List.nil_append]
  · intro i hi b
    have hin : i < counts.sum := by omega
    obtain ⟨owner, hget, howner⟩ := owners_inBlock counts 0 hin
    rw [Nat.zero_add] at hget
    rw [hget, Option.some_inj]
    constructor
    · intro heq
      exact heq ▸ howner
    · intro hb
      exact (inBlock_unique hin).unique howner hb

/-! ## The two splits -/

theorem length_balancedExpertCounts {numExperts buckets : Nat} :
    (balancedExpertCounts numExperts buckets).length = buckets := by
  unfold balancedExpertCounts
  split
  · rename_i hzero
    rw [hzero, List.length_nil]
  · rw [List.length_map, List.length_range]

theorem sum_balanced (q r buckets : Nat) :
    ((List.range buckets).map fun idx => q + if idx < r then 1 else 0).sum =
      buckets * q + min r buckets := by
  induction buckets with
  | zero => simp
  | succ buckets ih =>
    rw [List.range_succ, List.map_append, List.sum_append, ih, List.map_singleton,
      List.sum_singleton, Nat.succ_mul]
    split <;> omega

theorem sum_balancedExpertCounts {numExperts buckets : Nat} (hbuckets : 0 < buckets) :
    (balancedExpertCounts numExperts buckets).sum = numExperts := by
  unfold balancedExpertCounts
  rw [if_neg (by omega), sum_balanced, Nat.min_eq_left (Nat.mod_lt numExperts hbuckets).le]
  exact Nat.div_add_mod numExperts buckets

theorem sum_domainSizes {nvlNumGpu : Nat} (hnvl : 0 < nvlNumGpu) (remaining : Nat) :
    (domainSizes nvlNumGpu remaining).sum = remaining := by
  induction remaining using Nat.strong_induction_on with
  | _ remaining ih =>
    rw [domainSizes]
    split
    · rename_i hdone
      rw [List.sum_nil]
      omega
    · rw [List.sum_cons, ih _ (by omega)]
      omega

theorem sum_ranksPerNvlDomain (epSize nvlNumGpu : Nat) :
    (ranksPerNvlDomain epSize nvlNumGpu).sum = epSize := by
  unfold ranksPerNvlDomain
  split
  · rename_i hzero
    rw [hzero, List.sum_nil]
  · split
    · rw [List.sum_singleton]
    · exact sum_domainSizes (by omega) epSize

/-! ## Masks -/

/-- The masks are the images of the experts under the two splits. -/
structure RoutedToken.Images (token : RoutedToken) (expertSplit domainSplit : List Nat) : Prop where
  ranks : token.hitRank.length = expertSplit.length
  domains : token.hitDom.length = domainSplit.length
  rank_iff : ∀ rank, token.hitRank.getD rank false = true ↔
    ∃ expert ∈ token.experts, InBlock expertSplit expert rank
  domain_iff : ∀ domain, token.hitDom.getD domain false = true ↔
    ∃ expert ∈ token.experts, ∃ rank, InBlock expertSplit expert rank ∧
      InBlock domainSplit rank domain

theorem write_spec {mask : List Bool} {i : Nat} (hi : i < mask.length) :
    ∃ mask', write mask i true = .ok mask' ∧ mask'.length = mask.length ∧
      ∀ j, mask'.getD j false = true ↔ mask.getD j false = true ∨ j = i := by
  refine ⟨mask.set i true, ?_, List.length_set, ?_⟩
  · rw [write, ensure_eq_ok_iff.mpr hi]
    rfl
  · intro j
    by_cases hj : j = i
    · subst hj
      simp [hi]
    · simp [hj, List.getElem?_set_ne (Ne.symm hj)]

section marks

variable {expertRank rankDomain expertSplit domainSplit : List Nat} {numExperts : Nat}
  (hsplit : expertSplit.sum = numExperts) (hdomains : domainSplit.sum = expertSplit.length)
  (hexperts : ∀ i, i < numExperts → ∀ b, expertRank[i]? = some b ↔ InBlock expertSplit i b)
  (hranks : ∀ i, i < expertSplit.length → ∀ b, rankDomain[i]? = some b ↔ InBlock domainSplit i b)
include hsplit hdomains hexperts hranks

theorem markExpert_spec {masks : List Bool × List Bool} {expert : Nat}
    (hexpert : expert < numExperts) (hlength : masks.1.length = expertSplit.length)
    (hlength' : masks.2.length = domainSplit.length) :
    ∃ masks', markExpert expertRank rankDomain masks expert = .ok masks' ∧
      masks'.1.length = expertSplit.length ∧ masks'.2.length = domainSplit.length ∧
      (∀ r, masks'.1.getD r false = true ↔
        masks.1.getD r false = true ∨ InBlock expertSplit expert r) ∧
      ∀ d, masks'.2.getD d false = true ↔ masks.2.getD d false = true ∨
        ∃ r, InBlock expertSplit expert r ∧ InBlock domainSplit r d := by
  obtain ⟨rank, hrank, honly⟩ := inBlock_unique (hsplit ▸ hexpert)
  obtain ⟨domain, hdomain, honly'⟩ := inBlock_unique (hdomains ▸ hrank.1)
  have hget : index expertRank expert = .ok rank :=
    index_eq_ok_iff.mpr ((hexperts expert hexpert rank).mpr hrank)
  have hget' : index rankDomain rank = .ok domain :=
    index_eq_ok_iff.mpr ((hranks rank hrank.1 domain).mpr hdomain)
  obtain ⟨hitRank, hwrite, hsame, hmarked⟩ := write_spec (hlength ▸ hrank.1)
  obtain ⟨hitDom, hwrite', hsame', hmarked'⟩ := write_spec (hlength' ▸ hdomain.1)
  refine ⟨(hitRank, hitDom), ?_, hsame.trans hlength, hsame'.trans hlength', ?_, ?_⟩
  · simp only [markExpert, hget, hget', hwrite, hwrite', bind, Except.bind]
    rfl
  · intro r
    rw [hmarked]
    apply or_congr_right
    constructor
    · intro heq
      exact heq ▸ hrank
    · intro hr
      exact honly r hr
  · intro d
    rw [hmarked']
    apply or_congr_right
    constructor
    · intro heq
      exact ⟨rank, hrank, heq ▸ hdomain⟩
    · intro hd
      obtain ⟨r, hr, hd⟩ := hd
      obtain rfl := honly r hr
      exact honly' d hd

theorem markExperts_spec (experts : List Nat) (masks : List Bool × List Bool)
    (hin : ∀ expert ∈ experts, expert < numExperts)
    (hlength : masks.1.length = expertSplit.length)
    (hlength' : masks.2.length = domainSplit.length) :
    ∃ masks', experts.foldlM (markExpert expertRank rankDomain) masks = .ok masks' ∧
      masks'.1.length = expertSplit.length ∧ masks'.2.length = domainSplit.length ∧
      (∀ r, masks'.1.getD r false = true ↔
        masks.1.getD r false = true ∨ ∃ expert ∈ experts, InBlock expertSplit expert r) ∧
      ∀ d, masks'.2.getD d false = true ↔ masks.2.getD d false = true ∨
        ∃ expert ∈ experts, ∃ r, InBlock expertSplit expert r ∧ InBlock domainSplit r d := by
  induction experts generalizing masks with
  | nil => exact ⟨masks, rfl, hlength, hlength', by simp, by simp⟩
  | cons expert experts ih =>
    obtain ⟨hexpert, hin⟩ := List.forall_mem_cons.mp hin
    obtain ⟨marked, hmark, hsame, hsame', hrank, hdomain⟩ :=
      markExpert_spec hsplit hdomains hexperts hranks hexpert hlength hlength'
    obtain ⟨masks', hfold, hlast, hlast', hrank', hdomain'⟩ := ih marked hin hsame hsame'
    refine ⟨masks', ?_, hlast, hlast', ?_, ?_⟩
    · rw [List.foldlM_cons, hmark]
      exact hfold
    · intro r
      rw [hrank', hrank, List.exists_mem_cons_iff, or_assoc]
    · intro d
      rw [hdomain', hdomain, List.exists_mem_cons_iff, or_assoc]

theorem images_spec (experts : List Nat) (hin : ∀ expert ∈ experts, expert < numExperts) :
    ∃ hitRank hitDom, experts.foldlM (markExpert expertRank rankDomain)
        (List.replicate expertSplit.length false, List.replicate domainSplit.length false) =
          .ok (hitRank, hitDom) ∧
      RoutedToken.Images { experts, hitRank, hitDom } expertSplit domainSplit := by
  obtain ⟨masks, hfold, hlength, hlength', hrank, hdomain⟩ :=
    markExperts_spec hsplit hdomains hexperts hranks experts
      (List.replicate expertSplit.length false, List.replicate domainSplit.length false) hin
      List.length_replicate List.length_replicate
  refine ⟨masks.1, masks.2, hfold, hlength, hlength', ?_, ?_⟩
  · intro r
    rw [hrank, List.getD_eq_getElem?_getD, List.getElem?_replicate]
    split <;> simp
  · intro d
    rw [hdomain, List.getD_eq_getElem?_getD, List.getElem?_replicate]
    split <;> simp

end marks

/-! ## One generator, the same cells -/

namespace SystematicCells

section exact

variable {cells : SystematicCells} {ppm : List Nat} {topK : Nat} (h : cells.Exact ppm topK)
include h

/-- A draw is the offset that `sample_counts` draws, and the experts of its cell. -/
theorem draw_spec (rng : RoutingRng) : ∃ (offset : Nat) (rng' : RoutingRng),
    rng.below totalPpm = .ok (offset, rng') ∧ cells.cellOf offset < cells.upperOffsets.length ∧
      cells.draw rng = .ok (cells.cellExperts (cells.cellOf offset), rng') := by
  obtain ⟨offset, rng', hdraw, hoffset⟩ := rng.below_spec (show 0 < totalPpm by decide)
  have hcell := (h.found offset hoffset).1
  refine ⟨offset, rng', hdraw, hcell, ?_⟩
  have hfits : (cells.cellOf offset + 1) * cells.topK ≤ cells.experts.length := by
    rw [h.size, h.copies]
    exact Nat.mul_le_mul_right topK hcell
  refine bind_eq_ok_iff.mpr ⟨_, hdraw, ?_⟩
  exact bind_eq_ok_iff.mpr ⟨(), ensure_eq_ok_iff.mpr hfits, rfl⟩

theorem routeTokens_spec {expertRank rankDomain expertSplit domainSplit : List Nat}
    (hsplit : expertSplit.sum = ppm.length) (hdomains : domainSplit.sum = expertSplit.length)
    (hexperts : ∀ i, i < ppm.length → ∀ b, expertRank[i]? = some b ↔ InBlock expertSplit i b)
    (hranks : ∀ i, i < expertSplit.length → ∀ b, rankDomain[i]? = some b ↔ InBlock domainSplit i b)
    (nTokens : Nat) (occupancy : List Nat) (rng : RoutingRng)
    (hlength : occupancy.length = cells.upperOffsets.length) :
    ∃ (drawn : List Nat) (occupancy' : List Nat) (tokens : List RoutedToken) (rng' : RoutingRng),
      cells.occupy nTokens occupancy rng = .ok (occupancy', rng') ∧
      routeTokens cells expertRank rankDomain expertSplit.length domainSplit.length nTokens rng =
        .ok (tokens, rng') ∧
      drawn.length = nTokens ∧ (∀ cell ∈ drawn, cell < cells.upperOffsets.length) ∧
      occupancy'.length = cells.upperOffsets.length ∧
      (∀ cell, occupancy'.getD cell 0 = occupancy.getD cell 0 + drawn.count cell) ∧
      tokens.map RoutedToken.experts = drawn.map cells.cellExperts ∧
      ∀ token ∈ tokens, token.Images expertSplit domainSplit := by
  induction nTokens generalizing occupancy rng with
  | zero => exact ⟨[], occupancy, [], rng, rfl, rfl, rfl, by simp, hlength, by simp, rfl, by simp⟩
  | succ nTokens ih =>
    obtain ⟨offset, rng₁, hbelow, hcell, hdraw⟩ := draw_spec h rng
    obtain ⟨bumped, hbump, hbumped, _, hcount⟩ :=
      bump_spec 1 (hlength.symm ▸ hcell : cells.cellOf offset < occupancy.length)
    obtain ⟨_, _, hin⟩ := h.picks _ hcell
    obtain ⟨hitRank, hitDom, hfold, himages⟩ := images_spec hsplit hdomains hexperts hranks _ hin
    obtain ⟨drawn, occupancy', tokens, rng', hoccupy, hroute, hdrawn, hcells, hlength', hcounts,
      hmap, hall⟩ := ih bumped rng₁ (hbumped.trans hlength)
    refine ⟨cells.cellOf offset :: drawn, occupancy',
      { experts := cells.cellExperts (cells.cellOf offset), hitRank, hitDom } :: tokens, rng',
      ?_, ?_, ?_, ?_, hlength', ?_, ?_, ?_⟩
    · refine bind_eq_ok_iff.mpr ⟨_, hbelow, ?_⟩
      exact bind_eq_ok_iff.mpr ⟨_, hbump, hoccupy⟩
    · refine bind_eq_ok_iff.mpr ⟨_, hdraw, ?_⟩
      refine bind_eq_ok_iff.mpr ⟨_, hfold, ?_⟩
      exact bind_eq_ok_iff.mpr ⟨_, hroute, rfl⟩
    · rw [List.length_cons, hdrawn]
    · exact List.forall_mem_cons.mpr ⟨hcell, hcells⟩
    · intro cell
      rw [hcounts, hcount, List.count_cons]
      by_cases heq : cell = cells.cellOf offset
      · subst heq
        simp
        omega
      · simp [heq, Ne.symm heq]
    · rw [List.map_cons, List.map_cons, hmap]
    · exact List.forall_mem_cons.mpr ⟨himages, hall⟩

/-! ## The histogram of the drawn cells -/

theorem tally_exact {cell : Nat} (count : Nat) {counts : List Nat}
    (hcell : cell < cells.upperOffsets.length) (hlength : counts.length = ppm.length) :
    ∃ counts' : List Nat, cells.tally counts cell count = .ok counts' ∧
      counts'.length = ppm.length ∧ ∀ expert : Nat, counts'.getD expert 0 =
        counts.getD expert 0 + count * (cells.cellExperts cell).count expert := by
  unfold tally
  split
  · rename_i hzero
    subst hzero
    exact ⟨counts, rfl, hlength, by simp⟩
  · obtain ⟨_, hnodup, hexperts⟩ := h.picks cell hcell
    obtain ⟨counts', hfold, hlength', _, hget⟩ :=
      give_spec count (cells.cellExperts cell) counts hnodup (by rw [hlength]; exact hexperts)
    refine ⟨counts', hfold, hlength'.trans hlength, ?_⟩
    intro expert
    rw [hget, hnodup.count]
    split <;> simp

theorem tallies_exact (occupancy : List Nat) (start : Nat) (counts : List Nat)
    (hstart : start + occupancy.length ≤ cells.upperOffsets.length)
    (hlength : counts.length = ppm.length) :
    ∃ counts' : List Nat,
      (occupancy.zipIdx start).foldlM (fun counts entry => cells.tally counts entry.2 entry.1)
        counts = .ok counts' ∧
      counts'.length = ppm.length ∧ ∀ expert : Nat, counts'.getD expert 0 =
        counts.getD expert 0 + ((List.range occupancy.length).map fun i =>
          occupancy.getD i 0 * (cells.cellExperts (start + i)).count expert).sum := by
  induction occupancy generalizing start counts with
  | nil => exact ⟨counts, rfl, hlength, by simp⟩
  | cons count occupancy ih =>
    rw [List.length_cons] at hstart
    obtain ⟨tallied, htally, hlength', hget⟩ :=
      tally_exact h count (show start < cells.upperOffsets.length by omega) hlength
    obtain ⟨counts', hfold, hlength'', hget'⟩ := ih (start + 1) tallied (by omega) hlength'
    refine ⟨counts', ?_, hlength'', ?_⟩
    · rw [List.zipIdx_cons, List.foldlM_cons, htally]
      exact hfold
    · intro expert
      rw [hget', hget, List.length_cons, List.range_succ_eq_map, List.map_cons, List.sum_cons,
        List.map_map, Nat.add_assoc]
      congr 3
      apply List.map_congr_left
      intro i _
      rw [Function.comp_apply, List.getD_cons_succ, Nat.succ_eq_add_one, Nat.add_right_comm,
        Nat.add_assoc]

end exact

theorem sum_ite_eq (l : List Nat) (a v : Nat) :
    (l.map fun b => if b = a then v else 0).sum = l.count a * v := by
  induction l with
  | nil => simp
  | cons b l ih =>
    rw [List.map_cons, List.sum_cons, ih, List.count_cons, Nat.add_mul, Nat.add_comm]
    by_cases heq : b = a <;> simp [heq]

theorem sum_count_mul {n : Nat} (f : Nat → Nat) {drawn : List Nat}
    (hin : ∀ cell ∈ drawn, cell < n) :
    ((List.range n).map fun cell => drawn.count cell * f cell).sum = (drawn.map f).sum := by
  induction drawn with
  | nil => simp
  | cons cell drawn ih =>
    obtain ⟨hcell, hin⟩ := List.forall_mem_cons.mp hin
    have hsplit : (fun c => (cell :: drawn).count c * f c) =
        fun c => drawn.count c * f c + if c = cell then f cell else 0 := by
      funext c
      rw [List.count_cons, Nat.add_mul]
      by_cases heq : c = cell
      · subst heq
        simp
      · simp [heq, Ne.symm heq]
    rw [hsplit, List.sum_map_add, ih hin, List.map_cons, List.sum_cons, Nat.add_comm]
    congr 1
    have hone : (List.range n).count cell = 1 :=
      List.count_eq_one_of_mem List.nodup_range (List.mem_range.mpr hcell)
    rw [sum_ite_eq, hone, Nat.one_mul]

end SystematicCells

/-! ## Compute and communication -/

open SystematicCells in
/-- **Compute and communication see the same routing.** For every feasible distribution,
token count and seed, and every number of ranks and domain size, the histogram is the sum
over the routed tokens of the experts each of them selects, and the masks of a token are
the images of its experts under the two splits, in which every expert has exactly one
rank and every rank exactly one domain. `simulate_once` returns before the routing when
there are no ranks. -/
theorem routing_agrees {ppm : List Nat} {topK : Nat} (htop : topK ≤ ppm.length)
    (hsum : ppm.sum = totalPpm) (hfeasible : ∀ mass ∈ ppm, topK * mass ≤ totalPpm)
    {epSize : Nat} (hranks : 0 < epSize) (nvlNumGpu nTokens : Nat) (seed : SplitMix.Word) :
    let expertSplit := balancedExpertCounts ppm.length epSize
    let domainSplit := ranksPerNvlDomain epSize nvlNumGpu
    ∃ (counts : List Nat) (tokens : List RoutedToken) (rng : RoutingRng),
      sampleTopkExpertCounts ppm topK nTokens seed = .ok counts ∧
      forEachRoutedToken ppm topK epSize nvlNumGpu nTokens (RoutingRng.new seed) =
        .ok (tokens, rng) ∧
      counts.length = ppm.length ∧ tokens.length = nTokens ∧
      (∀ expert, counts.getD expert 0 = (tokens.map fun token => token.experts.count expert).sum) ∧
      (∀ token ∈ tokens, token.experts.length = topK ∧ token.experts.Nodup ∧
        (∀ expert ∈ token.experts, expert < ppm.length) ∧
        token.Images expertSplit domainSplit) ∧
      expertSplit.length = epSize ∧
      (∀ expert, expert < ppm.length → ∃! rank, InBlock expertSplit expert rank) ∧
      ∀ rank, rank < epSize → ∃! domain, InBlock domainSplit rank domain := by
  intro expertSplit domainSplit
  have hlength : expertSplit.length = epSize := length_balancedExpertCounts
  have hsplit : expertSplit.sum = ppm.length := sum_balancedExpertCounts hranks
  have hdomains : domainSplit.sum = epSize := sum_ranksPerNvlDomain epSize nvlNumGpu
  obtain ⟨expertRank, hfill, hexpertRank⟩ := fillOwners_spec hsplit
  obtain ⟨rankDomain, hfill', hrankDomain⟩ := fillOwners_spec hdomains
  obtain ⟨order, cells, rng, hperm, hcells, hnew⟩ :=
    new_spec htop hsum hfeasible (RoutingRng.new seed)
  obtain ⟨built, hbuilt, h⟩ := ofOrder_exact hperm hsum hfeasible
  obtain rfl : cells = built := Except.ok.inj (hcells.symm.trans hbuilt)
  obtain ⟨drawn, occupancy, tokens, rng', hoccupy, hroute, hdrawn, hin, hsize, hcount, hmap,
    himages⟩ := routeTokens_spec h hsplit (hdomains.trans hlength.symm) hexpertRank
      (hlength ▸ hrankDomain) nTokens (List.replicate cells.upperOffsets.length 0) rng
      List.length_replicate
  obtain ⟨counts, htally, hwidth, hget⟩ := tallies_exact h occupancy 0
    (List.replicate cells.numExperts 0) (by omega) (by rw [List.length_replicate, h.numExperts])
  refine ⟨counts, tokens, rng', ?_, ?_, hwidth, ?_, ?_, ?_, hlength, ?_, ?_⟩
  · refine bind_eq_ok_iff.mpr ⟨_, hnew, ?_⟩
    refine bind_eq_ok_iff.mpr ⟨(counts, rng'), ?_, rfl⟩
    refine bind_eq_ok_iff.mpr ⟨_, hoccupy, ?_⟩
    exact bind_eq_ok_iff.mpr ⟨_, htally, rfl⟩
  · refine bind_eq_ok_iff.mpr ⟨_, hfill, ?_⟩
    refine bind_eq_ok_iff.mpr ⟨_, hfill', ?_⟩
    refine bind_eq_ok_iff.mpr ⟨_, hnew, ?_⟩
    rw [hlength] at hroute
    exact hroute
  · rw [← hdrawn, ← List.length_map (f := RoutedToken.experts), hmap, List.length_map]
  · intro expert
    -- an expert is counted once for each drawn cell that holds it, in either order
    have hcells : ∀ i ∈ List.range occupancy.length,
        occupancy.getD i 0 * (cells.cellExperts (0 + i)).count expert =
          drawn.count i * (cells.cellExperts i).count expert := by
      intro i hi
      have hi : i < cells.upperOffsets.length := hsize ▸ List.mem_range.mp hi
      rw [hcount, List.getD_eq_getElem _ _ (by simpa using hi), List.getElem_replicate,
        Nat.zero_add, Nat.zero_add]
    have hzero : (List.replicate cells.numExperts 0).getD expert 0 = 0 := by
      rw [List.getD_eq_getElem?_getD, List.getElem?_replicate]
      split <;> rfl
    have htokens : (tokens.map fun token => token.experts.count expert) =
        drawn.map fun cell => (cells.cellExperts cell).count expert := by
      have := congrArg (List.map (List.count expert)) hmap
      simpa [List.map_map, Function.comp_def] using this
    rw [hget, hzero, Nat.zero_add, List.map_congr_left hcells, hsize, htokens]
    exact sum_count_mul (fun cell => (cells.cellExperts cell).count expert) hin
  · intro token htoken
    have hmem : token.experts ∈ drawn.map cells.cellExperts := hmap ▸ List.mem_map_of_mem htoken
    obtain ⟨cell, hcell, hexperts⟩ := List.mem_map.mp hmem
    obtain ⟨hpicks, hnodup, hbound⟩ := h.picks cell (hin cell hcell)
    rw [hexperts] at hpicks hnodup hbound
    exact ⟨hpicks, hnodup, hbound, himages token htoken⟩
  · intro expert hexpert
    exact inBlock_unique (hsplit ▸ hexpert)
  · intro rank hrank
    exact inBlock_unique (hdomains ▸ hrank)

/-- Five experts on three ranks (two, two and one) in domains of two ranks. -/
theorem routing_agrees_ragged :
    ∃ (counts : List Nat) (tokens : List RoutedToken) (rng : RoutingRng),
      sampleTopkExpertCounts [300000, 250000, 200000, 150000, 100000] 3 7 1 = .ok counts ∧
      forEachRoutedToken [300000, 250000, 200000, 150000, 100000] 3 3 2 7 (RoutingRng.new 1) =
        .ok (tokens, rng) ∧ tokens.length = 7 ∧
      ∀ expert, counts.getD expert 0 =
        (tokens.map fun token => token.experts.count expert).sum := by
  obtain ⟨counts, tokens, rng, hsample, hroute, _, hlength, hcounts, _⟩ :=
    @routing_agrees [300000, 250000, 200000, 150000, 100000] 3 (by decide) (by decide)
      (by decide) 3 (by decide) 2 7 1
  exact ⟨counts, tokens, rng, hsample, hroute, hlength, hcounts⟩

end ServingSim
