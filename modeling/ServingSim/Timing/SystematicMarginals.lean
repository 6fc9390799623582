import ServingSim.Timing.SystematicCells

/-
  The marginals of systematic routing are exact.

  The law is read off the line of the shuffled experts: an offset picks, in each
  period, the expert whose interval its point falls in (`own`). The cells are cut at
  every residue of an end, so an offset picks what its cell's lower end picks, and a
  sum over cells by width is a sum over offsets, which is a sum over the points of
  the whole line: an expert owns as many points as its inclusion mass.

  What is proved:
    1. `systematic_marginals` — both, for every order and for every generator state.
-/

namespace ServingSim

open Systematic

namespace SystematicCells

/-! ## What the cells are -/

def width (cells : SystematicCells) (cell : Nat) : Nat :=
  cells.upperOffsets.getD cell 0 - (0 :: cells.upperOffsets).getD cell 0

structure Exact (cells : SystematicCells) (ppm : List Nat) (topK : Nat) : Prop where
  copies : cells.topK = topK
  numExperts : cells.numExperts = ppm.length
  /-- The cells are non-empty and follow each other from 0. -/
  increasing : (0 :: cells.upperOffsets).Pairwise (· < ·)
  last : cells.upperOffsets.getLastD 0 = totalPpm
  size : cells.experts.length = cells.upperOffsets.length * topK
  picks : ∀ cell < cells.upperOffsets.length, (cells.cellExperts cell).length = topK ∧
    (cells.cellExperts cell).Nodup ∧ ∀ expert ∈ cells.cellExperts cell, expert < ppm.length
  /-- The cells of an expert are as wide together as its inclusion mass. -/
  marginal : ∀ expert < ppm.length, ((List.range cells.upperOffsets.length).map fun cell =>
      if expert ∈ cells.cellExperts cell then cells.width cell else 0).sum =
        topK * ppm.getD expert 0
  /-- Every offset selects the cell it lies in. -/
  found : ∀ offset < totalPpm, cells.cellOf offset < cells.upperOffsets.length ∧
    (0 :: cells.upperOffsets).getD (cells.cellOf offset) 0 ≤ offset ∧
    offset < cells.upperOffsets.getD (cells.cellOf offset) 0

/-! ## The shuffle -/

theorem swap_spec {order : List Nat} {i j : Nat} (hi : i < order.length) (hj : j < order.length) :
    ∃ order' : List Nat, swap order i j = .ok order' ∧ order'.Perm order := by
  have hindexI : index order i = .ok order[i] := index_eq_ok_iff.mpr (List.getElem?_eq_getElem hi)
  have hindexJ : index order j = .ok order[j] := index_eq_ok_iff.mpr (List.getElem?_eq_getElem hj)
  exact ⟨_, by rw [swap, hindexI, hindexJ]; rfl, List.set_set_perm hi hj⟩

theorem shuffle_spec (last : Nat) (order : List Nat) (rng : RoutingRng)
    (h : last ≤ order.length - 1) : ∃ (order' : List Nat) (rng' : RoutingRng),
      shuffle last order rng = .ok (order', rng') ∧ order'.Perm order := by
  induction last generalizing order rng with
  | zero => exact ⟨order, rng, rfl, .refl _⟩
  | succ last ih =>
    obtain ⟨other, drawn, hdraw, hother⟩ := rng.below_spec (show 0 < last + 2 by omega)
    obtain ⟨swapped, hswap, hperm⟩ := swap_spec (show last + 1 < order.length by omega)
      (show other < order.length by omega)
    obtain ⟨order', rng', hshuffle, hperm'⟩ := ih swapped drawn (by rw [hperm.length_eq]; omega)
    refine ⟨order', rng', ?_, hperm'.trans hperm⟩
    rw [shuffle, hdraw]
    show (swap order (last + 1) other >>= fun order => shuffle last order drawn) = _
    rw [hswap]
    exact hshuffle

/-! ## The line of the experts -/

section line

variable {ppm : List Nat} {topK : Nat} {order : List Nat}

/-- The inclusion mass of an expert. -/
def inclusionMass (ppm : List Nat) (topK expert : Nat) : Nat := ppm.getD expert 0 * topK

theorem lay_eq (cumulative : Nat) (order : List Nat)
    (horder : ∀ expert ∈ order, expert < ppm.length)
    (hfeasible : ∀ expert ∈ order, inclusionMass ppm topK expert ≤ totalPpm) :
    lay ppm topK cumulative order = .ok (ends (inclusionMass ppm topK) cumulative order,
      ((ends (inclusionMass ppm topK) cumulative order).map (· % totalPpm)).filter (· ≠ 0)) := by
  induction order generalizing cumulative with
  | nil => rfl
  | cons expert order ih =>
    obtain ⟨hexpert, horder⟩ := List.forall_mem_cons.mp horder
    obtain ⟨hmass, hfeasible⟩ := List.forall_mem_cons.mp hfeasible
    have hindex : index ppm expert = .ok (ppm.getD expert 0) := by
      rw [index_eq_ok_iff, List.getD_eq_getElem?_getD, List.getElem?_eq_getElem hexpert]
      rfl
    have hmass : ppm.getD expert 0 * topK ≤ totalPpm := hmass
    rw [lay, hindex]
    simp only [bind, Except.bind]
    rw [ensure_eq_ok_iff.mpr hmass]
    dsimp only
    rw [show ppm.getD expert 0 * topK = inclusionMass ppm topK expert from rfl,
      ih (cumulative + inclusionMass ppm topK expert) horder hfeasible]
    simp only [pure, Except.pure, ends, List.map_cons, List.filter_cons]
    by_cases hzero : (cumulative + inclusionMass ppm topK expert) % totalPpm = 0 <;> simp [hzero]

variable (hperm : order.Perm (List.range ppm.length))
  (hsum : ppm.sum = totalPpm)
  (hfeasible : ∀ mass ∈ ppm, topK * mass ≤ totalPpm)

include hperm in
theorem nodup_order : order.Nodup := hperm.nodup_iff.mpr List.nodup_range

include hperm in
theorem mem_order_iff {expert : Nat} : expert ∈ order ↔ expert < ppm.length :=
  hperm.mem_iff.trans List.mem_range

include hfeasible in
theorem inclusionMass_le (expert : Nat) : inclusionMass ppm topK expert ≤ totalPpm := by
  rw [inclusionMass, Nat.mul_comm]
  by_cases hexpert : expert < ppm.length
  · refine hfeasible _ ?_
    rw [List.getD_eq_getElem?_getD, List.getElem?_eq_getElem hexpert]
    exact List.getElem_mem hexpert
  · rw [List.getD_eq_getElem?_getD, List.getElem?_eq_none (by omega)]
    exact Nat.zero_le _

include hperm hsum in
/-- The line is `topK` periods long. -/
theorem sum_inclusionMass : (order.map (inclusionMass ppm topK)).sum = topK * totalPpm := by
  have hrange : (List.range ppm.length).map (fun expert => ppm.getD expert 0) = ppm := by
    refine List.ext_getElem (by simp) fun i hi hi' => ?_
    simp [List.getD_eq_getElem?_getD, List.getElem?_eq_getElem hi']
  calc (order.map (inclusionMass ppm topK)).sum
      = ((List.range ppm.length).map (inclusionMass ppm topK)).sum := (hperm.map _).sum_eq
    _ = ((List.range ppm.length).map fun expert => ppm.getD expert 0).sum * topK := by
        rw [← List.sum_map_mul_right]
        rfl
    _ = topK * totalPpm := by rw [hrange, hsum, Nat.mul_comm]

/-- The expert a point of the line belongs to. -/
def own (ppm : List Nat) (topK : Nat) (order : List Nat) (point : Nat) : Nat :=
  (owner (inclusionMass ppm topK) 0 order point).getD 0

/-- The experts an offset picks. -/
def ownPicks (ppm : List Nat) (topK : Nat) (order : List Nat) (offset : Nat) : List Nat :=
  (List.range topK).map fun copy => own ppm topK order (offset + copy * totalPpm)

theorem point_lt {offset copy : Nat} (hoffset : offset < totalPpm) (hcopy : copy < topK) :
    offset + copy * totalPpm < topK * totalPpm := by
  have := Nat.mul_le_mul_right totalPpm (Nat.succ_le_of_lt hcopy)
  rw [Nat.succ_mul] at this
  omega

include hperm hsum in
theorem owner_own {point : Nat} (h : point < topK * totalPpm) :
    owner (inclusionMass ppm topK) 0 order point = some (own ppm topK order point) := by
  obtain ⟨expert, hexpert⟩ := exists_owner (m := inclusionMass ppm topK) (Nat.zero_le point)
    (by rw [Nat.zero_add, sum_inclusionMass hperm hsum]; exact h)
  rw [own, hexpert]
  rfl

include hperm hsum in
theorem picks_eq {offset : Nat} (hoffset : offset < totalPpm) :
    picks (ends (inclusionMass ppm topK) 0 order) order topK offset =
      .ok (ownPicks ppm topK order offset) := by
  refine mapM_eq_ok_of_forall fun copy hcopy => ?_
  rw [index_eq_ok_iff]
  exact owner_own hperm hsum (point_lt hoffset (List.mem_range.mp hcopy))

include hperm hsum hfeasible in
/-- No expert is picked twice: its interval is not longer than a period. -/
theorem nodup_ownPicks {offset : Nat} (hoffset : offset < totalPpm) :
    (ownPicks ppm topK order offset).Nodup := by
  rw [ownPicks, List.nodup_map_iff_inj_on List.nodup_range]
  have hordered : ∀ c c' : Nat, c < c' → c' < topK →
      own ppm topK order (offset + c * totalPpm) ≠ own ppm topK order (offset + c' * totalPpm) := by
    intro c c' hlt hc' heq
    have hp := owner_own hperm hsum (point_lt hoffset (hlt.trans hc'))
    have hq := owner_own hperm hsum (point_lt hoffset hc')
    rw [← heq] at hq
    have hdist := owner_dist_lt (nodup_order hperm) (Nat.zero_le _) hp hq
    have hmass := inclusionMass_le hfeasible (own ppm topK order (offset + c * totalPpm))
    have hperiod := Nat.mul_le_mul_right totalPpm (Nat.succ_le_of_lt hlt)
    rw [Nat.succ_mul] at hperiod
    omega
  intro c hc c' hc' heq
  rcases Nat.lt_trichotomy c c' with hlt | heq' | hlt
  · exact absurd heq (hordered c c' hlt (List.mem_range.mp hc'))
  · exact heq'
  · exact absurd heq.symm (hordered c' c hlt (List.mem_range.mp hc))

include hperm hsum in
theorem mem_ownPicks {offset expert : Nat} (hoffset : offset < totalPpm)
    (h : expert ∈ ownPicks ppm topK order offset) : expert < ppm.length := by
  obtain ⟨copy, hcopy, rfl⟩ := List.mem_map.mp h
  exact (mem_order_iff hperm).mp
    (owner_mem (owner_own hperm hsum (point_lt hoffset (List.mem_range.mp hcopy))))

include hperm hsum hfeasible in
/-- The offsets that pick an expert are as many as its inclusion mass. -/
theorem sum_ownPicks {expert : Nat} (hexpert : expert < ppm.length) :
    ∑ offset ∈ Finset.Ico 0 totalPpm,
      (if expert ∈ ownPicks ppm topK order offset then 1 else 0) = topK * ppm.getD expert 0 := by
  have hcount : ∀ offset ∈ Finset.range totalPpm,
      (if expert ∈ ownPicks ppm topK order offset then 1 else 0) = ∑ copy ∈ Finset.range topK,
          if owner (inclusionMass ppm topK) 0 order (offset + copy * totalPpm) = some expert
          then 1 else 0 := by
    intro offset hoffset
    have hlt := Finset.mem_range.mp hoffset
    rw [← (nodup_ownPicks hperm hsum hfeasible hlt).count, ownPicks, count_map_range]
    refine Finset.sum_congr rfl fun copy hcopy => ?_
    rw [owner_own hperm hsum (point_lt hlt (Finset.mem_range.mp hcopy))]
    simp
  have hone : order.count expert = 1 :=
    List.count_eq_one_of_mem (nodup_order hperm) ((mem_order_iff hperm).mpr hexpert)
  rw [← Finset.range_eq_Ico, Finset.sum_congr rfl hcount, sum_periods totalPpm topK fun point =>
      if owner (inclusionMass ppm topK) 0 order point = some expert then 1 else 0]
  have hall := card_owner (m := inclusionMass ppm topK) 0 order expert
  rw [Nat.zero_add, sum_inclusionMass hperm hsum, ← Finset.range_eq_Ico, hone, Nat.one_mul] at hall
  rw [hall, inclusionMass, Nat.mul_comm]

/-! ## The cuts -/

/-- The cuts are a strictly increasing list from 0 to `totalPpm` with every residue
of an end among them. -/
theorem exists_uppers (ends : List Nat) : ∃ uppers : List Nat,
      dedupRuns ((0 :: (ends.map (· % totalPpm)).filter (· ≠ 0)).mergeSort (· ≤ ·)) ++
        [totalPpm] = 0 :: uppers ∧
      (0 :: uppers).Pairwise (· < ·) ∧ uppers.getLast? = some totalPpm ∧
      ∀ upper ∈ ends, upper % totalPpm ∈ 0 :: uppers := by
  set residues := (ends.map (· % totalPpm)).filter (· ≠ 0) with hresidues
  set sorted := dedupRuns ((0 :: residues).mergeSort (· ≤ ·)) with hsorted
  have hmem : ∀ b : Nat, b ∈ sorted ↔ b = 0 ∨ b ∈ residues := by
    intro b
    rw [hsorted, mem_dedupRuns, List.mem_mergeSort, List.mem_cons]
  have hlt : ∀ b ∈ sorted, b < totalPpm := by
    intro b hb
    rcases (hmem b).mp hb with rfl | hb
    · decide
    · obtain ⟨upper, -, rfl⟩ := List.mem_map.mp (List.mem_filter.mp hb).1
      exact Nat.mod_lt _ (by decide)
  have hstrict : sorted.Pairwise (· < ·) := strict_dedupRuns (pairwise_mergeSort_le _)
  obtain ⟨first, cuts, hcons⟩ : ∃ first cuts, sorted = first :: cuts :=
    List.exists_cons_of_ne_nil (List.ne_nil_of_mem ((hmem 0).mpr (.inl rfl)))
  have hzero : first = 0 := by
    have hin : 0 ∈ first :: cuts := hcons ▸ (hmem 0).mpr (.inl rfl)
    rcases List.mem_cons.mp hin with h | h
    · exact h.symm
    · exact absurd ((List.pairwise_cons.mp (hcons ▸ hstrict)).1 0 h) (Nat.not_lt_zero _)
  subst hzero
  refine ⟨cuts ++ [totalPpm], by rw [hcons]; rfl, ?_, by simp, ?_⟩
  · rw [← List.cons_append, ← hcons, List.pairwise_append]
    refine ⟨hstrict, List.pairwise_singleton _ _, ?_⟩
    intro b hb c hc
    rw [List.mem_singleton.mp hc]
    exact hlt b hb
  · intro upper hupper
    rw [← List.cons_append, ← hcons, List.mem_append]
    refine .inl ((hmem _).mpr ?_)
    by_cases hresidue : upper % totalPpm = 0
    · exact .inl hresidue
    · exact .inr (List.mem_filter.mpr ⟨List.mem_map_of_mem hupper, by simpa using hresidue⟩)

variable {uppers : List Nat}

theorem ownPicks_cell (hstrict : (0 :: uppers).Pairwise (· < ·))
    (hlast : uppers.getLastD 0 = totalPpm)
    (hresidues : ∀ upper ∈ ends (inclusionMass ppm topK) 0 order, upper % totalPpm ∈ 0 :: uppers)
    {cell : Nat × Nat} (hcell : cell ∈ cells 0 uppers) {x : Nat} (hx : cell.1 ≤ x)
    (hx' : x < cell.2) : ownPicks ppm topK order x = ownPicks ppm topK order cell.1 := by
  have hstop : cell.2 ≤ totalPpm := hlast ▸ (cell_bounds hstrict hcell).2.2
  refine List.map_congr_left fun copy _ => ?_
  rw [own, own, owner_congr (q := x + copy * totalPpm) (Nat.add_le_add_right hx _)]
  intro upper hupper hle
  by_contra hgt
  -- the residue of an end between the two points would be a cut inside the cell
  obtain ⟨y, rfl⟩ : ∃ y, upper = y + copy * totalPpm := ⟨upper - copy * totalPpm, by omega⟩
  have hresidue : (y + copy * totalPpm) % totalPpm = y := by
    rw [Nat.add_mul_mod_self_right, Nat.mod_eq_of_lt (by omega)]
  have hcut := cut_outside hstrict hcell (hresidue ▸ hresidues _ hupper)
  omega

/-! ## The cells of one order -/

/-- The cells between the given cuts, each picking what its lower end picks. -/
def cutCells (ppm : List Nat) (topK : Nat) (order uppers : List Nat) : SystematicCells where
  upperOffsets := uppers
  experts := ((cells 0 uppers).map fun cell => ownPicks ppm topK order cell.1).flatten
  topK := topK
  numExperts := ppm.length

variable (ppm topK order) in
theorem cutCells_cell {cell : Nat} {bounds : Nat × Nat}
    (hbounds : (cells 0 uppers)[cell]? = some bounds) :
    (cutCells ppm topK order uppers).cellExperts cell = ownPicks ppm topK order bounds.1 ∧
      (0 :: uppers).getD cell 0 = bounds.1 ∧ uppers.getD cell 0 = bounds.2 := by
  obtain ⟨hlower?, hupper?⟩ := List.getElem?_zip_eq_some.mp hbounds
  refine ⟨?_, by rw [List.getD_eq_getElem?_getD, hlower?]; rfl,
    by rw [List.getD_eq_getElem?_getD, hupper?]; rfl⟩
  refine drop_take_flatten ?_ (by rw [List.getElem?_map, hbounds]; rfl)
  intro block hblock
  obtain ⟨bounds', -, rfl⟩ := List.mem_map.mp hblock
  simp [ownPicks, cutCells]

theorem widths_eq (uppers : List Nat) (expert : Nat) : ((List.range uppers.length).map fun cell =>
        if expert ∈ (cutCells ppm topK order uppers).cellExperts cell
        then (cutCells ppm topK order uppers).width cell else 0) =
      (cells 0 uppers).map fun cell =>
        (cell.2 - cell.1) * if expert ∈ ownPicks ppm topK order cell.1 then 1 else 0 := by
  refine List.ext_getElem (by simp) fun cell hcell hcell' => ?_
  have hlt : cell < (cells 0 uppers).length := by simpa using hcell'
  obtain ⟨hpicks, hlo, hhi⟩ := cutCells_cell ppm topK order (List.getElem?_eq_getElem hlt)
  rw [List.getElem_map, List.getElem_map, List.getElem_range, hpicks, width]
  rw [show (cutCells ppm topK order uppers).upperOffsets = uppers from rfl, hlo, hhi]
  by_cases hmem : expert ∈ ownPicks ppm topK order (cells 0 uppers)[cell].1 <;> simp [hmem]

include hperm hsum hfeasible in
theorem cutCells_exact (hstrict : (0 :: uppers).Pairwise (· < ·))
    (hlast : uppers.getLastD 0 = totalPpm)
    (hresidues : ∀ upper ∈ ends (inclusionMass ppm topK) 0 order,
      upper % totalPpm ∈ 0 :: uppers) : (cutCells ppm topK order uppers).Exact ppm topK := by
  constructor
  case copies => rfl
  case numExperts => rfl
  case increasing => exact hstrict
  case last => exact hlast
  case size =>
    show ((cells 0 uppers).map fun cell => ownPicks ppm topK order cell.1).flatten.length =
      uppers.length * topK
    have hall : ((cells 0 uppers).map (List.length ∘ fun cell => ownPicks ppm topK order cell.1)) =
        (cells 0 uppers).map fun _ => topK := List.map_congr_left fun cell _ => by simp [ownPicks]
    rw [List.length_flatten, List.map_map, hall]
    simp
  case picks =>
    intro cell hcell
    have hlength : cell < (cells 0 uppers).length := by
      rw [length_cells]
      exact hcell
    have hget := List.getElem?_eq_getElem hlength
    have hlt : (cells 0 uppers)[cell].1 < totalPpm := by
      obtain ⟨-, hwidth, hstop⟩ := cell_bounds hstrict (List.mem_of_getElem? hget)
      omega
    rw [(cutCells_cell ppm topK order hget).1]
    exact ⟨by simp [ownPicks], nodup_ownPicks hperm hsum hfeasible hlt,
      fun expert hexpert => mem_ownPicks hperm hsum hlt hexpert⟩
  case marginal =>
    intro expert hexpert
    rw [show (cutCells ppm topK order uppers).upperOffsets = uppers from rfl, widths_eq,
      sum_cells hstrict (fun x => if expert ∈ ownPicks ppm topK order x then 1 else 0)
        fun cell hcell x hx hx' => by
          rw [ownPicks_cell hstrict hlast hresidues hcell hx hx'], hlast]
    exact sum_ownPicks hperm hsum hfeasible hexpert
  case found =>
    intro offset hoffset
    obtain ⟨bounds, hget, hle, hlt⟩ :=
      partitionPoint_cell (Nat.zero_le offset) (by rw [hlast]; exact hoffset)
    obtain ⟨-, hlo, hhi⟩ := cutCells_cell ppm topK order hget
    refine ⟨?_, hlo.le.trans hle, hlt.trans_le hhi.ge⟩
    have hcell := (List.getElem?_eq_some_iff.mp hget).1
    rwa [length_cells] at hcell

include hperm hsum hfeasible in
/-- For every order of the experts, the cells are built and exact. -/
theorem ofOrder_exact :
    ∃ built : SystematicCells, ofOrder ppm topK order = .ok built ∧ built.Exact ppm topK := by
  obtain ⟨uppers, hboundaries, hstrict, hlast?, hresidues⟩ :=
    exists_uppers (ends (inclusionMass ppm topK) 0 order)
  have hlast : uppers.getLastD 0 = totalPpm := by
    rw [List.getLastD_eq_getLast?, hlast?]
    rfl
  have hlay := lay_eq 0 order (fun expert hexpert => (mem_order_iff hperm).mp hexpert)
    fun expert _ => inclusionMass_le hfeasible expert
  have hends : (ends (inclusionMass ppm topK) 0 order).getLastD 0 = topK * totalPpm := by
    rw [ends_getLastD, Nat.zero_add, sum_inclusionMass hperm hsum]
  have hexperts : (cells 0 uppers).mapM (fun bounds =>
      picks (ends (inclusionMass ppm topK) 0 order) order topK bounds.1) =
        .ok ((cells 0 uppers).map fun cell => ownPicks ppm topK order cell.1) := by
    refine mapM_eq_ok_of_forall fun cell hcell => picks_eq hperm hsum ?_
    obtain ⟨-, hwidth, hstop⟩ := cell_bounds hstrict hcell
    omega
  refine ⟨cutCells ppm topK order uppers, ?_,
    cutCells_exact hperm hsum hfeasible hstrict hlast hresidues⟩
  rw [ofOrder, hlay]
  simp only [bind, Except.bind]
  rw [ensure_eq_ok_iff.mpr hends]
  dsimp only
  rw [hboundaries, List.tail_cons,
      show (0 :: uppers).zip uppers = cells 0 uppers from rfl, hexperts]
  dsimp only
  rw [ensure_eq_ok_iff.mpr hlast?]
  rfl

end line

/-! ## Histograms -/

section sample

variable {cells : SystematicCells} {ppm : List Nat} {topK : Nat} (h : cells.Exact ppm topK)
include h

theorem occupy_spec (nTokens : Nat) (occupancy : List Nat) (rng : RoutingRng)
    (hlength : occupancy.length = cells.upperOffsets.length) :
    ∃ (occupancy' : List Nat) (rng' : RoutingRng),
      cells.occupy nTokens occupancy rng = .ok (occupancy', rng') ∧
      occupancy'.length = cells.upperOffsets.length ∧
      occupancy'.sum = occupancy.sum + nTokens := by
  induction nTokens generalizing occupancy rng with
  | zero => exact ⟨occupancy, rng, rfl, hlength, rfl⟩
  | succ nTokens ih =>
    obtain ⟨offset, drawn, hdraw, hoffset⟩ := rng.below_spec (show 0 < totalPpm by decide)
    obtain ⟨bumped, hbump, hbumped, hsum, -⟩ :=
      bump_spec 1 (show cells.cellOf offset < occupancy.length by
        rw [hlength]
        exact (h.found offset hoffset).1)
    obtain ⟨occupancy', rng', hoccupy, hlength', hsum'⟩ := ih bumped drawn (hbumped.trans hlength)
    refine ⟨occupancy', rng', ?_, hlength', by omega⟩
    rw [occupy, hdraw]
    show (bump occupancy (cells.cellOf offset) 1 >>=
      fun occupancy => cells.occupy nTokens occupancy drawn) = _
    rw [hbump]
    exact hoccupy

omit h in
/-- Giving the same count to distinct experts. -/
theorem give_spec (count : Nat) (experts counts : List Nat) (hnodup : experts.Nodup)
    (hexperts : ∀ expert ∈ experts, expert < counts.length) :
    ∃ counts' : List Nat,
      experts.foldlM (fun counts expert => bump counts expert count) counts = .ok counts' ∧
      counts'.length = counts.length ∧ counts'.sum = counts.sum + experts.length * count ∧
      ∀ expert : Nat, counts'.getD expert 0 =
        counts.getD expert 0 + if expert ∈ experts then count else 0 := by
  induction experts generalizing counts with
  | nil => exact ⟨counts, rfl, rfl, by simp, fun expert => by simp⟩
  | cons first experts ih =>
    obtain ⟨hfirst, hexperts⟩ := List.forall_mem_cons.mp hexperts
    obtain ⟨hnotMem, hnodup⟩ := List.nodup_cons.mp hnodup
    obtain ⟨bumped, hbump, hlength, hsum, hget⟩ := bump_spec count hfirst
    obtain ⟨counts', hfold, hlength', hsum', hget'⟩ :=
      ih bumped hnodup (fun expert hexpert => hlength ▸ hexperts expert hexpert)
    refine ⟨counts', ?_, hlength'.trans hlength, ?_, ?_⟩
    · rw [List.foldlM_cons, hbump]
      exact hfold
    · rw [hsum', hsum, List.length_cons, Nat.succ_mul]
      omega
    · intro expert
      rw [hget', hget]
      by_cases heq : expert = first
      · subst heq
        simp [hnotMem]
      · simp [heq]

/-- A cell's tokens go to `topK` experts, to each of them once. -/
theorem tally_spec {cell : Nat} (count : Nat) {counts : List Nat}
    (hcell : cell < cells.upperOffsets.length) (hlength : counts.length = ppm.length) :
    ∃ counts' : List Nat, cells.tally counts cell count = .ok counts' ∧
      counts'.length = ppm.length ∧ counts'.sum = counts.sum + topK * count ∧
      ∀ expert : Nat, counts'.getD expert 0 ≤ counts.getD expert 0 + count := by
  unfold tally
  split
  · rename_i hzero
    subst hzero
    exact ⟨counts, rfl, hlength, rfl, fun expert => le_rfl⟩
  · obtain ⟨hpicks, hnodup, hexperts⟩ := h.picks cell hcell
    obtain ⟨counts', hfold, hlength', hsum, hget⟩ := give_spec count (cells.cellExperts cell) counts
      hnodup (by rw [hlength]; exact hexperts)
    refine ⟨counts', hfold, hlength'.trans hlength, by rw [hsum, hpicks], fun expert => ?_⟩
    rw [hget]
    split <;> omega

theorem tallies_spec (occupancy : List Nat) (start : Nat) (counts : List Nat)
    (hstart : start + occupancy.length ≤ cells.upperOffsets.length)
    (hlength : counts.length = ppm.length) :
    ∃ counts' : List Nat,
      (occupancy.zipIdx start).foldlM (fun counts entry => cells.tally counts entry.2 entry.1)
        counts = .ok counts' ∧
      counts'.length = ppm.length ∧ counts'.sum = counts.sum + topK * occupancy.sum ∧
      ∀ expert : Nat, counts'.getD expert 0 ≤ counts.getD expert 0 + occupancy.sum := by
  induction occupancy generalizing start counts with
  | nil => exact ⟨counts, rfl, hlength, rfl, fun expert => le_rfl⟩
  | cons count occupancy ih =>
    rw [List.length_cons] at hstart
    obtain ⟨tallied, htally, hlength', hsum, hget⟩ :=
      tally_spec h count (show start < cells.upperOffsets.length by omega) hlength
    obtain ⟨counts', hfold, hlength'', hsum', hget'⟩ := ih (start + 1) tallied (by omega) hlength'
    refine ⟨counts', ?_, hlength'', ?_, fun expert => ?_⟩
    · rw [List.zipIdx_cons, List.foldlM_cons, htally]
      exact hfold
    · rw [hsum', hsum, List.sum_cons, Nat.mul_add]
      omega
    · have := hget expert
      have := hget' expert
      rw [List.sum_cons]
      omega

/-- A histogram of `nTokens` tokens: every token gives `topK` assignments, to an expert
at most one. -/
theorem sampleCounts_spec (nTokens : Nat) (rng : RoutingRng) :
    ∃ (counts : List Nat) (rng' : RoutingRng),
      cells.sampleCounts nTokens rng = .ok (counts, rng') ∧ counts.length = ppm.length ∧
      counts.sum = nTokens * topK ∧ ∀ count ∈ counts, count ≤ nTokens := by
  obtain ⟨occupancy, rng', hoccupy, hlength, hsum⟩ := occupy_spec h nTokens
    (List.replicate cells.upperOffsets.length 0) rng List.length_replicate
  obtain ⟨counts, hfold, hlength', hsum', hget⟩ := tallies_spec h occupancy 0
    (List.replicate cells.numExperts 0) (by omega) (by rw [List.length_replicate, h.numExperts])
  simp only [List.sum_replicate, smul_zero, Nat.zero_add] at hsum hsum'
  refine ⟨counts, rng', ?_, hlength', by rw [hsum', hsum, Nat.mul_comm], ?_⟩
  · rw [sampleCounts, hoccupy]
    simp only [bind, Except.bind]
    rw [hfold]
    rfl
  · intro count hcount
    obtain ⟨expert, hexpert, rfl⟩ := List.getElem_of_mem hcount
    have hle := hget expert
    rw [List.getD_eq_getElem?_getD, List.getElem?_eq_getElem hexpert, List.getD_eq_getElem?_getD,
      List.getElem?_replicate, hsum] at hle
    split at hle <;> simpa using hle

end sample

/-! ## Every generator state -/

theorem new_spec {ppm : List Nat} {topK : Nat} (htop : topK ≤ ppm.length)
    (hsum : ppm.sum = totalPpm) (hfeasible : ∀ mass ∈ ppm, topK * mass ≤ totalPpm)
    (rng : RoutingRng) :
    ∃ (order : List Nat) (cells : SystematicCells) (rng' : RoutingRng),
      order.Perm (List.range ppm.length) ∧ ofOrder ppm topK order = .ok cells ∧
      new ppm topK rng = .ok (cells, rng') := by
  obtain ⟨order, rng', hshuffle, hperm⟩ :=
    shuffle_spec (ppm.length - 1) (List.range ppm.length) rng (by simp)
  obtain ⟨cells, hcells, -⟩ := ofOrder_exact hperm hsum hfeasible
  refine ⟨order, cells, rng', hperm, hcells, ?_⟩
  unfold new
  simp only [bind, Except.bind]
  rw [ensure_eq_ok_iff.mpr htop]
  dsimp only
  rw [ensure_eq_ok_iff.mpr hsum]
  dsimp only
  rw [hshuffle]
  dsimp only
  rw [hcells]
  rfl

/-- For a normalised distribution with feasible marginals, every order of the experts
gives exact cells and every generator state gives the cells of some order; their
histograms have `topK` assignments for each token and no expert above the tokens. -/
theorem systematic_marginals {ppm : List Nat} {topK : Nat} (htop : topK ≤ ppm.length)
    (hsum : ppm.sum = totalPpm) (hfeasible : ∀ mass ∈ ppm, topK * mass ≤ totalPpm) :
    (∀ order : List Nat, order.Perm (List.range ppm.length) →
      ∃ cells : SystematicCells, ofOrder ppm topK order = .ok cells ∧ cells.Exact ppm topK ∧
        ∀ (nTokens : Nat) (rng : RoutingRng), ∃ (counts : List Nat) (rng' : RoutingRng),
          cells.sampleCounts nTokens rng = .ok (counts, rng') ∧ counts.length = ppm.length ∧
          counts.sum = nTokens * topK ∧ ∀ count ∈ counts, count ≤ nTokens) ∧
    (∀ rng : RoutingRng, ∃ (order : List Nat) (cells : SystematicCells) (rng' : RoutingRng),
      order.Perm (List.range ppm.length) ∧ ofOrder ppm topK order = .ok cells ∧
      new ppm topK rng = .ok (cells, rng')) ∧
    ∀ (nTokens : Nat) (seed : SplitMix.Word), ∃ counts : List Nat,
      sampleTopkExpertCounts ppm topK nTokens seed = .ok counts ∧ counts.length = ppm.length ∧
      counts.sum = nTokens * topK ∧ ∀ count ∈ counts, count ≤ nTokens := by
  refine ⟨fun order hperm => ?_, new_spec htop hsum hfeasible, fun nTokens seed => ?_⟩
  · obtain ⟨cells, hcells, hexact⟩ := ofOrder_exact hperm hsum hfeasible
    exact ⟨cells, hcells, hexact, sampleCounts_spec hexact⟩
  · obtain ⟨order, cells, rng, hperm, hcells, hnew⟩ :=
      new_spec htop hsum hfeasible (RoutingRng.new seed)
    obtain ⟨built, hbuilt, hexact⟩ := ofOrder_exact hperm hsum hfeasible
    obtain rfl : cells = built := Except.ok.inj (hcells.symm.trans hbuilt)
    obtain ⟨counts, rng', hsample, hspec⟩ := sampleCounts_spec hexact nTokens rng
    refine ⟨counts, ?_, hspec⟩
    rw [sampleTopkExpertCounts, hnew]
    simp only [bind, Except.bind]
    rw [hsample]
    rfl

theorem systematic_marginals_profile : ∃ cells : SystematicCells,
      ofOrder [300000, 250000, 200000, 150000, 100000] 3 [4, 0, 3, 1, 2] = .ok cells ∧
      cells.Exact [300000, 250000, 200000, 150000, 100000] 3 := by
  have hall := @systematic_marginals [300000, 250000, 200000, 150000, 100000] 3
    (by decide) (by decide) (by decide)
  obtain ⟨cells, hcells, hexact, -⟩ := hall.1 [4, 0, 3, 1, 2] (by decide)
  exact ⟨cells, hcells, hexact⟩

end SystematicCells

end ServingSim
