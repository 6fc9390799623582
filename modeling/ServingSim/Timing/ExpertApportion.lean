import ServingSim.Lib.LargestRemainder
import ServingSim.Timing.SystematicCells

/-
  Apportioning assignments to the experts of a shard
  (`timing::routing::RoutingDistribution::to_per_expert_counts`).

  The target is the rounded share of the whole shard. Floors are taken over the active
  set only, the heaviest experts, and what is missing to the target is dealt out over
  the active set in the order of the remainders, again and again if it must.

  The estimate of how many experts are active is a floating-point sum; it is a
  parameter, and everything holds for each value of it. The comparison functions end
  with the index, so the stable sort of the source is the only sort there is.

  What is proved:
    1. `toPerExpertCounts_apportions` — exact total, only the heaviest experts, and no
       lighter expert above a heavier one.
-/

namespace ServingSim

open LargestRemainder

/-! ## The apportionment -/

/-- `expected.round().clamp(1, ppm.len())`, with `rounded` for the rounded estimate. -/
def activeSetLen (globalExpertSelections : Nat) (ppm : List Nat) (rounded : Nat) : Nat :=
  if ppm = [] ∨ globalExpertSelections = 0 then 0 else max 1 (min rounded ppm.length)

/-- The heaviest experts first, equal ones by index. -/
def byWeight (ppm : List Nat) : List Nat :=
  (List.range ppm.length).mergeSort (largerFirst fun idx => ppm.getD idx 0)

def activeSet (globalExpertSelections : Nat) (ppm : List Nat) (rounded : Nat) : List Nat :=
  (byWeight ppm).take (activeSetLen globalExpertSelections ppm rounded)

/-- `(numerator / TOTAL_PPM) as u32`. -/
def baseCount (globalExpertSelections : Nat) (ppm : List Nat) (idx : Nat) : Nat :=
  globalExpertSelections * ppm.getD idx 0 / totalPpm % 2 ^ 32

def residual (globalExpertSelections : Nat) (ppm : List Nat) (idx : Nat) : Nat :=
  globalExpertSelections * ppm.getD idx 0 % totalPpm

/-- The rounded share of the whole shard, at least 1 if there is any share. -/
def apportionTarget (globalExpertSelections : Nat) (ppm : List Nat) : Nat :=
  let numeratorSum := (ppm.map (globalExpertSelections * ·)).sum
  let target := (numeratorSum + totalPpm / 2) / totalPpm
  if 0 < numeratorSum then max target 1 else target

/-- `while assigned < target`, with the number of turns that are left. -/
def dealOut (order : List Nat) : Nat → Nat → List Nat → List Nat
  | _, 0, counts => counts
  | cursor, turns + 1, counts =>
    dealOut order (cursor + 1) turns
      (counts.modify (order.getD (cursor % order.length) 0) (· + 1))

def toPerExpertCounts (globalExpertSelections : Nat) (ppm : List Nat) (rounded : Nat) :
    List Nat :=
  let active := activeSet globalExpertSelections ppm rounded
  let counts := active.foldl
    (fun counts idx => counts.set idx (baseCount globalExpertSelections ppm idx))
    (List.replicate ppm.length 0)
  let assigned := (active.map (baseCount globalExpertSelections ppm)).sum
  let residuals := active.mergeSort (largerFirst (residual globalExpertSelections ppm))
  if residuals = [] then counts
  else dealOut residuals 0 (apportionTarget globalExpertSelections ppm - assigned) counts

/-! ## Floors and dealing -/

theorem dealOut_eq_give (order : List Nat) (cursor turns : Nat) (counts : List Nat) :
    dealOut order cursor turns counts = give counts
      ((List.range' cursor turns).map fun cursor => order.getD (cursor % order.length) 0) := by
  induction turns generalizing cursor counts with
  | zero => rfl
  | succ turns ih =>
    rw [dealOut, ih, List.range'_succ, List.map_cons]
    rfl

theorem dealOut_zero (order : List Nat) (turns : Nat) (counts : List Nat) :
    dealOut order 0 turns counts = give counts (dealt order turns) := by
  rw [dealOut_eq_give, ← List.range_eq_range']
  rfl

theorem getD_foldl_set (value : Nat → Nat) (places : List Nat) {counts : List Nat} {i : Nat}
    (hi : i < counts.length) :
    (places.foldl (fun counts idx => counts.set idx (value idx)) counts).getD i 0 =
      if i ∈ places then value i else counts.getD i 0 := by
  induction places generalizing counts with
  | nil => simp
  | cons place places ih =>
    rw [List.foldl_cons, ih (by simpa using hi)]
    by_cases hmem : i ∈ places
    · simp [hmem]
    · by_cases hplace : i = place
      · subst hplace
        simp [hmem, hi]
      · simp [hmem, hplace, List.getElem?_set_ne (Ne.symm hplace)]

theorem length_foldl_set (value : Nat → Nat) (places counts : List Nat) :
    (places.foldl (fun counts idx => counts.set idx (value idx)) counts).length =
      counts.length := by
  induction places generalizing counts with
  | nil => rfl
  | cons place places ih => rw [List.foldl_cons, ih, List.length_set]

theorem sum_set {counts : List Nat} {i : Nat} (hi : i < counts.length) (v : Nat) :
    (counts.set i v).sum + counts.getD i 0 = counts.sum + v := by
  induction counts generalizing i with
  | nil => simp at hi
  | cons count counts ih =>
    cases i with
    | zero =>
      simp only [List.set_cons_zero, List.sum_cons, List.getD_cons_zero]
      omega
    | succ i =>
      have := ih (i := i) (by simpa using hi)
      simp only [List.set_cons_succ, List.sum_cons, List.getD_cons_succ]
      omega

theorem sum_foldl_set (value : Nat → Nat) {places counts : List Nat} (hnodup : places.Nodup)
    (hplaces : ∀ place ∈ places, place < counts.length)
    (hzero : ∀ place ∈ places, counts.getD place 0 = 0) :
    (places.foldl (fun counts idx => counts.set idx (value idx)) counts).sum =
      counts.sum + (places.map value).sum := by
  induction places generalizing counts with
  | nil => rfl
  | cons place places ih =>
    obtain ⟨hnot, hnodup⟩ := List.nodup_cons.1 hnodup
    obtain ⟨hplace, hplaces⟩ := List.forall_mem_cons.1 hplaces
    obtain ⟨hfirst, hzero⟩ := List.forall_mem_cons.1 hzero
    have hset := sum_set hplace (value place)
    rw [List.foldl_cons, ih hnodup, List.map_cons, List.sum_cons]
    · omega
    · intro other hother
      rw [List.length_set]
      exact hplaces other hother
    · intro other hother
      have hne : place ≠ other := by
        intro heq
        exact hnot (heq ▸ hother)
      rw [List.getD_eq_getElem?_getD, List.getElem?_set_ne hne, ← List.getD_eq_getElem?_getD]
      exact hzero other hother

/-! ## The active set -/

section shard

variable {globalExpertSelections rounded : Nat} {ppm : List Nat}

theorem activeSet_nodup : (activeSet globalExpertSelections ppm rounded).Nodup := by
  apply List.Nodup.sublist (List.take_sublist _ _)
  exact (List.mergeSort_perm _ _).nodup_iff.2 List.nodup_range

variable {i : Nat}

theorem mem_activeSet_iff : i ∈ activeSet globalExpertSelections ppm rounded ↔
      i < ppm.length ∧ (List.range ppm.length).countP (fun j => j ≠ i &&
        largerFirst (fun idx => ppm.getD idx 0) j i) <
          activeSetLen globalExpertSelections ppm rounded := by
  unfold activeSet byWeight
  rw [(largerFirst_ranking _).mem_take_iff List.nodup_range, List.mem_range]

theorem lt_of_mem_activeSet (hi : i ∈ activeSet globalExpertSelections ppm rounded) :
    i < ppm.length :=
  (mem_activeSet_iff.1 hi).1

theorem mem_activeSet_of_heavier {i j : Nat} (hi : i < ppm.length)
    (hheavier : ppm.getD j 0 < ppm.getD i 0)
    (hj : j ∈ activeSet globalExpertSelections ppm rounded) :
    i ∈ activeSet globalExpertSelections ppm rounded := by
  obtain ⟨_, hcount⟩ := mem_activeSet_iff.1 hj
  refine mem_activeSet_iff.2 ⟨hi, lt_of_le_of_lt ?_ hcount⟩
  -- whoever comes before the heavier expert comes before the lighter one
  apply List.countP_mono_left
  intro k _ hk
  obtain ⟨_, hki⟩ := by simpa using hk
  have hle := key_le_of_largerFirst hki
  have hlt : ppm.getD j 0 < ppm.getD k 0 := lt_of_lt_of_le hheavier hle
  have hne : k ≠ j := by
    intro heq
    subst heq
    exact Nat.lt_irrefl _ hlt
  simp only [ne_eq, hne, not_false_eq_true, decide_true, Bool.true_and]
  exact largerFirst_of_lt hlt

theorem activeSet_eq_nil (h : activeSet globalExpertSelections ppm rounded = []) :
    globalExpertSelections * ppm.sum = 0 := by
  unfold activeSet activeSetLen at h
  by_cases hempty : ppm = [] ∨ globalExpertSelections = 0
  · obtain rfl | rfl := hempty
    · rfl
    · exact Nat.zero_mul _
  · rw [if_neg hempty, List.take_eq_nil_iff] at h
    have hpos : 0 < ppm.length := List.length_pos_iff.2 fun hnil => hempty (Or.inl hnil)
    obtain h | h := h
    · omega
    · have hlength := congrArg List.length h
      simp only [byWeight, List.length_mergeSort, List.length_range, List.length_nil] at hlength
      omega

/-! ## The target -/

theorem sum_numerators : (ppm.map (globalExpertSelections * ·)).sum =
    globalExpertSelections * ppm.sum := by
  induction ppm with
  | nil => rfl
  | cons slot ppm ih => rw [List.map_cons, List.sum_cons, List.sum_cons, ih, Nat.mul_add]

theorem apportionTarget_eq : apportionTarget globalExpertSelections ppm =
    if globalExpertSelections * ppm.sum = 0 then 0
    else max 1 ((globalExpertSelections * ppm.sum + totalPpm / 2) / totalPpm) := by
  simp only [apportionTarget, sum_numerators]
  by_cases hzero : globalExpertSelections * ppm.sum = 0
  · rw [hzero]
    rfl
  · rw [if_pos (Nat.pos_of_ne_zero hzero), if_neg hzero, Nat.max_comm]

theorem apportionTarget_le (hppm : ppm.sum ≤ totalPpm) :
    apportionTarget globalExpertSelections ppm ≤ globalExpertSelections := by
  rw [apportionTarget_eq]
  split
  · exact Nat.zero_le _
  · rename_i hpos
    have hglobal : 0 < globalExpertSelections :=
      Nat.pos_of_ne_zero fun hzero => hpos (by rw [hzero, Nat.zero_mul])
    apply max_le hglobal
    apply Nat.le_of_lt_succ
    rw [Nat.div_lt_iff_lt_mul (by decide), Nat.succ_mul]
    have := Nat.mul_le_mul_left globalExpertSelections hppm
    have : totalPpm / 2 < totalPpm := by decide
    omega

theorem sum_range_getD (f : Nat → Nat) (row : List Nat) :
    ((List.range row.length).map fun i => f (row.getD i 0)).sum = (row.map f).sum := by
  congr 1
  apply List.ext_getElem
  · simp
  · intro i hi hi'
    rw [List.getElem_map, List.getElem_map, List.getElem_range,
      List.getD_eq_getElem _ _ (by simpa using hi)]

theorem baseCount_le (globalExpertSelections : Nat) (ppm : List Nat) (idx : Nat) :
    baseCount globalExpertSelections ppm idx ≤ globalExpertSelections * ppm.getD idx 0 / totalPpm :=
  Nat.mod_le _ _

theorem assigned_le_target : ((activeSet globalExpertSelections ppm rounded).map
      (baseCount globalExpertSelections ppm)).sum ≤
        apportionTarget globalExpertSelections ppm := by
  set active := activeSet globalExpertSelections ppm rounded with hactive
  have hfloors : (active.map (baseCount globalExpertSelections ppm)).sum * totalPpm ≤
      (active.map fun idx => globalExpertSelections * ppm.getD idx 0).sum := by
    clear hactive
    induction active with
    | nil => simp
    | cons idx active ih =>
      rw [List.map_cons, List.map_cons, List.sum_cons, List.sum_cons, Nat.add_mul]
      have hbase := Nat.mul_le_mul_right totalPpm
        (baseCount_le globalExpertSelections ppm idx)
      have := Nat.div_mul_le_self (globalExpertSelections * ppm.getD idx 0) totalPpm
      omega
  have hwhole : (active.map fun idx => globalExpertSelections * ppm.getD idx 0).sum ≤
      globalExpertSelections * ppm.sum := by
    calc (active.map fun idx => globalExpertSelections * ppm.getD idx 0).sum
        ≤ ((byWeight ppm).map fun idx => globalExpertSelections * ppm.getD idx 0).sum :=
          ((List.take_sublist _ _).map _).sum_le_sum (by intros; exact Nat.zero_le _)
      _ = ((List.range ppm.length).map fun idx => globalExpertSelections * ppm.getD idx 0).sum :=
          ((List.mergeSort_perm _ _).map _).sum_eq
      _ = (ppm.map (globalExpertSelections * ·)).sum :=
          sum_range_getD (globalExpertSelections * ·) ppm
      _ = globalExpertSelections * ppm.sum := sum_numerators
  have hassigned : (active.map (baseCount globalExpertSelections ppm)).sum ≤
      (globalExpertSelections * ppm.sum + totalPpm / 2) / totalPpm := by
    rw [Nat.le_div_iff_mul_le (by decide)]
    omega
  rw [apportionTarget_eq]
  split
  · rename_i hzero
    rw [hzero] at hassigned
    have hround : (0 + totalPpm / 2) / totalPpm = 0 := by decide
    omega
  · exact hassigned.trans (le_max_right _ _)

/-! ## The counts -/

/-- The places served by the dealing loop. -/
def dealtPlaces (globalExpertSelections : Nat) (ppm : List Nat) (rounded : Nat) : List Nat :=
  dealt ((activeSet globalExpertSelections ppm rounded).mergeSort
      (largerFirst (residual globalExpertSelections ppm)))
    (apportionTarget globalExpertSelections ppm -
      ((activeSet globalExpertSelections ppm rounded).map
        (baseCount globalExpertSelections ppm)).sum)

/-- The floors of the active experts. -/
def activeFloors (globalExpertSelections : Nat) (ppm : List Nat) (rounded : Nat) : List Nat :=
  (activeSet globalExpertSelections ppm rounded).foldl
    (fun counts idx => counts.set idx (baseCount globalExpertSelections ppm idx))
    (List.replicate ppm.length 0)

@[simp] theorem length_activeFloors :
    (activeFloors globalExpertSelections ppm rounded).length = ppm.length := by
  unfold activeFloors
  rw [length_foldl_set, List.length_replicate]

theorem toPerExpertCounts_eq
    (hactive : activeSet globalExpertSelections ppm rounded ≠ []) :
    toPerExpertCounts globalExpertSelections ppm rounded =
      give (activeFloors globalExpertSelections ppm rounded)
        (dealtPlaces globalExpertSelections ppm rounded) := by
  have hresiduals : (activeSet globalExpertSelections ppm rounded).mergeSort
      (largerFirst (residual globalExpertSelections ppm)) ≠ [] := by
    intro hnil
    have hlength := congrArg List.length hnil
    rw [List.length_mergeSort, List.length_nil] at hlength
    exact hactive (List.length_eq_zero_iff.1 hlength)
  simp only [toPerExpertCounts]
  rw [if_neg hresiduals, dealOut_zero]
  rfl

theorem toPerExpertCounts_of_inactive
    (hactive : activeSet globalExpertSelections ppm rounded = []) :
    toPerExpertCounts globalExpertSelections ppm rounded = List.replicate ppm.length 0 := by
  simp only [toPerExpertCounts, hactive, List.mergeSort_nil, if_true, List.foldl_nil]

theorem mem_activeSet_of_dealt
    (hactive : activeSet globalExpertSelections ppm rounded ≠ [])
    (hi : i ∈ dealtPlaces globalExpertSelections ppm rounded) :
    i ∈ activeSet globalExpertSelections ppm rounded := by
  obtain ⟨first, rest, hcons⟩ := List.exists_cons_of_ne_nil hactive
  have hmem : first ∈ (activeSet globalExpertSelections ppm rounded).mergeSort
      (largerFirst (residual globalExpertSelections ppm)) := by
    rw [List.mem_mergeSort, hcons]
    exact List.mem_cons_self
  exact List.mem_mergeSort.1 (mem_dealt (List.ne_nil_of_mem hmem) hi)

theorem sum_toPerExpertCounts : (toPerExpertCounts globalExpertSelections ppm rounded).sum =
      apportionTarget globalExpertSelections ppm := by
  by_cases hactive : activeSet globalExpertSelections ppm rounded = []
  · rw [toPerExpertCounts_of_inactive hactive, apportionTarget_eq,
      if_pos (activeSet_eq_nil hactive)]
    simp
  · have hplaces : ∀ place ∈ activeSet globalExpertSelections ppm rounded,
        place < (List.replicate ppm.length 0).length := by
      intro place hplace
      rw [List.length_replicate]
      exact lt_of_mem_activeSet hplace
    have hfloors : (activeFloors globalExpertSelections ppm rounded).sum =
        ((activeSet globalExpertSelections ppm rounded).map
          (baseCount globalExpertSelections ppm)).sum := by
      unfold activeFloors
      rw [sum_foldl_set _ activeSet_nodup hplaces]
      · simp
      · intro place hplace
        rw [List.getD_eq_getElem _ _ (hplaces place hplace), List.getElem_replicate]
    rw [toPerExpertCounts_eq hactive, sum_give, hfloors]
    · simp only [dealtPlaces, dealt, List.length_map, List.length_range]
      exact Nat.add_sub_of_le assigned_le_target
    · intro place hplace
      rw [length_activeFloors]
      exact lt_of_mem_activeSet (mem_activeSet_of_dealt hactive hplace)

theorem getD_toPerExpertCounts (hi : i < ppm.length) :
    (toPerExpertCounts globalExpertSelections ppm rounded).getD i 0 =
      if i ∈ activeSet globalExpertSelections ppm rounded then
        baseCount globalExpertSelections ppm i +
          (dealtPlaces globalExpertSelections ppm rounded).count i
      else 0 := by
  by_cases hactive : activeSet globalExpertSelections ppm rounded = []
  · rw [toPerExpertCounts_of_inactive hactive, hactive,
      List.getD_eq_getElem _ _ (by simpa using hi), List.getElem_replicate]
    simp
  · have hlength : i < (activeFloors globalExpertSelections ppm rounded).length := by
      rw [length_activeFloors]
      exact hi
    rw [toPerExpertCounts_eq hactive, getD_give hlength, activeFloors,
      getD_foldl_set _ _ (by simpa using hi)]
    by_cases hmem : i ∈ activeSet globalExpertSelections ppm rounded
    · rw [if_pos hmem, if_pos hmem]
    · rw [if_neg hmem, if_neg hmem, List.count_eq_zero_of_not_mem fun hdealt =>
        hmem (mem_activeSet_of_dealt hactive hdealt),
        List.getD_eq_getElem _ _ (by simpa using hi), List.getElem_replicate]

theorem count_dealt_mono {i j : Nat} (hi : i ∈ activeSet globalExpertSelections ppm rounded)
    (hj : j ∈ activeSet globalExpertSelections ppm rounded) :
    (dealtPlaces globalExpertSelections ppm rounded).count j ≤
        (dealtPlaces globalExpertSelections ppm rounded).count i + 1 ∧
      (residual globalExpertSelections ppm j < residual globalExpertSelections ppm i →
        (dealtPlaces globalExpertSelections ppm rounded).count j ≤
          (dealtPlaces globalExpertSelections ppm rounded).count i) := by
  set order := (activeSet globalExpertSelections ppm rounded).mergeSort
    (largerFirst (residual globalExpertSelections ppm)) with horder
  have hnodup : order.Nodup := (List.mergeSort_perm _ _).nodup_iff.2 activeSet_nodup
  have hsorted : order.Pairwise fun a b =>
      largerFirst (residual globalExpertSelections ppm) a b :=
    (largerFirst_ranking _).sorted _
  have hiorder : i ∈ order := List.mem_mergeSort.2 hi
  have hjorder : j ∈ order := List.mem_mergeSort.2 hj
  obtain ⟨p, hp, hpi⟩ := List.getElem_of_mem hiorder
  obtain ⟨q, hq, hqj⟩ := List.getElem_of_mem hjorder
  rw [← List.getD_eq_getElem order 0 hp] at hpi
  rw [← List.getD_eq_getElem order 0 hq] at hqj
  have hcounti := count_dealt hnodup hp (apportionTarget globalExpertSelections ppm -
    ((activeSet globalExpertSelections ppm rounded).map
      (baseCount globalExpertSelections ppm)).sum)
  have hcountj := count_dealt hnodup hq (apportionTarget globalExpertSelections ppm -
    ((activeSet globalExpertSelections ppm rounded).map
      (baseCount globalExpertSelections ppm)).sum)
  rw [hpi] at hcounti
  rw [hqj] at hcountj
  unfold dealtPlaces
  rw [← horder, hcounti, hcountj]
  constructor
  · split <;> split <;> omega
  · intro hresidual
    -- the larger remainder stands first in the order
    have hpq : p < q := by
      obtain hlt | heq | hgt := Nat.lt_trichotomy p q
      · exact hlt
      · subst heq
        rw [← hpi, hqj] at hresidual
        exact absurd hresidual (Nat.lt_irrefl _)
      · have hbefore := List.pairwise_iff_getElem.1 hsorted q p hq hp hgt
        rw [← List.getD_eq_getElem order 0 hp, ← List.getD_eq_getElem order 0 hq, hpi, hqj]
          at hbefore
        exact absurd (key_le_of_largerFirst hbefore) (by omega)
    split <;> split <;> omega

theorem baseCount_eq (hglobal : globalExpertSelections < 2 ^ 32) (hppm : ppm.sum ≤ totalPpm)
    (hi : i < ppm.length) : baseCount globalExpertSelections ppm i =
      globalExpertSelections * ppm.getD i 0 / totalPpm := by
  have hslot : ppm.getD i 0 ≤ totalPpm := by
    rw [List.getD_eq_getElem _ _ hi]
    exact (List.le_sum_of_mem (List.getElem_mem hi)).trans hppm
  apply Nat.mod_eq_of_lt
  refine lt_of_le_of_lt ?_ hglobal
  exact Nat.div_le_of_le_mul (by
    rw [Nat.mul_comm totalPpm]
    exact Nat.mul_le_mul_left _ hslot)

theorem active_counts_mono (hglobal : globalExpertSelections < 2 ^ 32)
    (hppm : ppm.sum ≤ totalPpm) {i j : Nat}
    (hi : i ∈ activeSet globalExpertSelections ppm rounded)
    (hj : j ∈ activeSet globalExpertSelections ppm rounded)
    (hheavier : ppm.getD j 0 < ppm.getD i 0) :
    baseCount globalExpertSelections ppm j +
        (dealtPlaces globalExpertSelections ppm rounded).count j ≤
      baseCount globalExpertSelections ppm i +
        (dealtPlaces globalExpertSelections ppm rounded).count i := by
  obtain ⟨hone, hlarger⟩ := count_dealt_mono hi hj
  rw [baseCount_eq hglobal hppm (lt_of_mem_activeSet hi),
    baseCount_eq hglobal hppm (lt_of_mem_activeSet hj)]
  have hnumerator : globalExpertSelections * ppm.getD j 0 ≤
      globalExpertSelections * ppm.getD i 0 := Nat.mul_le_mul_left _ hheavier.le
  have hfloor := Nat.div_le_div_right (c := totalPpm) hnumerator
  obtain hlt | heq := Nat.lt_or_eq_of_le hfloor
  · omega
  · obtain hzero | hpos := Nat.eq_zero_or_pos globalExpertSelections
    · -- without assignments there is no active set
      subst hzero
      simp [activeSet, activeSetLen] at hi
    · have hresidual : residual globalExpertSelections ppm j <
          residual globalExpertSelections ppm i := by
        have hstrict : globalExpertSelections * ppm.getD j 0 <
            globalExpertSelections * ppm.getD i 0 := Nat.mul_lt_mul_of_pos_left hheavier hpos
        have hdivj := Nat.div_add_mod (globalExpertSelections * ppm.getD j 0) totalPpm
        have hdivi := Nat.div_add_mod (globalExpertSelections * ppm.getD i 0) totalPpm
        rw [heq] at hdivj
        unfold residual
        omega
      have := hlarger hresidual
      omega

end shard

/-- **Expert-count apportionment.** For every number of assignments and every shard
with at most the whole mass, and whatever the estimate of active experts: the counts add
up to the rounded share (at least 1 if there is a share), only the heaviest
`activeSetLen` experts receive anything, a heavier expert never receives fewer than a
lighter one, and every count fits its type. -/
theorem toPerExpertCounts_apportions (globalExpertSelections : Nat) (ppm : List Nat)
    (rounded : Nat) (hglobal : globalExpertSelections < 2 ^ 32) (hppm : ppm.sum ≤ totalPpm) :
    let counts := toPerExpertCounts globalExpertSelections ppm rounded
    counts.length = ppm.length ∧ counts.sum = (if globalExpertSelections * ppm.sum = 0 then 0
        else max 1 ((globalExpertSelections * ppm.sum + totalPpm / 2) / totalPpm)) ∧
      (∀ i, 0 < counts.getD i 0 →
        (List.range ppm.length).countP (fun j => decide (ppm.getD i 0 < ppm.getD j 0 ∨
          ppm.getD j 0 = ppm.getD i 0 ∧ j < i)) < activeSetLen globalExpertSelections ppm rounded) ∧
      (∀ i j, i < ppm.length → j < ppm.length → ppm.getD j 0 < ppm.getD i 0 →
        counts.getD j 0 ≤ counts.getD i 0) ∧
      ∀ count ∈ counts, count < 2 ^ 32 := by
  intro counts
  have hlength : counts.length = ppm.length := by
    by_cases hactive : activeSet globalExpertSelections ppm rounded = []
    · simp [counts, toPerExpertCounts_of_inactive hactive]
    · simp [counts, toPerExpertCounts_eq hactive]
  have hsum : counts.sum = apportionTarget globalExpertSelections ppm := sum_toPerExpertCounts
  refine ⟨hlength, ?_, ?_, ?_, ?_⟩
  · rw [hsum, apportionTarget_eq]
  · intro i hpos
    have hi : i < ppm.length := by
      by_contra hout
      rw [List.getD_eq_default _ _ (by omega)] at hpos
      exact Nat.lt_irrefl 0 hpos
    rw [getD_toPerExpertCounts hi] at hpos
    have hactive : i ∈ activeSet globalExpertSelections ppm rounded := by
      by_contra hout
      rw [if_neg hout] at hpos
      exact Nat.lt_irrefl 0 hpos
    refine lt_of_le_of_lt ?_ (mem_activeSet_iff.1 hactive).2
    apply List.countP_mono_left
    intro j _ hj
    have hbefore := of_decide_eq_true hj
    simp only [ne_eq, decide_not, largerFirst, Bool.and_eq_true, Bool.not_eq_eq_eq_not,
      Bool.not_true, decide_eq_false_iff_not]
    refine ⟨by grind, ?_⟩
    split <;> simp only [decide_eq_true_eq] <;> omega
  · intro i j hi hj hheavier
    rw [getD_toPerExpertCounts hi, getD_toPerExpertCounts hj]
    by_cases hactive : j ∈ activeSet globalExpertSelections ppm rounded
    · have hheavy := mem_activeSet_of_heavier hi hheavier hactive
      rw [if_pos hactive, if_pos hheavy]
      exact active_counts_mono hglobal hppm hheavy hactive hheavier
    · rw [if_neg hactive]
      exact Nat.zero_le _
  · intro count hcount
    calc count ≤ counts.sum := List.le_sum_of_mem hcount
      _ ≤ globalExpertSelections := by
          rw [hsum]
          exact apportionTarget_le hppm
      _ < 2 ^ 32 := hglobal

/-- Seven assignments on a shard with three quarters of the mass, two active experts. -/
theorem toPerExpertCounts_apportions_shard : (toPerExpertCounts 7 [250000, 500000, 0] 2).sum = 5 ∧
      (toPerExpertCounts 7 [250000, 500000, 0] 2).getD 0 0 ≤
        (toPerExpertCounts 7 [250000, 500000, 0] 2).getD 1 0 := by
  obtain ⟨_, hsum, _, hmono, _⟩ :=
    toPerExpertCounts_apportions 7 [250000, 500000, 0] 2 (by decide) (by decide)
  exact ⟨hsum, hmono 1 0 (by decide) (by decide) (by decide)⟩

end ServingSim
