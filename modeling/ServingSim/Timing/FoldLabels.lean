import Mathlib.Data.List.Lex
import ServingSim.Lib.LargestRemainder
import ServingSim.Timing.ExpertFold

/-
  The fold of layer histograms keeps the assignment count and forgets the labels
  (`timing::routing::fold_layerwise_expert_counts`).

  A layer enters the fold only through its canonical form, and the canonical form
  is the same for all orders of the ranks and of the experts within a rank, because
  both sorts are by orders without ties. The sum over the layers of a canonical place
  does not see the order of the layers. What remains is largest-remainder rounding of
  these sums by the number of layers.

  What is proved:
    1. `foldLayerwise_conserves` — the total, floor or ceiling at every place, no entry
       above the largest of the input, and the same result for relabelled layers.
-/

namespace ServingSim

open LargestRemainder

/-! ## Ranks of a layer -/

theorem chunksExact_flatten {α : Type} {size : Nat} {ranks : List (List α)} (hsize : 0 < size)
    (h : ∀ rank ∈ ranks, rank.length = size) : chunksExact size ranks.flatten = ranks := by
  have hlength : ranks.flatten.length = ranks.length * size := by
    rw [List.length_flatten, List.map_congr_left h, List.map_const', List.sum_replicate,
      smul_eq_mul]
  unfold chunksExact
  rw [hlength, Nat.mul_div_cancel _ hsize]
  apply List.ext_getElem
  · simp
  · intro i hi hi'
    rw [List.getElem_map, List.getElem_range]
    exact Systematic.drop_take_flatten h (List.getElem?_eq_getElem hi')

theorem exists_ranks {α : Type} {size : Nat} (n : Nat) {layer : List α}
    (h : layer.length = n * size) :
    ∃ ranks : List (List α), layer = ranks.flatten ∧ ∀ rank ∈ ranks, rank.length = size := by
  induction n generalizing layer with
  | zero =>
    have : layer = [] := List.length_eq_zero_iff.1 (by omega)
    exact ⟨[], by simp [this]⟩
  | succ n ih =>
    rw [Nat.add_mul, Nat.one_mul] at h
    have hrest : (layer.drop size).length = n * size := by
      rw [List.length_drop]
      omega
    obtain ⟨ranks, hlayer, hranks⟩ := ih hrest
    refine ⟨layer.take size :: ranks, ?_, ?_⟩
    · rw [List.flatten_cons, ← hlayer, List.take_append_drop]
    · intro rank hrank
      obtain rfl | hrank := List.mem_cons.1 hrank
      · rw [List.length_take]
        omega
      · exact hranks rank hrank

/-! ## The canonical form -/

theorem rankBefore_ranking : Ranking rankBefore where
  trans a b c := by
    simp only [rankBefore]
    intro hab hbc
    split at hab <;> split at hbc <;> split <;> grind
  total a b := by
    simp only [rankBefore, Bool.or_eq_true]
    grind
  antisymm a b := by
    simp only [rankBefore]
    grind

theorem descending_ranking : Ranking (fun a b : Nat => decide (a ≥ b)) where
  trans a b c := by
    simp only [decide_eq_true_eq]
    omega
  total a b := by
    simp only [Bool.or_eq_true, decide_eq_true_eq]
    omega
  antisymm a b := by
    simp only [decide_eq_true_eq]
    omega

theorem canonical_flatten {size : Nat} {ranks : List (List Nat)} (hsize : 0 < size)
    (h : ∀ rank ∈ ranks, rank.length = size) :
    canonical size ranks.flatten =
      ((ranks.map fun rank => rank.mergeSort (· ≥ ·)).mergeSort rankBefore).flatten := by
  unfold canonical
  rw [chunksExact_flatten hsize h]

theorem canonical_perm {size : Nat} {layer : List Nat} (hsize : 0 < size)
    (h : layer.length % size = 0) : (canonical size layer).Perm layer := by
  obtain ⟨ranks, rfl, hranks⟩ := exists_ranks (layer.length / size)
    (Nat.div_mul_cancel (Nat.dvd_of_mod_eq_zero h)).symm
  rw [canonical_flatten hsize hranks]
  apply (List.mergeSort_perm _ _).flatten.trans
  clear hranks h
  induction ranks with
  | nil => exact List.Perm.refl []
  | cons rank ranks ih =>
    rw [List.map_cons, List.flatten_cons, List.flatten_cons]
    exact (List.mergeSort_perm rank _).append ih

/-- Another naming of the ranks of a layer and of the experts within its ranks. -/
def Relabelled (expertsPerRank : Nat) (layer layer' : List Nat) : Prop :=
  ∃ ranks named ranks' : List (List Nat),
    (∀ rank ∈ ranks, rank.length = expertsPerRank) ∧ layer = ranks.flatten ∧
      ranks.Perm named ∧ List.Forall₂ List.Perm named ranks' ∧ layer' = ranks'.flatten

theorem flatten_perm_of_forall₂ {ranks ranks' : List (List Nat)}
    (h : List.Forall₂ List.Perm ranks ranks') : ranks.flatten.Perm ranks'.flatten := by
  induction h with
  | nil => exact List.Perm.refl []
  | cons hrank _ ih => exact hrank.append ih

theorem width_of_forall₂ {size : Nat} {ranks ranks' : List (List Nat)}
    (h : List.Forall₂ List.Perm ranks ranks') (hwidth : ∀ rank ∈ ranks, rank.length = size) :
    ∀ rank ∈ ranks', rank.length = size := by
  induction h with
  | nil => exact hwidth
  | cons hrank _ ih =>
    obtain ⟨hfirst, hwidth⟩ := List.forall_mem_cons.1 hwidth
    exact List.forall_mem_cons.2 ⟨hrank.length_eq ▸ hfirst, ih hwidth⟩

theorem Relabelled.perm {size : Nat} {layer layer' : List Nat}
    (h : Relabelled size layer layer') : layer.Perm layer' := by
  obtain ⟨ranks, named, ranks', _, rfl, hperm, hexperts, rfl⟩ := h
  exact hperm.flatten.trans (flatten_perm_of_forall₂ hexperts)

theorem canonical_relabel {size : Nat} {layer layer' : List Nat} (hsize : 0 < size)
    (h : Relabelled size layer layer') : canonical size layer' = canonical size layer := by
  obtain ⟨ranks, named, ranks', hwidth, rfl, hperm, hexperts, rfl⟩ := h
  have hnamed : ∀ rank ∈ named, rank.length = size := by
    intro rank hrank
    exact hwidth rank (hperm.mem_iff.2 hrank)
  rw [canonical_flatten hsize hwidth, canonical_flatten hsize (width_of_forall₂ hexperts hnamed)]
  congr 1
  rw [rankBefore_ranking.mergeSort_eq_of_perm (hperm.map _)]
  congr 1
  clear hperm hwidth hnamed
  induction hexperts with
  | nil => rfl
  | cons hrank _ ih =>
    rw [List.map_cons, List.map_cons, ih, descending_ranking.mergeSort_eq_of_perm hrank]

/-- The layers in another order, and each of them relabelled. -/
def RelabelledLayers (expertsPerRank : Nat) (layers layers' : List (List Nat)) : Prop :=
  ∃ reordered, layers.Perm reordered ∧ List.Forall₂ (Relabelled expertsPerRank) reordered layers'

/-! ## The fold as largest-remainder rounding -/

/-- What `fold_layerwise_expert_counts` asserts about its arguments. -/
structure Foldable (layers : List (List Nat)) (expertsPerRank numExperts total : Nat) : Prop where
  nonempty : layers ≠ []
  rank : 0 < expertsPerRank
  width : 0 < numExperts
  divides : numExperts % expertsPerRank = 0
  equalWidth : ∀ counts ∈ layers, counts.length = numExperts
  equalTotal : ∀ counts ∈ layers, counts.sum = total

/-- The assignments of a canonical place, over all layers. -/
def placeSum (expertsPerRank : Nat) (layers : List (List Nat)) (place : Nat) : Nat :=
  (layers.map fun counts => (canonical expertsPerRank counts).getD place 0).sum

/-- The floors of the averages. -/
def placeFloors (expertsPerRank numExperts : Nat) (layers : List (List Nat)) : List Nat :=
  (List.range numExperts).map fun place => placeSum expertsPerRank layers place / layers.length

/-- The places by the remainders of their averages. -/
def placeRanking (expertsPerRank numExperts : Nat) (layers : List (List Nat)) : List Nat :=
  (List.range numExperts).mergeSort
    (largerFirst fun place => placeSum expertsPerRank layers place % layers.length)

/-- The places whose average is rounded up. -/
def roundedUp (expertsPerRank numExperts total : Nat) (layers : List (List Nat)) : List Nat :=
  (placeRanking expertsPerRank numExperts layers).take
    (total - (placeFloors expertsPerRank numExperts layers).sum)

theorem foldl_zipWith_add {n : Nat} (rows : List (List Nat)) {init : List Nat}
    (hinit : init.length = n) (hrows : ∀ row ∈ rows, row.length = n) :
    rows.foldl (List.zipWith (· + ·)) init =
      (List.range n).map fun i => init.getD i 0 + (rows.map fun row => row.getD i 0).sum := by
  induction rows generalizing init with
  | nil =>
    subst hinit
    rw [List.foldl_nil]
    apply List.ext_getElem
    · simp
    · intro i hi hi'
      rw [List.getElem_map, List.getElem_range, List.getD_eq_getElem _ _ hi]
      simp
  | cons row rows ih =>
    obtain ⟨hrow, hrows⟩ := List.forall_mem_cons.1 hrows
    rw [List.foldl_cons, ih (by rw [List.length_zipWith, hinit, hrow, Nat.min_self]) hrows]
    apply List.map_congr_left
    intro i hi
    have hin : i < n := List.mem_range.1 hi
    rw [List.map_cons, List.sum_cons, ← Nat.add_assoc]
    congr 1
    rw [List.getD_eq_getElem _ _ (by rw [List.length_zipWith]; omega),
      List.getD_eq_getElem _ _ (by omega), List.getD_eq_getElem _ _ (by omega),
      List.getElem_zipWith]

section folded

variable {layers : List (List Nat)} {e n total : Nat}

theorem Foldable.canonical_perm (h : Foldable layers e n total) :
    ∀ counts ∈ layers, (canonical e counts).Perm counts := by
  intro counts hcounts
  apply ServingSim.canonical_perm h.rank
  rw [h.equalWidth counts hcounts]
  exact h.divides

theorem Foldable.sums (h : Foldable layers e n total) :
    layers.foldl (fun sums counts => List.zipWith (· + ·) sums (canonical e counts))
      (List.replicate n 0) = (List.range n).map (placeSum e layers) := by
  rw [← List.foldl_map (f := canonical e) (g := List.zipWith (· + ·)),
    foldl_zipWith_add (n := n) _ (List.length_replicate ..)]
  · apply List.map_congr_left
    intro i hi
    rw [List.map_map, List.getD_eq_getElem _ _ (by simpa using List.mem_range.1 hi),
      List.getElem_replicate, Nat.zero_add]
    rfl
  · intro row hrow
    obtain ⟨counts, hcounts, rfl⟩ := List.mem_map.1 hrow
    rw [(h.canonical_perm counts hcounts).length_eq]
    exact h.equalWidth counts hcounts

theorem Foldable.placeSum_eq_zero (h : Foldable layers e n total) {place : Nat}
    (hplace : n ≤ place) : placeSum e layers place = 0 := by
  unfold placeSum
  apply List.sum_eq_zero
  intro entry hentry
  obtain ⟨counts, hcounts, rfl⟩ := List.mem_map.1 hentry
  apply List.getD_eq_default
  rw [(h.canonical_perm counts hcounts).length_eq, h.equalWidth counts hcounts]
  exact hplace

theorem foldLayerwise_eq (h : Foldable layers e n total) :
    foldLayerwise layers e = .ok (give (placeFloors e n layers) (roundedUp e n total layers)) := by
  obtain ⟨first, rest, rfl⟩ := List.exists_cons_of_ne_nil h.nonempty
  have hlength : first.length = n := h.equalWidth first List.mem_cons_self
  have hsum : first.sum = total := h.equalTotal first List.mem_cons_self
  have hresidual : (fun place => ((List.range n).map (placeSum e (first :: rest))).getD place 0 %
      (first :: rest).length) = fun place => placeSum e (first :: rest) place %
        (first :: rest).length := by
    funext place
    congr 1
    by_cases hplace : place < n
    · rw [List.getD_eq_getElem _ _ (by simpa using hplace), List.getElem_map, List.getElem_range]
    · rw [List.getD_eq_default _ _ (by simpa using hplace), h.placeSum_eq_zero (by omega)]
  simp only [foldLayerwise, List.headD_cons, hlength, hsum, check_then_eq_ok_iff,
    ensure_eq_ok_iff]
  refine ⟨h.nonempty, h.rank, h.width, h.divides, h.equalWidth, h.equalTotal, ?_⟩
  rw [h.sums, List.map_map]
  change Except.ok (give (placeFloors e n (first :: rest)) (((List.range n).mergeSort
    (largerFirst fun place => ((List.range n).map (placeSum e (first :: rest))).getD place 0 %
      (first :: rest).length)).take (total - (placeFloors e n (first :: rest)).sum))) = _
  rw [hresidual]
  rfl

/-! ## The total, floor or ceiling, and the labels -/

theorem Foldable.divisor_pos (h : Foldable layers e n total) : 0 < layers.length :=
  List.length_pos_iff.2 h.nonempty

theorem Foldable.remainder_lt (h : Foldable layers e n total) (place : Nat) :
    placeSum e layers place % layers.length < layers.length :=
  Nat.mod_lt _ h.divisor_pos

theorem range_map_getD {n : Nat} {row : List Nat} (h : row.length = n) :
    (List.range n).map (fun i => row.getD i 0) = row := by
  subst h
  apply List.ext_getElem
  · simp
  · intro i hi hi'
    rw [List.getElem_map, List.getElem_range, List.getD_eq_getElem _ _ hi']

theorem sum_columns {n : Nat} (rows : List (List Nat)) (h : ∀ row ∈ rows, row.length = n) :
    ((List.range n).map fun i => (rows.map fun row => row.getD i 0).sum).sum =
      (rows.map List.sum).sum := by
  induction rows with
  | nil => simp
  | cons row rows ih =>
    obtain ⟨hrow, hrows⟩ := List.forall_mem_cons.1 h
    simp only [List.map_cons, List.sum_cons]
    rw [List.sum_map_add, ih hrows, range_map_getD hrow]

theorem Foldable.sum_placeSum (h : Foldable layers e n total) :
    ((List.range n).map (placeSum e layers)).sum = layers.length * total := by
  have hcolumns := sum_columns (n := n) (layers.map (canonical e)) (by
    intro row hrow
    obtain ⟨counts, hcounts, rfl⟩ := List.mem_map.1 hrow
    rw [(h.canonical_perm counts hcounts).length_eq, h.equalWidth counts hcounts])
  simp only [List.map_map] at hcolumns
  calc ((List.range n).map (placeSum e layers)).sum
      = (layers.map (List.sum ∘ canonical e)).sum := hcolumns
    _ = (layers.map fun _ => total).sum := by
        congr 1
        apply List.map_congr_left
        intro counts hcounts
        rw [Function.comp_apply, (h.canonical_perm counts hcounts).sum_eq]
        exact h.equalTotal counts hcounts
    _ = layers.length * total := by rw [List.map_const', List.sum_replicate, smul_eq_mul]

theorem Foldable.sum_remainders (h : Foldable layers e n total) :
    ((List.range n).map fun place => placeSum e layers place % layers.length).sum =
        (total - (placeFloors e n layers).sum) * layers.length ∧
      (placeFloors e n layers).sum ≤ total := by
  have hsplit := sum_div_add_sum_mod layers.length ((List.range n).map (placeSum e layers))
  rw [h.sum_placeSum, List.map_map, List.map_map] at hsplit
  have hfloors : (placeFloors e n layers).sum ≤ total := by
    apply Nat.le_of_mul_le_mul_left _ h.divisor_pos
    exact hsplit ▸ Nat.le_add_right _ _
  refine ⟨?_, hfloors⟩
  rw [Nat.mul_comm, Nat.mul_sub]
  change layers.length * (placeFloors e n layers).sum + _ = _ at hsplit
  exact (Nat.sub_eq_of_eq_add' hsplit.symm).symm

theorem roundedUp_nodup : (roundedUp e n total layers).Nodup := by
  apply List.Nodup.sublist (List.take_sublist _ _)
  exact (List.mergeSort_perm _ _).nodup_iff.2 List.nodup_range

theorem lt_of_mem_roundedUp {place : Nat} (hplace : place ∈ roundedUp e n total layers) :
    place < n :=
  List.mem_range.1 (List.mem_mergeSort.1 (List.mem_of_mem_take hplace))

theorem Foldable.length_roundedUp (h : Foldable layers e n total) :
    (roundedUp e n total layers).length = total - (placeFloors e n layers).sum := by
  have hquota := quota_le_length h.remainder_lt h.sum_remainders.1
  rw [List.length_range] at hquota
  unfold roundedUp placeRanking
  rw [List.length_take, List.length_mergeSort, List.length_range]
  omega

theorem Foldable.remainder_pos (h : Foldable layers e n total) {place : Nat}
    (hplace : place ∈ roundedUp e n total layers) :
    0 < placeSum e layers place % layers.length :=
  residual_pos_of_mem_take (fun place => placeSum e layers place % layers.length)
    List.nodup_range h.remainder_lt h.sum_remainders.1 hplace

theorem Foldable.getD_folded {place : Nat} (hplace : place < n) :
    (give (placeFloors e n layers) (roundedUp e n total layers)).getD place 0 =
      placeSum e layers place / layers.length +
        if place ∈ roundedUp e n total layers then 1 else 0 := by
  have hlength : place < (placeFloors e n layers).length := by simpa [placeFloors] using hplace
  rw [getD_give hlength, List.Nodup.count roundedUp_nodup]
  congr 1
  rw [List.getD_eq_getElem _ _ hlength]
  simp [placeFloors]

theorem Foldable.floor_or_ceiling (h : Foldable layers e n total) {place : Nat}
    (hplace : place < n) :
    let average := placeSum e layers place
    let entry := (give (placeFloors e n layers) (roundedUp e n total layers)).getD place 0
    entry = average / layers.length ∨ entry = (average + (layers.length - 1)) / layers.length := by
  intro average entry
  have hentry : entry = average / layers.length +
      if place ∈ roundedUp e n total layers then 1 else 0 := Foldable.getD_folded hplace
  by_cases hup : place ∈ roundedUp e n total layers
  · right
    rw [hentry, if_pos hup]
    have hpos := h.remainder_pos hup
    have hlt := h.remainder_lt place
    have hdivide := Nat.div_add_mod average layers.length
    have hdivisor := h.divisor_pos
    symm
    rw [Nat.div_eq_iff hdivisor]
    change 0 < average % layers.length at hpos
    change average % layers.length < layers.length at hlt
    have : (average / layers.length + 1) * layers.length =
        layers.length * (average / layers.length) + layers.length := by ring
    omega
  · left
    rw [hentry, if_neg hup, Nat.add_zero]

theorem Foldable.placeSum_le (h : Foldable layers e n total) {bound : Nat}
    (hbound : ∀ counts ∈ layers, ∀ count ∈ counts, count ≤ bound) (place : Nat) :
    placeSum e layers place ≤ layers.length * bound := by
  have hle : ∀ entry ∈ layers.map (fun counts => (canonical e counts).getD place 0),
      entry ≤ bound := by
    intro entry hentry
    obtain ⟨counts, hcounts, rfl⟩ := List.mem_map.1 hentry
    by_cases hplace : place < (canonical e counts).length
    · rw [List.getD_eq_getElem _ _ hplace]
      apply hbound counts hcounts
      exact (h.canonical_perm counts hcounts).mem_iff.1 (List.getElem_mem hplace)
    · rw [List.getD_eq_default _ _ (by omega)]
      exact Nat.zero_le bound
  have hsum := List.sum_le_card_nsmul _ bound hle
  rwa [List.length_map, smul_eq_mul] at hsum

theorem Foldable.relabel (h : Foldable layers e n total) {layers' : List (List Nat)}
    (hlabels : RelabelledLayers e layers layers') :
    Foldable layers' e n total ∧ layers'.length = layers.length ∧
      placeSum e layers' = placeSum e layers := by
  obtain ⟨reordered, hperm, hlayers⟩ := hlabels
  have hlength : layers'.length = layers.length := hlayers.length_eq.symm.trans hperm.length_eq.symm
  have hsame : layers'.map (canonical e) = reordered.map (canonical e) := by
    clear hperm hlength
    induction hlayers with
    | nil => rfl
    | cons hfirst _ ih => rw [List.map_cons, List.map_cons, ih, canonical_relabel h.rank hfirst]
  have hlayer : ∀ counts' ∈ layers', ∃ counts ∈ layers, counts.Perm counts' := by
    intro counts' hcounts'
    have : ∃ counts ∈ reordered, counts.Perm counts' := by
      clear hperm hlength hsame
      induction hlayers with
      | nil => simp at hcounts'
      | @cons first first' rest rest' hfirst _ ih =>
        obtain rfl | hrest := List.mem_cons.1 hcounts'
        · exact ⟨first, List.mem_cons_self, hfirst.perm⟩
        · obtain ⟨counts, hcounts, heq⟩ := ih hrest
          exact ⟨counts, List.mem_cons_of_mem first hcounts, heq⟩
    obtain ⟨counts, hcounts, heq⟩ := this
    exact ⟨counts, hperm.mem_iff.2 hcounts, heq⟩
  refine ⟨?_, hlength, ?_⟩
  · constructor
    · intro hnil
      exact h.nonempty (List.length_eq_zero_iff.1 (by rw [← hlength, hnil]; rfl))
    · exact h.rank
    · exact h.width
    · exact h.divides
    · intro counts' hcounts'
      obtain ⟨counts, hcounts, heq⟩ := hlayer counts' hcounts'
      rw [← heq.length_eq, h.equalWidth counts hcounts]
    · intro counts' hcounts'
      obtain ⟨counts, hcounts, heq⟩ := hlayer counts' hcounts'
      rw [← heq.sum_eq, h.equalTotal counts hcounts]
  · funext place
    unfold placeSum
    have hmap : ∀ rows : List (List Nat),
        rows.map (fun counts => (canonical e counts).getD place 0) =
        (rows.map (canonical e)).map fun row => row.getD place 0 := by
      intro rows
      rw [List.map_map]
      rfl
    rw [hmap layers', hsame, ← hmap reordered]
    exact ((hperm.map _).sum_eq).symm

end folded

/-- **The layer fold conserves and is label-free.** The folded histogram has the
layers' total; every entry is the floor or the ceiling of the average of its canonical
place, so an all-zero place stays zero and no entry exceeds the largest of the input;
and reordering the layers, the ranks of a layer or the experts of a rank changes nothing. -/
theorem foldLayerwise_conserves {layers : List (List Nat)} {e n total : Nat}
    (h : Foldable layers e n total) :
    ∃ folded, foldLayerwise layers e = .ok folded ∧ folded.length = n ∧ folded.sum = total ∧
      (∀ place, place < n →
        let average := placeSum e layers place
        folded.getD place 0 = average / layers.length ∨
          folded.getD place 0 = (average + (layers.length - 1)) / layers.length) ∧
      (∀ place, (∀ counts ∈ layers, (canonical e counts).getD place 0 = 0) →
        folded.getD place 0 = 0) ∧
      (∀ bound, (∀ counts ∈ layers, ∀ count ∈ counts, count ≤ bound) →
        ∀ entry ∈ folded, entry ≤ bound) ∧
      ∀ layers', RelabelledLayers e layers layers' → foldLayerwise layers' e = .ok folded := by
  have hlength : (give (placeFloors e n layers) (roundedUp e n total layers)).length = n := by
    simp [placeFloors]
  refine ⟨_, foldLayerwise_eq h, hlength, ?_, fun place hplace => h.floor_or_ceiling hplace, ?_,
    ?_, ?_⟩
  · rw [sum_give, h.length_roundedUp]
    · exact Nat.add_sub_of_le h.sum_remainders.2
    · intro place hplace
      simpa [placeFloors] using lt_of_mem_roundedUp hplace
  · intro place hzero
    by_cases hplace : place < n
    · have haverage : placeSum e layers place = 0 := by
        apply List.sum_eq_zero
        intro entry hentry
        obtain ⟨counts, hcounts, rfl⟩ := List.mem_map.1 hentry
        exact hzero counts hcounts
      have hdivisor := h.divisor_pos
      have hfloor : (0 + (layers.length - 1)) / layers.length = 0 := by
        apply Nat.div_eq_of_lt
        omega
      obtain hentry | hentry := h.floor_or_ceiling hplace
      · rw [hentry, haverage, Nat.zero_div]
      · rw [hentry, haverage, hfloor]
    · exact List.getD_eq_default _ _ (by omega)
  · intro bound hbound entry hentry
    obtain ⟨place, hplace, rfl⟩ := List.getElem_of_mem hentry
    rw [← List.getD_eq_getElem _ 0 hplace]
    have hle := h.placeSum_le hbound place
    have hdivisor := h.divisor_pos
    rw [hlength] at hplace
    have hceiling : (placeSum e layers place + (layers.length - 1)) / layers.length ≤ bound := by
      apply Nat.le_of_lt_succ
      rw [Nat.div_lt_iff_lt_mul hdivisor, Nat.succ_mul, Nat.mul_comm bound]
      omega
    obtain hentry | hentry := h.floor_or_ceiling hplace
    · rw [hentry]
      exact (Nat.div_le_div_right (Nat.le_add_right _ _)).trans hceiling
    · rw [hentry]
      exact hceiling
  · intro layers' hlabels
    obtain ⟨hfoldable, hcount, hplaces⟩ := h.relabel hlabels
    rw [foldLayerwise_eq hfoldable]
    simp only [placeFloors, roundedUp, placeRanking, hcount, hplaces]

/-- Three layers of four experts on two ranks; the second layer names its ranks the
other way round. -/
theorem foldLayerwise_conserves_example :
    ∃ folded, foldLayerwise [[2, 1, 0, 1], [0, 0, 3, 1], [1, 1, 1, 1]] 2 = .ok folded ∧
      folded.sum = 4 ∧ foldLayerwise [[1, 1, 1, 1], [3, 1, 0, 0], [2, 1, 0, 1]] 2 = .ok folded := by
  have h : Foldable [[2, 1, 0, 1], [0, 0, 3, 1], [1, 1, 1, 1]] 2 4 4 :=
    ⟨by decide, by decide, by decide, by decide, by decide, by decide⟩
  obtain ⟨folded, hfold, _, hsum, _, _, _, hlabels⟩ := foldLayerwise_conserves h
  refine ⟨folded, hfold, hsum, hlabels _ ⟨[[1, 1, 1, 1], [0, 0, 3, 1], [2, 1, 0, 1]], ?_, ?_⟩⟩
  · decide
  · have hself : ∀ a b c d : Nat, Relabelled 2 [a, b, c, d] [a, b, c, d] := by
      intro a b c d
      exact ⟨[[a, b], [c, d]], _, [[a, b], [c, d]], by simp, rfl, List.Perm.refl _,
        List.forall₂_same.2 fun _ _ => List.Perm.refl _, rfl⟩
    refine List.Forall₂.cons (hself ..) (List.Forall₂.cons ?_ (List.Forall₂.cons (hself ..) .nil))
    exact ⟨[[0, 0], [3, 1]], [[3, 1], [0, 0]], [[3, 1], [0, 0]], by decide, rfl, by decide,
      List.forall₂_same.2 fun _ _ => List.Perm.refl _, rfl⟩

end ServingSim
